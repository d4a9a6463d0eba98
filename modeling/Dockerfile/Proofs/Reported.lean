import Dockerfile.Proofs.Relocation.Analysis
import Dockerfile.Proofs.Value

/-!
# Reported spans

Every span that the analysis of a document reports has ends that a position leads back to, although
positions count UTF-16 units and spans are cut byte by byte.  Only the argument of an instruction,
its lines as a whole and a reference may reach over several lines; all other spans lie within the
content of one.
-/

namespace Dockerfile

/-- The spans that an analysis reports and that lie on one line. -/
inductive Analysis.ReportsOnLine (a : Analysis) : Span → Prop
  | keyword {i : Instruction} (member : i ∈ a.instructions) : a.ReportsOnLine i.keywordSpan
  | segment {i : Instruction} {s : Segment} (member : i ∈ a.instructions)
      (inside : s ∈ i.argument.segments) : a.ReportsOnLine s.span
  | variableName {v : Variable} (member : v ∈ a.declared) : a.ReportsOnLine v.nameSpan
  | variableValue {v : Variable} {span : Span} (member : v ∈ a.declared)
      (valued : v.valueSpan = some span) : a.ReportsOnLine span
  | stageName {s : Stage} (member : s ∈ a.stages) : a.ReportsOnLine s.nameSpan

/-- All spans that an analysis reports. -/
inductive Analysis.Reports (a : Analysis) : Span → Prop
  | onLine {span : Span} (reports : a.ReportsOnLine span) : a.Reports span
  | argument {i : Instruction} (member : i ∈ a.instructions) : a.Reports i.argumentSpan
  | raw {i : Instruction} (member : i ∈ a.instructions) : a.Reports i.raw
  | symbol {p : Position} {symbol : Symbol} (shows : a.symbolAt? p = some symbol) :
      a.Reports symbol.span

namespace Document

variable {doc : Document}

/-- Both ends of the span are proper, and they are in order. -/
def IsProperSpan (doc : Document) (span : Span) : Prop :=
  ∃ m n : Nat, span = ⟨m, n⟩ ∧ m ≤ n ∧ doc.IsProper m ∧ doc.IsProper n

def OnLine (doc : Document) (span : Span) : Prop :=
  ∃ line ∈ doc.lines, (line.start : Int) ≤ span.start ∧ span.start ≤ span.stop ∧
    span.stop ≤ line.stop

/-- An index of a line that stands at an end or next to an ASCII byte gives a proper offset. -/
theorem isProper_of_line {line : Line} (member : line ∈ doc.lines) {n : Nat}
    (bound : n ≤ line.content.length) (loose : line.content.IsLoose n) :
    doc.IsProper (line.start + n) := by
  refine ⟨line, member, Nat.le_add_right _ _, Nat.add_le_add_left bound _, ?_⟩
  rw [Nat.add_sub_cancel_left]
  exact Bytes.isBoundary_of_isLoose loose

theorem isProper_indent {line : Line} (member : line ∈ doc.lines) :
    doc.IsProper (line.start + line.content.indent) :=
  isProper_of_line member (Bytes.indent_le _) (Bytes.isLoose_indent_start _)

theorem onLine_of_inSegment {span : Span} (lies : doc.InSegment span) : doc.OnLine span := by
  obtain ⟨g, member, s, inside, low, order, high⟩ := lies
  obtain ⟨n, line, found, -, first, last⟩ := exists_line_of_mem_segments member inside
  exact ⟨line, List.mem_of_getElem? found, Int.le_trans first low, order, Int.le_trans high last⟩

section Group

variable {g : Statement.Group} (member : g ∈ doc.groups)
include member

theorem keywordSpan_ofGroup : (doc.ofGroup g).keywordSpan =
    ⟨(g.first.start + g.first.content.indent : Nat),
      (g.first.start + g.first.wordStop doc.escape : Nat)⟩ := by
  have counts := (mem_countingLines member List.mem_cons_self).2
  change (Statement.ofGroup doc.escape g).keyword = _
  rw [Statement.ofGroup_eq doc.escape counts]

theorem isProperSpan_keyword :
    doc.IsProperSpan (doc.ofGroup g).keywordSpan ∧ doc.OnLine (doc.ofGroup g).keywordSpan := by
  obtain ⟨there, counts⟩ := mem_countingLines member (List.mem_cons_self : g.first ∈ g.lines)
  have reach := Line.wordStop_le doc.escape counts
  have inside := (Line.isPrefix_usable doc.escape g.first).length_le
  have order : g.first.content.indent ≤ g.first.wordStop doc.escape := Nat.le_add_right _ _
  have stop : g.first.content.IsLoose (g.first.wordStop doc.escape) := by
    rcases Nat.lt_or_eq_of_le reach with less | same
    · have found := List.getElem?_eq_getElem less
      have blank := Line.isBlank_wordStop found
      obtain ⟨tail, split, -⟩ := g.first.content_eq doc.escape
      refine Or.inr (Or.inr (Or.inl ⟨_, ?_, Bytes.ascii_of_isBlank blank⟩))
      rw [split, List.getElem?_append_left less, found]
    · rw [same]
      exact Line.isLoose_length_usable doc.escape_ascii g.first
  rw [keywordSpan_ofGroup member]
  refine ⟨⟨_, _, rfl, by omega, isProper_indent there,
    isProper_of_line there (by omega) stop⟩, g.first, there, ?_, ?_, ?_⟩ <;>
    simp only [Line.stop] <;> omega

theorem isProperSpan_segment {s : Segment} (inside : s ∈ (doc.ofGroup g).argument.segments) :
    doc.IsProperSpan s.span ∧ doc.InSegment s.span := by
  obtain ⟨low, order, -⟩ := (sound_argument member).inside s inside
  have start := isProper_of_segment member inside (Nat.zero_le _) (Or.inl rfl)
  refine ⟨⟨s.span.start.toNat, s.span.stop.toNat, ?_, by omega, start,
    isProper_stop_segment member inside⟩, g, member, s, inside, Int.le_refl _, Int.le_of_lt order,
    Int.le_refl _⟩
  rw [Int.toNat_of_nonneg low, Int.toNat_of_nonneg (by omega)]

/-- The whole of an instruction is not empty, has proper ends and holds the keyword. -/
theorem isProperSpan_raw : doc.IsProperSpan (doc.ofGroup g).raw ∧
    (doc.ofGroup g).raw.start < (doc.ofGroup g).raw.stop ∧
    (doc.ofGroup g).raw.start = (doc.ofGroup g).keywordSpan.start ∧
    (doc.ofGroup g).keywordSpan.stop ≤ (doc.ofGroup g).raw.stop := by
  obtain ⟨there, counts⟩ := mem_countingLines member (List.mem_cons_self : g.first ∈ g.lines)
  have last := (mem_countingLines member g.last_mem).1
  have proper := isProper_of_line last (Nat.le_refl _) (Or.inr (Or.inl rfl))
  have ends := Statement.Group.stop_le_stop_last (pairwise_lines_group member)
    (List.mem_cons_self : g.first ∈ g.lines)
  have reach := Line.wordStop_le doc.escape counts
  have inside := (Line.isPrefix_usable doc.escape g.first).length_le
  have filled : g.first.content.indent < g.first.content.length := by
    obtain ⟨b, rest, left, -⟩ := Line.exists_trimLeft_of_not_isIgnored counts
    refine Nat.lt_of_not_le fun past => ?_
    rw [← Bytes.drop_indent, List.drop_eq_nil_of_le past] at left
    cases left
  rw [raw_ofGroup member, keywordSpan_ofGroup member]
  simp only [Line.stop] at ends
  refine ⟨⟨_, _, rfl, ?_, isProper_indent there, proper⟩, ?_, rfl, ?_⟩ <;>
    simp only [Line.stop] <;> omega

theorem stop_argument {s : Segment} (inside : s ∈ (doc.ofGroup g).argument.segments) :
    ∃ t ∈ (doc.ofGroup g).argument.segments, (doc.ofGroup g).argument.stop = t.span.stop ∧
      s.span.stop ≤ t.span.stop := by
  have counts := (mem_countingLines member List.mem_cons_self).2
  obtain ⟨t, last⟩ : ∃ t, (doc.ofGroup g).argument.segments.getLast? = some t :=
    Option.ne_none_iff_exists'.mp fun none => by
      rw [List.getLast?_eq_none_iff.mp none] at inside
      exact List.not_mem_nil inside
  have listed := List.mem_of_getLast? last
  refine ⟨t, listed, ?_, ?_⟩
  · have stretches : (Statement.ofGroup doc.escape g).stretches.getLast? = some t.toStretch := by
      rw [← Argument.map_toStretch_place 0 (Statement.ofGroup doc.escape g).stretches,
        List.getLast?_map]
      exact congrArg (Option.map Segment.toStretch) last
    change (Statement.ofGroup doc.escape g).stop = _
    rw [Statement.ofGroup_eq doc.escape counts] at stretches ⊢
    dsimp only at stretches ⊢
    rw [Statement.stopOf, stretches]
    rfl
  · obtain ⟨front, split⟩ := List.getLast?_eq_some_iff.mp last
    have ordered := pairwise_segments member
    rw [split] at inside ordered
    rcases List.mem_append.mp inside with before | same
    · have less := (List.pairwise_append.mp ordered).2.2 s before t List.mem_cons_self
      have placed := (sound_argument member).inside t listed
      omega
    · obtain rfl := List.mem_singleton.mp same
      exact Int.le_refl _

theorem isProperSpan_argumentSpan : doc.IsProperSpan (doc.ofGroup g).argumentSpan := by
  unfold Instruction.argumentSpan
  split
  · obtain ⟨m, n, span, -, -, proper⟩ := (isProperSpan_keyword member).1
    rw [span]
    exact ⟨n, n, rfl, Nat.le_refl n, proper, proper⟩
  · rename_i s rest segments
    have first : s ∈ (doc.ofGroup g).argument.segments := by rw [segments]; exact List.mem_cons_self
    obtain ⟨t, last, stop, order⟩ := stop_argument member first
    obtain ⟨m, n, span, low, proper, -⟩ := (isProperSpan_segment member first).1
    obtain ⟨m', n', span', -, -, proper'⟩ := (isProperSpan_segment member last).1
    rw [span, span'] at order
    rw [stop, span, span']
    dsimp only at order ⊢
    exact ⟨m, n', rfl, by omega, proper, proper'⟩

theorem isProper_of_textOf {s : Segment} (inside : s ∈ (doc.ofGroup g).argument.segments)
    {n : Nat} (bound : n ≤ (Variable.textOf (doc.ofGroup g).argument s).length)
    (loose : (Variable.textOf (doc.ofGroup g).argument s).IsLoose n) :
    ∃ m : Nat, s.span.start + n = m ∧ doc.IsProper m := by
  have sound := sound_argument member
  have size := length_textOf member inside
  have placed := sound.inside s inside
  rw [Variable.textOf, sound.bytes s inside] at loose
  exact ⟨s.span.start.toNat + n, by omega, isProper_of_segment member inside (by omega) loose⟩

end Group

theorem isProperSpan_of_textOf {g : Statement.Group} (member : g ∈ doc.groups) {s : Segment}
    (inside : s ∈ (doc.ofGroup g).argument.segments) {keyword : Keyword} {m n : Nat} (order : m ≤ n)
    (bound : n ≤ (Variable.textOf (doc.ofGroup g).argument s).length)
    (first : (Variable.textOf (doc.ofGroup g).argument s).IsLoose m)
    (last : (Variable.textOf (doc.ofGroup g).argument s).IsLoose n) :
    doc.IsProperSpan ((Variable.siteOf keyword (doc.ofGroup g).argument s).span m n) ∧
      doc.InSegment ((Variable.siteOf keyword (doc.ofGroup g).argument s).span m n) := by
  obtain ⟨start, place, proper⟩ := isProper_of_textOf member inside (Nat.le_trans order bound) first
  obtain ⟨stop, place', proper'⟩ := isProper_of_textOf member inside bound last
  refine ⟨⟨start, stop, ?_, by omega, proper, proper'⟩, g, member, s, inside,
    span_siteOf_within member inside keyword order bound⟩
  rw [← place, ← place']
  rfl

/-- A declared name has proper ends in one segment. -/
theorem isProperSpan_nameSpan {v : Variable} (listed : v ∈ Variable.all doc.instructions) :
    doc.IsProperSpan v.nameSpan ∧ doc.InSegment v.nameSpan := by
  obtain ⟨g, member, here⟩ := exists_group_of_mem_declared listed
  obtain ⟨keyword, -, -, ⟨s, inside, index, named⟩, -⟩ := (ofInstruction_spec member).1 v here
  rw [named.span]
  exact isProperSpan_of_textOf member inside (Nat.le_add_right _ _) named.bound
    named.isLoose.1 named.isLoose.2

/-- So has a value. -/
theorem isProperSpan_valueSpan {v : Variable} (listed : v ∈ Variable.all doc.instructions)
    {span : Span} (valued : v.valueSpan = some span) :
    doc.IsProperSpan span ∧ doc.InSegment span := by
  obtain ⟨g, member, here⟩ := exists_group_of_mem_declared listed
  unfold Variable.ofInstruction at here
  split at here
  · split at here
    · rcases Variable.looseAt_readSegments (Variable.Progress.isBare_of_eq_none rfl) _ v here with
        bare | ⟨s, inside, loose⟩
      · cases bare.symm.trans valued
      · obtain ⟨m, n, rfl, order, bound, first, last⟩ := loose span valued
        exact isProperSpan_of_textOf member inside order bound first last
    · exact absurd here List.not_mem_nil
  · exact absurd here List.not_mem_nil

theorem isProperSpan_of_mem_stages {stage : Stage} (listed : stage ∈ Stage.all doc.instructions) :
    doc.IsProperSpan stage.nameSpan ∧ stage.nameSpan.start < stage.nameSpan.stop := by
  obtain ⟨m, n, span, less, first, last, -⟩ := exists_proper_nameSpan listed
  rw [span]
  exact ⟨⟨m, n, rfl, Nat.le_of_lt less, first, last⟩, Int.ofNat_lt.mpr less⟩

/-- Where a shown symbol is defined: a name, which is not empty and has proper ends. -/
theorem isProperSpan_of_resolve? {p : Position} {symbol : Symbol} {span : Span}
    (shows : (Analysis.ofDocument doc).symbolAt? p = some symbol)
    (found : (Analysis.ofDocument doc).resolve? symbol = some span) :
    doc.IsProperSpan span ∧ span.start < span.stop := by
  obtain ⟨kind, name, place⟩ := symbol
  cases kind with
  | stageAlias =>
      obtain rfl := Option.some.inj found
      obtain ⟨o, g, k, -, member, -, shown⟩ := exists_shown shows
      cases shown with
      | stageAlias here =>
          have listed := ofGroup_mem_instructions member
          have opens : (doc.ofGroup g).opensStage = true := by
            rw [Instruction.opensStage, here.1]
            rfl
          obtain ⟨stage, there, -, same⟩ := Stage.exists_mem_collect 0 listed opens here.2.1
          rw [← same]
          exact isProperSpan_of_mem_stages there
  | stageReference =>
      obtain ⟨stage, first, rfl⟩ := Option.map_eq_some_iff.mp found
      exact isProperSpan_of_mem_stages (List.mem_of_find?_eq_some first)
  | variableReference =>
      obtain ⟨v, last, rfl⟩ := Option.map_eq_some_iff.mp found
      have listed := (Variable.lastBefore?_eq_some doc.pairwise_start_declared last).1.1
      exact ⟨(isProperSpan_nameSpan listed).1, (name_of_mem_declared listed).1.2.1⟩

theorem exists_group {i : Instruction} (member : i ∈ doc.instructions) :
    ∃ g ∈ doc.groups, doc.ofGroup g = i := by
  rw [instructions_eq] at member
  exact List.mem_map.mp member

/-- The spans on one line have proper ends there. -/
theorem isProperSpan_of_reportsOnLine {span : Span}
    (reports : (Analysis.ofDocument doc).ReportsOnLine span) :
    doc.IsProperSpan span ∧ doc.OnLine span := by
  cases reports with
  | keyword member =>
      obtain ⟨g, grouped, rfl⟩ := exists_group member
      exact isProperSpan_keyword grouped
  | segment member inside =>
      obtain ⟨g, grouped, rfl⟩ := exists_group member
      obtain ⟨proper, lies⟩ := isProperSpan_segment grouped inside
      exact ⟨proper, onLine_of_inSegment lies⟩
  | variableName member =>
      obtain ⟨proper, lies⟩ := isProperSpan_nameSpan member
      exact ⟨proper, onLine_of_inSegment lies⟩
  | variableValue member valued =>
      obtain ⟨proper, lies⟩ := isProperSpan_valueSpan member valued
      exact ⟨proper, onLine_of_inSegment lies⟩
  | stageName member =>
      exact ⟨(isProperSpan_of_mem_stages member).1,
        onLine_of_inSegment (inSegment_of_mem_stages member)⟩

/-- So have all others. -/
theorem isProperSpan_of_reports {span : Span} (reports : (Analysis.ofDocument doc).Reports span) :
    doc.IsProperSpan span := by
  cases reports with
  | onLine reports => exact (isProperSpan_of_reportsOnLine reports).1
  | argument member =>
      obtain ⟨g, grouped, rfl⟩ := exists_group member
      exact isProperSpan_argumentSpan grouped
  | raw member =>
      obtain ⟨g, grouped, rfl⟩ := exists_group member
      exact (isProperSpan_raw grouped).1
  | symbol shows =>
      obtain ⟨o, g, k, -, grouped, read, shown⟩ := exists_shown shows
      obtain ⟨m, n, span, first, last, low, high⟩ := exists_proper_span grouped read shown rfl
      rw [span]
      exact ⟨m, n, rfl, by omega, first, last⟩

/-- A span with proper ends lies in the text, and the positions of its ends lead back to them. -/
theorem IsProperSpan.converts (short : doc.text.length < 0x100000000) {span : Span}
    (proper : doc.IsProperSpan span) :
    (0 ≤ span.start ∧ span.start ≤ span.stop ∧ span.stop ≤ doc.text.length) ∧
      doc.offsetAt? (doc.positionAt span.start) = some span.start.toNat ∧
      doc.offsetAt? (doc.positionAt span.stop) = some span.stop.toNat := by
  obtain ⟨m, n, rfl, order, first, last⟩ := proper
  refine ⟨?_, offsetAt?_positionAt short first, offsetAt?_positionAt short last⟩
  obtain ⟨line, member, -, high, -⟩ := last
  have bound := (standsIn_text member).stop_le
  dsimp only
  omega

theorem rangeOf_on_line (short : doc.text.length < 0x100000000) {span : Span}
    (proper : doc.IsProperSpan span) (filled : span.start < span.stop) (lies : doc.OnLine span) :
    (doc.rangeOf span).start.line = (doc.rangeOf span).stop.line ∧
      (doc.rangeOf span).start.character < (doc.rangeOf span).stop.character := by
  obtain ⟨m, n, rfl, order, first, last⟩ := proper
  obtain ⟨line, member, low, -, high⟩ := lies
  dsimp only at low high filled
  obtain ⟨index, found⟩ := List.mem_iff_getElem?.mp member
  have line : (doc.positionAt m).line.toNat = index :=
    toNat_line_positionAt short found (by omega) (by omega)
  have line' : (doc.positionAt n).line.toNat = index :=
    toNat_line_positionAt short found (by omega) (by omega)
  have before := (before_positionAt_iff short (offsetAt?_positionAt short first) last).mpr
    (by omega)
  change (doc.positionAt m).line = (doc.positionAt n).line ∧
    (doc.positionAt m).character < (doc.positionAt n).character
  refine ⟨UInt32.toNat_inj.mp (line.trans line'.symm), ?_⟩
  rcases Position.before_iff.mp before with less | ⟨-, less⟩
  · omega
  · exact UInt32.lt_iff_toNat_lt.mpr less

/-- Every reported span converts to positions and back without loss.  Keywords, segments, names and
values lie within the content of one line.  The lines of an instruction are not empty and hold its
keyword and segments, and instructions follow one another.  Every definition is found in the
document itself, in a range on one line that is not empty. -/
theorem reported_spans_convert (uri text : Bytes) (short : text.length < 0x100000000) :
    let doc := ofText uri text
    let a := Analysis.ofDocument doc
    (∀ span, a.Reports span →
      (0 ≤ span.start ∧ span.start ≤ span.stop ∧ span.stop ≤ text.length) ∧
      doc.offsetAt? (doc.positionAt span.start) = some span.start.toNat ∧
      doc.offsetAt? (doc.positionAt span.stop) = some span.stop.toNat) ∧
    (∀ span, a.ReportsOnLine span → ∃ line ∈ doc.lines,
      (line.start : Int) ≤ span.start ∧ span.start ≤ span.stop ∧ span.stop ≤ line.stop) ∧
    (∀ i ∈ a.instructions, i.raw.start < i.raw.stop ∧
      (i.raw.start ≤ i.keywordSpan.start ∧ i.keywordSpan.stop ≤ i.raw.stop) ∧
      ∀ s ∈ i.argument.segments, i.raw.start ≤ s.span.start ∧ s.span.stop ≤ i.raw.stop) ∧
    (a.instructions.Pairwise fun i j => i.raw.stop < j.raw.start) ∧
    ∀ p location, a.definition? p = some location → location.uri = uri ∧
      location.range.start.line = location.range.stop.line ∧
      location.range.start.character < location.range.stop.character := by
  intro doc a
  refine ⟨?_, ?_, ?_, doc.pairwise_raw, ?_⟩
  · intro span reports
    exact (isProperSpan_of_reports reports).converts short
  · intro span reports
    exact (isProperSpan_of_reportsOnLine reports).2
  · intro i member
    obtain ⟨g, grouped, rfl⟩ := exists_group member
    obtain ⟨-, filled, start, stop⟩ := isProperSpan_raw grouped
    refine ⟨filled, ⟨Int.le_of_eq start, stop⟩, ?_⟩
    intro s inside
    exact (fills_of_mem_segments grouped inside).2
  · intro p location found
    obtain ⟨symbol, shows, answer⟩ := Option.bind_eq_some_iff.mp found
    obtain ⟨span, resolved, place⟩ := Option.bind_eq_some_iff.mp answer
    obtain rfl := Option.some.inj place
    obtain ⟨proper, filled⟩ := isProperSpan_of_resolve? shows resolved
    have lies := onLine_of_inSegment (inSegment_of_resolve? shows resolved)
    exact ⟨rfl, rangeOf_on_line short proper filled lies⟩

/-- The value here ends in an escape byte that takes the first byte of `é` along; it is reported up
to the end of that character, and the offsets of both ends are found again. -/
theorem reported_spans_convert_escaped :
    let doc := ofText [] (utf8 "ARG a=\\é")
    (Variable.all doc.instructions).map Variable.valueSpan = [some ⟨6, 9⟩] ∧
    doc.offsetAt? (doc.positionAt 6) = some 6 ∧ doc.offsetAt? (doc.positionAt 9) = some 9 := by
  intro doc
  have member : (⟨utf8 "a", .arg, ⟨4, 5⟩, some ⟨6, 9⟩, 0⟩ : Variable) ∈
      (Analysis.ofDocument doc).declared := by decide +kernel
  obtain ⟨converts, -⟩ := reported_spans_convert [] (utf8 "ARG a=\\é") (by decide)
  obtain ⟨-, start, stop⟩ := converts ⟨6, 9⟩ (.onLine (.variableValue member rfl))
  exact ⟨by decide +kernel, start, stop⟩

end Document

end Dockerfile
