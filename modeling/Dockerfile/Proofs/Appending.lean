import Dockerfile.Proofs.Relocation.Analysis
import Dockerfile.Proofs.Statement.Joining

/-!
# Text added at the end

Text that is put behind a finished text changes nothing before it.  Instructions, declarations and
stages of the first text come first, at the same places, and the new ones start behind it.  A
search by offset does not reach the new ones, and neither does the search for the last declaration
before a reference; only a reference to a stage that was not found may find one now.
-/

namespace Dockerfile

theorem Tokens.takeWhile_append_of_forall {α : Type} {p : α → Bool} (front : List α)
    {back : List α} (fails : ∀ a ∈ back, p a = false) :
    (front ++ back).takeWhile p = front.takeWhile p := by
  induction front with
  | nil =>
      cases back with
      | nil => rfl
      | cons a rest => simp [fails a List.mem_cons_self]
  | cons a front ih => simp [List.takeWhile_cons, ih]

theorem Instruction.at?_append {front back : List Instruction} {offset : Int}
    (behind : ∀ i ∈ back, offset < i.raw.start) :
    at? (front ++ back) offset = at? front offset := by
  have fails : ∀ i ∈ back, decide (i.raw.start ≤ offset) = false := by
    intro i member
    simpa using behind i member
  rw [at?, Tokens.takeWhile_append_of_forall front fails]
  rfl

theorem Variable.lastBefore?_append {front back : List Variable} (name : Bytes) {offset : Int}
    (behind : ∀ v ∈ back, offset ≤ v.nameSpan.start) :
    lastBefore? (front ++ back) name offset = lastBefore? front name offset := by
  have fails : ∀ v ∈ back, decide (v.nameSpan.start < offset) = false := by
    intro v member
    simpa using behind v member
  rw [lastBefore?, Tokens.takeWhile_append_of_forall front fails]
  rfl

namespace Stage

/-- The stages of later instructions go on counting. -/
theorem collect_append (index : Nat) (front back : List Instruction) :
    collect index (front ++ back) =
      collect index front ++ collect (index + front.countP Instruction.opensStage) back := by
  induction front generalizing index with
  | nil => rfl
  | cons i front ih =>
      cases opens : i.opensStage with
      | true => simp [collect, opens, ih, Nat.add_assoc, Nat.add_comm 1]
      | false => simp [collect, opens, ih]

theorem at?_append {front back : List Stage} {offset : Int}
    (behind : ∀ s ∈ back, offset < s.nameSpan.start) :
    at? (front ++ back) offset = at? front offset := by
  have fails : List.find? (·.nameSpan.contains offset) back = none := by
    simp only [List.find?_eq_none, Argument.contains_iff]
    intro s member inside
    have := behind s member
    omega
  rw [at?, List.find?_append, fails, Option.or_none]
  rfl

/-- The first stage of a name stays the first. -/
theorem find?_append_of_some {front : List Stage} (back : List Stage) {name : Bytes} {stage : Stage}
    (found : find? front name = some stage) : find? (front ++ back) name = some stage := by
  rw [find?] at found ⊢
  rw [List.find?_append, found]
  rfl

end Stage

namespace Document

theorem definition?_of_symbolAt? {doc : Document} {p : Position} {symbol : Symbol}
    (shows : (Analysis.ofDocument doc).symbolAt? p = some symbol) :
    (Analysis.ofDocument doc).definition? p =
      ((Analysis.ofDocument doc).resolve? symbol).map doc.locationOf := by
  rw [Analysis.definition?, shows]
  change ((Analysis.ofDocument doc).resolve? symbol).bind
    (fun span => some (doc.locationOf span)) = _
  cases (Analysis.ofDocument doc).resolve? symbol with
  | none => rfl
  | some span => rfl

section BeforeLast

variable {doc : Document} {p : Position} (before : p.line.toNat + 1 < doc.lines.length)
include before

theorem offset_lt_length {o : Nat} (found : doc.offsetAt? p = some o) : o < doc.text.length := by
  obtain ⟨line, left, right, onLine, split, rfl, -, -⟩ := offsetAt?_eq_some found
  have inside := Bytes.length_ofPieces_le split
  have next := List.getElem?_eq_getElem before
  have less := stop_lt_start onLine next (Nat.lt_succ_self _)
  have bound := (standsIn_text (List.mem_of_getElem? next)).stop_le
  rw [Line.stop] at less bound
  omega

theorem start_lt_length {symbol : Symbol}
    (shows : (Analysis.ofDocument doc).symbolAt? p = some symbol) :
    symbol.span.start < doc.text.length := by
  obtain ⟨o, g, k, found, member, read, shown⟩ := exists_shown shows
  obtain ⟨m, n, span, -, -, low, -⟩ := exists_proper_span member read shown rfl
  have less := offset_lt_length before found
  rw [span]
  dsimp only
  omega

end BeforeLast

/-- One document goes on where another one ends, which is at the start of a line: it has the lines
before that one, and the groups on them are followed by groups of later lines only. -/
structure Extends (doc doc' : Document) : Prop where
  uri : doc'.uri = doc.uri
  escape : doc'.escape = doc.escape
  text : doc.text <+: doc'.text
  lines : ∀ n, n + 1 < doc.lines.length → doc'.lines[n]? = doc.lines[n]?
  blank : ∀ n line, doc.lines[n]? = some line → n + 1 = doc.lines.length → line.isIgnored = true
  groups : ∃ later, doc'.groups = doc.groups ++ later ∧
    ∀ g ∈ later, doc.text.length ≤ g.first.start

namespace Extends

variable {doc doc' : Document} (ext : doc.Extends doc')
include ext

theorem slice_eq {start stop : Nat} (inside : stop ≤ doc.text.length) :
    doc'.text.slice start stop = doc.text.slice start stop := by
  obtain ⟨back, text⟩ := ext.text
  have room : stop - start ≤ (doc.text.drop start).length ∨ stop ≤ start := by
    rw [List.length_drop]
    omega
  rw [← text, Bytes.slice, Bytes.slice]
  rcases room with room | none
  · rw [List.drop_append, List.take_append_of_le_length room]
  · simp [Nat.sub_eq_zero_of_le none]

theorem ofGroup_eq {g : Statement.Group} (member : g ∈ doc.groups) :
    doc'.ofGroup g = doc.ofGroup g := by
  have bytes : ∀ s ∈ (Statement.ofGroup doc.escape g).stretches,
      Argument.bytesOf doc'.text s = Argument.bytesOf doc.text s := by
    intro s inside
    have bound := (laid_stretches member).inside s inside
    exact ext.slice_eq (by omega)
  have argument : Argument.ofStretches doc'.text doc.escape
        (Statement.ofGroup doc.escape g).stretches (Statement.ofGroup doc.escape g).stop =
      Argument.ofStretches doc.text doc.escape
        (Statement.ofGroup doc.escape g).stretches (Statement.ofGroup doc.escape g).stop := by
    rw [Argument.ofStretches, List.flatMap_congr bytes]
    rfl
  rw [ofGroup, ofGroup, ext.escape, Instruction.ofStatement, argument]
  rfl

/-- The instructions come first, and those that follow start behind the first text. -/
theorem instructions_eq : ∃ later : List Statement.Group, (∀ g ∈ later, g ∈ doc'.groups) ∧
    doc'.instructions = doc.instructions ++ later.map doc'.ofGroup ∧
    ∀ g ∈ later, (doc.text.length : Int) ≤ (doc'.ofGroup g).raw.start := by
  obtain ⟨later, groups, behind⟩ := ext.groups
  have grouped : ∀ g ∈ later, g ∈ doc'.groups := by
    intro g member
    simp [groups, member]
  refine ⟨later, grouped, ?_, ?_⟩
  · rw [Document.instructions_eq, Document.instructions_eq, groups, List.map_append]
    congr 1
    exact List.map_congr_left fun g member => ext.ofGroup_eq member
  · intro g member
    have start := behind g member
    rw [raw_ofGroup (grouped g member)]
    dsimp only
    omega

theorem declared_eq : ∃ later, Variable.all doc'.instructions =
    Variable.all doc.instructions ++ later ∧
      ∀ v ∈ later, (doc.text.length : Int) ≤ v.nameSpan.start := by
  obtain ⟨later, grouped, instructions, behind⟩ := ext.instructions_eq
  refine ⟨Variable.all (later.map doc'.ofGroup), ?_, ?_⟩
  · rw [instructions, Variable.all, List.flatMap_append]
    rfl
  · intro v listed
    obtain ⟨i, member, inside⟩ := List.mem_flatMap.mp listed
    obtain ⟨g, place, rfl⟩ := List.mem_map.mp member
    exact Int.le_trans (behind g place) (within_raw (grouped g place) inside).1

theorem stages_eq : ∃ later, Stage.all doc'.instructions = Stage.all doc.instructions ++ later ∧
    ∀ s ∈ later, (doc.text.length : Int) ≤ s.nameSpan.start := by
  obtain ⟨later, grouped, instructions, behind⟩ := ext.instructions_eq
  have stages := Stage.collect_append 0 doc.instructions (later.map doc'.ofGroup)
  rw [← instructions] at stages
  refine ⟨_, stages, ?_⟩
  intro s listed
  obtain ⟨i, member, -, n, named⟩ := Stage.exists_of_mem_collect listed
  obtain ⟨g, place, rfl⟩ := List.mem_map.mp member
  obtain ⟨word, third, rfl⟩ := Option.map_eq_some_iff.mp named
  have stands := (Word.all_standsIn _).1 word (Stage.alias?_mem third)
  exact Int.le_trans (behind g place)
    (lineSpan_within_raw (grouped g place) stands.filled stands.bound).1

theorem stageAliasAt?_eq {o : Nat} (less : o < doc.text.length) :
    (Analysis.ofDocument doc').stageAliasAt? o = (Analysis.ofDocument doc).stageAliasAt? o := by
  obtain ⟨later, stages, behind⟩ := ext.stages_eq
  have reach : ∀ s ∈ later, (o : Int) < s.nameSpan.start := by
    intro s member
    have := behind s member
    omega
  change (Stage.at? (Stage.all doc'.instructions) o).map _ = _
  rw [stages, Stage.at?_append reach]
  rfl

/-- What a position before the last line shows stays the same. -/
theorem symbolAt?_eq {p : Position} (before : p.line.toNat + 1 < doc.lines.length) :
    (Analysis.ofDocument doc').symbolAt? p = (Analysis.ofDocument doc).symbolAt? p := by
  have same : doc'.offsetAt? p = doc.offsetAt? p := by
    rw [offsetAt?, ext.lines _ before]
    rfl
  change (doc'.offsetAt? p).bind (fun o => (Instruction.at? doc'.instructions o).bind _) =
    (doc.offsetAt? p).bind fun o => (Instruction.at? doc.instructions o).bind _
  rw [same]
  cases found : doc.offsetAt? p with
  | none => rfl
  | some o =>
      have less := offset_lt_length before found
      obtain ⟨later, -, instructions, behind⟩ := ext.instructions_eq
      have reach : ∀ i ∈ later.map doc'.ofGroup, (o : Int) < i.raw.start := by
        intro i member
        obtain ⟨g, place, rfl⟩ := List.mem_map.mp member
        have := behind g place
        omega
      simp only [Option.bind_some]
      rw [instructions, Instruction.at?_append reach]
      congr 1
      funext i
      rw [Analysis.symbolIn?, ext.stageAliasAt?_eq less]
      rfl

theorem lastBefore?_eq (name : Bytes) {offset : Int} (inside : offset ≤ doc.text.length) :
    Variable.lastBefore? (Variable.all doc'.instructions) name offset =
      Variable.lastBefore? (Variable.all doc.instructions) name offset := by
  obtain ⟨later, declared, behind⟩ := ext.declared_eq
  rw [declared]
  exact Variable.lastBefore?_append name fun v member => Int.le_trans inside (behind v member)

/-- A symbol other than a reference to a stage is resolved as before. -/
theorem resolve?_eq {symbol : Symbol} (inside : symbol.span.start ≤ doc.text.length)
    (kind : symbol.kind ≠ .stageReference) :
    (Analysis.ofDocument doc').resolve? symbol = (Analysis.ofDocument doc).resolve? symbol := by
  obtain ⟨sort, name, span⟩ := symbol
  cases sort with
  | stageAlias => rfl
  | stageReference => exact absurd rfl kind
  | variableReference =>
      exact congrArg (Option.map Variable.nameSpan) (ext.lastBefore?_eq name inside)

/-- What any symbol was resolved to it is still resolved to. -/
theorem resolve?_eq_some {symbol : Symbol} {span : Span}
    (inside : symbol.span.start ≤ doc.text.length)
    (found : (Analysis.ofDocument doc).resolve? symbol = some span) :
    (Analysis.ofDocument doc').resolve? symbol = some span := by
  by_cases kind : symbol.kind = .stageReference
  · obtain ⟨later, stages, -⟩ := ext.stages_eq
    simp only [Analysis.resolve?, kind, Option.map_eq_some_iff] at found ⊢
    obtain ⟨stage, first, place⟩ := found
    refine ⟨stage, ?_, place⟩
    change Stage.find? (Stage.all doc'.instructions) symbol.name = _
    rw [stages]
    exact Stage.find?_append_of_some later first
  · rw [ext.resolve?_eq inside kind, found]

/-- A span in a segment of the first document has the same place in both. -/
theorem locationOf_eq {span : Span} (lies : doc.InSegment span) :
    doc'.locationOf span = doc.locationOf span := by
  obtain ⟨g, member, s, inside, low, order, high⟩ := lies
  obtain ⟨n, line, found, counts, first, last⟩ := exists_line_of_mem_segments member inside
  have before : n + 1 < doc.lines.length := by
    obtain ⟨bound, -⟩ := List.getElem?_eq_some_iff.mp found
    refine Nat.lt_of_le_of_ne bound fun final => ?_
    simp [ext.blank n line found final] at counts
  have found' := ext.lines n before
  rw [found] at found'
  have place (offset : Int) (above : (line.start : Int) ≤ offset) (below : offset ≤ line.stop) :
      doc'.positionAt offset = doc.positionAt offset := by
    obtain ⟨k, rfl⟩ := Int.eq_ofNat_of_zero_le (Int.le_trans (Int.natCast_nonneg _) above)
    have above : line.start ≤ k := by omega
    have below : k ≤ line.stop := by omega
    rw [positionAt_eq found' above below, positionAt_eq found above below]
  rw [locationOf, locationOf, ext.uri, rangeOf, rangeOf,
    place span.start (by omega) (by omega), place span.stop (by omega) (by omega)]

theorem definition?_eq_some {p : Position} (before : p.line.toNat + 1 < doc.lines.length)
    {location : Location} (found : (Analysis.ofDocument doc).definition? p = some location) :
    (Analysis.ofDocument doc').definition? p = some location := by
  obtain ⟨symbol, shows, found⟩ := Option.bind_eq_some_iff.mp found
  obtain ⟨span, resolved, same⟩ := Option.bind_eq_some_iff.mp found
  have inside := Int.le_of_lt (start_lt_length before shows)
  have place := ext.locationOf_eq (inSegment_of_resolve? shows resolved)
  have shows' := (ext.symbolAt?_eq before).trans shows
  rw [definition?_of_symbolAt? shows', ext.resolve?_eq_some inside resolved]
  exact (congrArg some place).trans same

/-- The definition of anything but a reference to a stage stays the same, found or not. -/
theorem definition?_eq {p : Position} (before : p.line.toNat + 1 < doc.lines.length)
    {symbol : Symbol} (shows : (Analysis.ofDocument doc).symbolAt? p = some symbol)
    (kind : symbol.kind ≠ .stageReference) :
    (Analysis.ofDocument doc').definition? p = (Analysis.ofDocument doc).definition? p := by
  have inside := Int.le_of_lt (start_lt_length before shows)
  have shows' := (ext.symbolAt?_eq before).trans shows
  rw [definition?_of_symbolAt? shows', definition?_of_symbolAt? shows, ext.resolve?_eq inside kind]
  cases resolved : (Analysis.ofDocument doc).resolve? symbol with
  | none => rfl
  | some span => exact congrArg some (ext.locationOf_eq (inSegment_of_resolve? shows resolved))

end Extends

section Append

variable {uri front : Bytes} (back : Bytes)

/-- A text that ends in a line feed, with its directives and its last instruction finished, is
extended by whatever is put behind it. -/
theorem extends_append (feed : front.getLast? = some Byte.lineFeed)
    (opened : (Directive.block (ofText uri front).lines).length + 1 < (ofText uri front).lineCount)
    (settled : (ofText uri front).IsSettled) :
    (ofText uri front).Extends (ofText uri (front ++ back)) := by
  have whole : front.EndsLine := Or.inr feed
  have count : (ofText uri front).lines.length = front.count Byte.lineFeed + 1 :=
    Line.length_split front
  have ends : (Directive.block (ofText uri front).lines).length < front.count Byte.lineFeed := by
    rw [lineCount] at opened
    omega
  refine ⟨rfl, escape_append whole (Or.inl ends), ⟨back, rfl⟩, ?_, ?_,
    _, groups_append whole (Or.inl ends) settled, ?_⟩
  · intro n inside
    have short : n < (ofText uri front).lines.dropLast.length := by
      rw [length_dropLast_lines]
      omega
    rw [lines_append whole, List.getElem?_append_left short, List.getElem?_dropLast]
    simp
    omega
  · intro n line found last
    have index : n = (ofText uri front).lines.dropLast.length := by
      rw [length_dropLast_lines]
      omega
    rw [lines_eq_dropLast_append whole, index, List.getElem?_concat_length] at found
    rw [← Option.some.inj found]
    rfl
  · intro g member
    have listed : g.first ∈ Statement.counting (linesBehind front back) := by
      rw [← Statement.flatMap_lines_groups (ofText uri front).escape
        (Statement.counting (linesBehind front back))]
      exact List.mem_flatMap.mpr ⟨g, member, List.mem_cons_self⟩
    exact Line.start_le_of_mem_place (List.mem_of_mem_filter listed)

/-- Text that is put behind a finished text changes no earlier answer.  The instructions,
declarations and stages of the first text come first, at the same places, and all others start
behind it.  A position before the last line of the first text shows the same; the definition of a
variable or of a stage's own name is the same, found or not; and a stage that was found for a
reference is still the one found. -/
theorem append_keeps_answers (uri front back : Bytes)
    (feed : front.getLast? = some Byte.lineFeed)
    (opened : (Directive.block (ofText uri front).lines).length + 1 < (ofText uri front).lineCount)
    (settled : (ofText uri front).IsSettled) :
    let a := Analysis.ofDocument (ofText uri front)
    let a' := Analysis.ofDocument (ofText uri (front ++ back))
    (∃ later, a'.instructions = a.instructions ++ later ∧
      ∀ i ∈ later, (front.length : Int) ≤ i.raw.start) ∧
    (∃ later, a'.declared = a.declared ++ later ∧
      ∀ v ∈ later, (front.length : Int) ≤ v.nameSpan.start) ∧
    (∃ later, a'.stages = a.stages ++ later ∧
      ∀ s ∈ later, (front.length : Int) ≤ s.nameSpan.start) ∧
    ∀ p : Position, p.line.toNat + 1 < a.document.lineCount →
      a'.symbolAt? p = a.symbolAt? p ∧
      (∀ symbol, a.symbolAt? p = some symbol →
        symbol.kind = .variableReference ∨ symbol.kind = .stageAlias →
        a'.definition? p = a.definition? p) ∧
      ∀ location, a.definition? p = some location → a'.definition? p = some location := by
  intro a a'
  have ext := extends_append back feed opened settled
  refine ⟨?_, ext.declared_eq, ext.stages_eq, ?_⟩
  · obtain ⟨later, -, instructions, behind⟩ := ext.instructions_eq
    refine ⟨_, instructions, ?_⟩
    intro i member
    obtain ⟨g, place, rfl⟩ := List.mem_map.mp member
    exact behind g place
  · intro p before
    refine ⟨ext.symbolAt?_eq before, ?_, fun location => ext.definition?_eq_some before⟩
    intro symbol shows kind
    refine ext.definition?_eq before shows ?_
    rcases kind with kind | kind <;> simp [kind]

/-- A reference leads where it led when another declaration of its name is put behind it. -/
theorem append_keeps_answers_declared_again :
    (ofText [] (utf8 "ARG s\nRUN \\\n$s\n")).IsSettled ∧
    (Analysis.ofDocument (ofText []
      (utf8 "ARG s\nRUN \\\n$s\n" ++ utf8 "ENV s=2\nFROM x AS b"))).definition? ⟨2, 1⟩ =
        some ⟨[], ⟨0, 4⟩, ⟨0, 5⟩⟩ := by
  have settled : (ofText [] (utf8 "ARG s\nRUN \\\n$s\n")).IsSettled := by decide +kernel
  have old : (Analysis.ofDocument (ofText [] (utf8 "ARG s\nRUN \\\n$s\n"))).definition? ⟨2, 1⟩ =
      some ⟨[], ⟨0, 4⟩, ⟨0, 5⟩⟩ := by decide +kernel
  obtain ⟨-, -, -, kept⟩ := append_keeps_answers [] (utf8 "ARG s\nRUN \\\n$s\n")
    (utf8 "ENV s=2\nFROM x AS b") (by decide) (by decide +kernel) settled
  exact ⟨settled, (kept ⟨2, 1⟩ (by decide +kernel)).2.2 _ old⟩

end Append

end Document

end Dockerfile
