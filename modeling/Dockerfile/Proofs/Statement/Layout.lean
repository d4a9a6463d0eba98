import Dockerfile.Analysis
import Dockerfile.Proofs.Argument
import Dockerfile.Proofs.Document.Lines
import Dockerfile.Proofs.Statement.Groups

/-!
# Where statements stand

The groups of a document divide its lines that count, so one statement ends before the next one
starts.  Each stretch of an argument is the end of the usable part of one line, and starts at the
line's start or after a blank.  So the argument of every instruction has a way back, and its
segments lie within the instruction's own lines.
-/

namespace Dockerfile

namespace Statement

theorem lines_add (escape : UInt8) (line : Line) (groups : List Group) :
    (Group.add escape line groups).flatMap Group.lines =
      line :: groups.flatMap Group.lines := by
  cases groups with
  | nil => rfl
  | cons next others =>
      rw [Group.add]
      split <;> rfl

theorem flatMap_lines_groups (escape : UInt8) (lines : List Line) :
    (groups escape lines).flatMap Group.lines = lines := by
  induction lines with
  | nil => rfl
  | cons line rest ih =>
      change (Group.add escape line (groups escape rest)).flatMap Group.lines = line :: rest
      rw [lines_add, ih]

namespace Group

theorem last_mem (g : Group) : g.last ∈ g.lines := by
  rw [last]
  cases found : g.rest.getLast? with
  | none => exact List.mem_cons_self
  | some line => exact List.mem_cons_of_mem _ (List.mem_of_getLast? found)

theorem stop_le_stop_last {g : Group} (ordered : g.lines.Pairwise fun a b => a.stop < b.start)
    {line : Line} (member : line ∈ g.lines) : line.stop ≤ g.last.stop := by
  obtain ⟨before, later⟩ := List.pairwise_cons.mp ordered
  rcases List.eq_nil_or_concat g.rest with none | ⟨front, final, split⟩
  · rw [lines, none] at member
    rw [last, none, List.mem_singleton.mp member]
    exact Nat.le_refl _
  · rw [List.concat_eq_append] at split
    have end_ : g.last = final := by rw [last, split, List.getLast?_concat]; rfl
    rw [split] at before later
    rw [end_]
    have bound (a : Line) (less : a.stop < final.start) : a.stop ≤ final.stop :=
      Nat.le_trans (Nat.le_of_lt less) (Nat.le_add_right _ _)
    rw [lines, split] at member
    rcases List.mem_cons.mp member with same | inside
    · rw [same]
      exact bound _ (before final (List.mem_append_right _ (List.mem_singleton_self _)))
    · rcases List.mem_append.mp inside with earlier | same
      · exact bound _ ((List.pairwise_append.mp later).2.2 line earlier final
          (List.mem_singleton_self _))
      · obtain rfl := List.mem_singleton.mp same
        exact Nat.le_refl _

end Group

/-- The stretch is the end of a line's usable part, and starts at the line's start or after a
blank. -/
def Fills (escape : UInt8) (line : Line) (s : Stretch) : Prop :=
  ∃ index, s = ⟨line.number, ⟨(line.start + index : Nat),
      (line.start + (line.usable escape).length : Nat)⟩⟩ ∧
    index < (line.usable escape).length ∧
    (index = 0 ∨ ∃ n b, index = n + 1 ∧ (line.usable escape)[n]? = some b ∧
      Byte.isBlank b = true)

theorem mem_stretch {s : Stretch} {line start stop : Nat} (member : s ∈ stretch line start stop) :
    s = ⟨line, ⟨start, stop⟩⟩ ∧ start < stop := by
  unfold stretch at member
  split at member
  · exact ⟨List.mem_singleton.mp member, ‹_›⟩
  · cases member

theorem fills_of_mem_whole {escape : UInt8} {line : Line} {s : Stretch}
    (member : s ∈ whole escape line) : Fills escape line s := by
  obtain ⟨same, filled⟩ := mem_stretch member
  exact ⟨0, same, by omega, Or.inl rfl⟩

theorem fills_of_mem_first {escape : UInt8} {line : Line} {s : Stretch}
    (member : s ∈ stretch line.number (line.start + line.argumentStart escape)
      (line.start + (line.usable escape).length)) :
    Fills escape line s ∧ (line.start + line.content.indent : Nat) ≤ s.span.start := by
  obtain ⟨same, filled⟩ := mem_stretch member
  obtain ⟨n, b, after, indent, found, blank⟩ := Line.isBlank_before_argument
    (show line.argumentStart escape < (line.usable escape).length by omega)
  refine ⟨⟨_, same, by omega, Or.inr ⟨n, b, after, found, blank⟩⟩, ?_⟩
  rw [same]
  dsimp only
  omega

/-- Every stretch of a group's argument fills one of its lines and stands after the keyword. -/
theorem fills_of_mem_stretches {escape : UInt8} {g : Group}
    (counts : g.first.isIgnored = false) (ordered : g.lines.Pairwise fun a b => a.stop < b.start)
    {s : Stretch} (member : s ∈ (ofGroup escape g).stretches) :
    (∃ line ∈ g.lines, Fills escape line s) ∧ (ofGroup escape g).raw.start ≤ s.span.start := by
  rw [ofGroup_eq escape counts] at member ⊢
  rcases List.mem_append.mp member with here | later
  · obtain ⟨fills, low⟩ := fills_of_mem_first here
    exact ⟨⟨g.first, List.mem_cons_self, fills⟩, low⟩
  · obtain ⟨line, inside, part⟩ := List.mem_flatMap.mp later
    have fills := fills_of_mem_whole part
    refine ⟨⟨line, List.mem_cons_of_mem _ inside, fills⟩, ?_⟩
    obtain ⟨index, same, -, -⟩ := fills
    have before := (List.pairwise_cons.mp ordered).1 line inside
    have room := Bytes.indent_le g.first.content
    rw [same]
    rw [Line.stop] at before
    dsimp only
    omega

/-- Parts of different lines follow one another as the lines do. -/
theorem Fills.stop_lt_start {escape : UInt8} {first second : Line} {a b : Stretch}
    (fills : Fills escape first a) (fills' : Fills escape second b)
    (less : first.stop < second.start) : a.span.stop < b.span.start := by
  obtain ⟨index, rfl, -, -⟩ := fills
  obtain ⟨index', rfl, -, -⟩ := fills'
  have inside := (first.isPrefix_usable escape).length_le
  rw [Line.stop] at less
  dsimp only
  omega

theorem pairwise_stretch (line start stop : Nat) (rel : Stretch → Stretch → Prop) :
    (stretch line start stop).Pairwise rel := by
  unfold stretch
  split
  · exact List.pairwise_singleton _ _
  · exact List.Pairwise.nil

theorem pairwise_stretches (escape : UInt8) {g : Group} (counts : g.first.isIgnored = false)
    (ordered : g.lines.Pairwise fun a b => a.stop < b.start) :
    (ofGroup escape g).stretches.Pairwise fun a b => a.span.stop < b.span.start := by
  obtain ⟨before, later⟩ := List.pairwise_cons.mp ordered
  rw [ofGroup_eq escape counts]
  refine List.pairwise_append.mpr ⟨pairwise_stretch _ _ _ _, ?_, ?_⟩
  · refine List.pairwise_flatMap.mpr ⟨fun line _ => pairwise_stretch _ _ _ _, ?_⟩
    refine later.imp ?_
    intro first second less a inFirst b inSecond
    exact (fills_of_mem_whole inFirst).stop_lt_start (fills_of_mem_whole inSecond) less
  · intro a inFirst b inLater
    obtain ⟨line, inside, part⟩ := List.mem_flatMap.mp inLater
    exact (fills_of_mem_first inFirst).1.stop_lt_start (fills_of_mem_whole part)
      (before line inside)

end Statement

namespace Document

variable {doc : Document}

def escape (doc : Document) : UInt8 :=
  Directive.escape (Directive.block doc.lines)

def countingLines (doc : Document) : List Line :=
  Statement.counting (doc.lines.drop (Directive.block doc.lines).length)

def groups (doc : Document) : List Statement.Group :=
  Statement.groups doc.escape doc.countingLines

theorem statements_eq (doc : Document) :
    doc.statements = doc.groups.map (Statement.ofGroup doc.escape) :=
  Statement.ofLines_eq _ _

theorem escape_cases (doc : Document) :
    doc.escape = Byte.backslash ∨ doc.escape = Byte.backtick := by
  rw [escape, Directive.escape]
  cases (Directive.escape? (Directive.block doc.lines)) with
  | none => exact Or.inl rfl
  | some d =>
      change (Directive.escapeByte? d).getD _ = _ ∨ (Directive.escapeByte? d).getD _ = _
      unfold Directive.escapeByte?
      split
      · exact Or.inl rfl
      · split
        · exact Or.inr rfl
        · exact Or.inl rfl

theorem escape_ascii (doc : Document) : doc.escape < 0x80 := by
  rcases doc.escape_cases with same | same <;> rw [same] <;> decide

theorem escape_not_isBlank (doc : Document) : Byte.isBlank doc.escape = false := by
  rcases doc.escape_cases with same | same <;> rw [same] <;> decide

theorem countingLines_sublist (doc : Document) : doc.countingLines.Sublist doc.lines :=
  List.filter_sublist.trans (List.drop_sublist _ _)

theorem pairwise_countingLines (doc : Document) :
    (doc.groups.flatMap Statement.Group.lines).Pairwise fun a b => a.stop < b.start := by
  rw [groups, Statement.flatMap_lines_groups]
  exact doc.pairwise_lines.sublist doc.countingLines_sublist

theorem mem_countingLines {g : Statement.Group} (member : g ∈ doc.groups) {line : Line}
    (inside : line ∈ g.lines) : line ∈ doc.lines ∧ line.isIgnored = false := by
  have counted : line ∈ doc.countingLines := by
    have all := Statement.flatMap_lines_groups doc.escape doc.countingLines
    rw [← all]
    exact List.mem_flatMap.mpr ⟨g, member, inside⟩
  refine ⟨doc.countingLines_sublist.subset counted, ?_⟩
  simpa using (List.mem_filter.mp counted).2

theorem pairwise_lines_group {g : Statement.Group} (member : g ∈ doc.groups) :
    g.lines.Pairwise fun a b => a.stop < b.start :=
  (List.pairwise_flatMap.mp doc.pairwise_countingLines).1 g member

/-- Of two groups, the lines of one all end before those of the other start. -/
theorem pairwise_groups (doc : Document) :
    doc.groups.Pairwise fun g h => ∀ a ∈ g.lines, ∀ b ∈ h.lines, a.stop < b.start :=
  (List.pairwise_flatMap.mp doc.pairwise_countingLines).2

def ofGroup (doc : Document) (g : Statement.Group) : Instruction :=
  Instruction.ofStatement doc.text doc.escape (Statement.ofGroup doc.escape g)

theorem instructions_eq (doc : Document) : doc.instructions = doc.groups.map doc.ofGroup := by
  rw [instructions, statements_eq, List.map_map]
  rfl

theorem ofGroup_mem_instructions {g : Statement.Group} (member : g ∈ doc.groups) :
    doc.ofGroup g ∈ doc.instructions := by
  rw [instructions_eq]
  exact List.mem_map_of_mem member

/-- The lines of an instruction: from the first byte of its keyword to the end of its last line. -/
theorem raw_ofGroup {g : Statement.Group} (member : g ∈ doc.groups) :
    (doc.ofGroup g).raw = ⟨(g.first.start + g.first.content.indent : Nat), g.last.stop⟩ := by
  have counts := (mem_countingLines member (List.mem_cons_self : g.first ∈ g.lines)).2
  change (Statement.ofGroup doc.escape g).raw = _
  rw [Statement.ofGroup_eq _ counts]

/-- The stretches of every instruction are laid out in the text. -/
theorem laid_stretches {g : Statement.Group} (member : g ∈ doc.groups) :
    Stretch.Laid doc.text (Statement.ofGroup doc.escape g).stretches := by
  have counts := (mem_countingLines member (List.mem_cons_self : g.first ∈ g.lines)).2
  have ordered := pairwise_lines_group member
  refine ⟨?_, (Statement.pairwise_stretches doc.escape counts ordered).imp Int.le_of_lt⟩
  intro s inside
  obtain ⟨⟨line, onLine, index, rfl, filled, -⟩, -⟩ :=
    Statement.fills_of_mem_stretches counts ordered inside
  have bound := (standsIn_text (mem_countingLines member onLine).1).stop_le
  have room := (line.isPrefix_usable doc.escape).length_le
  rw [Line.stop] at bound
  dsimp only
  omega

theorem sound_argument {g : Statement.Group} (member : g ∈ doc.groups) :
    (doc.ofGroup g).argument.Sound doc.text :=
  Argument.sound_ofStretches (laid_stretches member) _ _

/-- Every segment fills one of the instruction's lines, and lies between the first byte of the
keyword and the end of the last line. -/
theorem fills_of_mem_segments {g : Statement.Group} (member : g ∈ doc.groups) {s : Segment}
    (inside : s ∈ (doc.ofGroup g).argument.segments) :
    (∃ line ∈ g.lines, Statement.Fills doc.escape line s.toStretch) ∧
      (doc.ofGroup g).raw.start ≤ s.span.start ∧ s.span.stop ≤ (doc.ofGroup g).raw.stop := by
  have counts := (mem_countingLines member (List.mem_cons_self : g.first ∈ g.lines)).2
  have ordered := pairwise_lines_group member
  obtain ⟨⟨line, onLine, fills⟩, low⟩ := Statement.fills_of_mem_stretches counts ordered
    (Argument.toStretch_mem_of_mem_place inside)
  refine ⟨⟨line, onLine, fills⟩, low, ?_⟩
  obtain ⟨index, same, -, -⟩ := fills
  have room := (line.isPrefix_usable doc.escape).length_le
  have bound := Statement.Group.stop_le_stop_last ordered onLine
  have stop := congrArg (fun stretch => stretch.span.stop) same
  rw [raw_ofGroup member]
  rw [Line.stop] at bound
  dsimp only at stop ⊢
  omega

/-- A segment carries the number of a line that counts, and fills the end of its usable part. -/
theorem exists_filled_line {g : Statement.Group} (member : g ∈ doc.groups) {s : Segment}
    (inside : s ∈ (doc.ofGroup g).argument.segments) :
    ∃ (n : Nat) (line : Line), doc.lines[n]? = some line ∧ line.isIgnored = false ∧ s.line = n ∧
      ∃ index, s.span = ⟨(line.start + index : Nat),
        (line.start + (line.usable doc.escape).length : Nat)⟩ := by
  obtain ⟨⟨line, onLine, index, fills, -⟩, -⟩ := fills_of_mem_segments member inside
  obtain ⟨listed, counts⟩ := mem_countingLines member onLine
  obtain ⟨n, found⟩ := List.mem_iff_getElem?.mp listed
  have number : s.line = line.number := congrArg Stretch.line fills
  rw [number_of_getElem? found] at number
  exact ⟨n, line, found, counts, number, index, congrArg Stretch.span fills⟩

theorem exists_line_of_mem_segments {g : Statement.Group} (member : g ∈ doc.groups) {s : Segment}
    (inside : s ∈ (doc.ofGroup g).argument.segments) :
    ∃ (n : Nat) (line : Line), doc.lines[n]? = some line ∧ line.isIgnored = false ∧
      (line.start : Int) ≤ s.span.start ∧ s.span.stop ≤ line.stop := by
  obtain ⟨n, line, found, counts, -, index, span⟩ := exists_filled_line member inside
  have room := (line.isPrefix_usable doc.escape).length_le
  refine ⟨n, line, found, counts, ?_⟩
  rw [span, Line.stop]
  dsimp only
  omega

/-- Between two segments of an argument there is at least the end of a line. -/
theorem pairwise_segments {g : Statement.Group} (member : g ∈ doc.groups) :
    (doc.ofGroup g).argument.segments.Pairwise fun s t => s.span.stop < t.span.start := by
  have counts := (mem_countingLines member (List.mem_cons_self : g.first ∈ g.lines)).2
  have stretches := Statement.pairwise_stretches doc.escape counts
    (pairwise_lines_group member)
  rw [← Argument.map_toStretch_place 0 (Statement.ofGroup doc.escape g).stretches] at stretches
  exact List.pairwise_map.mp stretches

/-- One instruction's lines end before those of the next one start. -/
theorem pairwise_raw (doc : Document) :
    doc.instructions.Pairwise fun i j => i.raw.stop < j.raw.start := by
  rw [instructions_eq, List.pairwise_map]
  refine List.Pairwise.imp_of_mem ?_ doc.pairwise_groups
  intro g h inFirst inSecond apart
  have less := apart g.last g.last_mem h.first List.mem_cons_self
  rw [raw_ofGroup inFirst, raw_ofGroup inSecond]
  dsimp only
  omega

end Document

end Dockerfile
