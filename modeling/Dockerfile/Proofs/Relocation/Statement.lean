import Dockerfile.Proofs.Relocation.Argument
import Dockerfile.Proofs.Statement.Layout
import Mathlib.Data.List.Basic

/-!
# Moved lines and instructions

Lines that keep their contents fall into the same groups wherever they stand, and what is read from
a group moves along with its lines.  So a document whose counting lines are those of another one at
new places has the same instructions at new places.
-/

namespace Dockerfile

def Line.move (r : Relocation) (line : Line) : Line :=
  ⟨r.number line.number, r.offset line.start, line.content⟩

namespace Line

variable {r : Relocation} {line : Line}

@[simp] theorem number_move : (line.move r).number = r.number line.number := rfl

@[simp] theorem start_move : (line.move r).start = r.offset line.start := rfl

@[simp] theorem content_move : (line.move r).content = line.content := rfl

@[simp] theorem isContinued_move {escape : UInt8} :
    (line.move r).isContinued escape = line.isContinued escape := rfl

@[simp] theorem usable_move {escape : UInt8} :
    (line.move r).usable escape = line.usable escape := rfl

@[simp] theorem word_move {escape : UInt8} : (line.move r).word escape = line.word escape := rfl

@[simp] theorem wordStop_move {escape : UInt8} :
    (line.move r).wordStop escape = line.wordStop escape := rfl

@[simp] theorem argumentStart_move {escape : UInt8} :
    (line.move r).argumentStart escape = line.argumentStart escape := rfl

theorem keeps_of_offset_add
    (offsets : ∀ n ≤ line.content.length, r.offset (line.start + n) = r.offset line.start + n) :
    r.Keeps line.span := by
  refine ⟨Int.ofNat_le.mpr (Nat.le_add_right _ _), ?_⟩
  intro n inside
  have fits : n ≤ line.content.length := by
    dsimp only [span, stop] at inside
    omega
  exact congrArg Int.ofNat (offsets n fits)

/-- An offset on a line that stays together keeps its distance from the line's start. -/
theorem offset_add (keeps : r.Keeps line.span) {n : Nat} (inside : n ≤ line.content.length) :
    r.offset (line.start + n) = r.offset line.start + n := by
  have same := keeps.together n (by
    change (line.start : Int) + n ≤ ((line.start + line.content.length : Nat) : Int)
    omega)
  exact Int.ofNat.inj same

theorem stop_move (keeps : r.Keeps line.span) : (line.move r).stop = r.offset line.stop :=
  (offset_add keeps (Nat.le_refl _)).symm

theorem span_move (keeps : r.Keeps line.span) : (line.move r).span = line.span.move r := by
  rw [span, stop_move keeps]
  rfl

end Line

def Statement.move (r : Relocation) (s : Statement) : Statement where
  line := r.number s.line
  word := s.word
  keyword := s.keyword.move r
  stretches := s.stretches.map (Stretch.move r)
  stop := r.byte s.stop
  raw := s.raw.move r

namespace Statement

variable {r : Relocation} {escape : UInt8}

theorem stretch_move {line : Line} (keeps : r.Keeps line.span) {m n : Nat}
    (first : m ≤ line.content.length) (last : n ≤ line.content.length) :
    stretch (r.number line.number) (r.offset line.start + m) (r.offset line.start + n) =
      (stretch line.number (line.start + m) (line.start + n)).map (Stretch.move r) := by
  unfold stretch
  by_cases filled : m < n
  · rw [if_pos (by omega), if_pos (by omega), ← Line.offset_add keeps first,
      ← Line.offset_add keeps last]
    rfl
  · rw [if_neg (by omega), if_neg (by omega)]
    rfl

theorem whole_move {line : Line} (keeps : r.Keeps line.span) :
    whole escape (line.move r) = (whole escape line).map (Stretch.move r) :=
  stretch_move keeps (Nat.zero_le _) (line.isPrefix_usable escape).length_le

theorem stopOf_move (start : Int) (stretches : List Stretch) :
    stopOf (r.byte start) (stretches.map (Stretch.move r)) = r.byte (stopOf start stretches) := by
  rw [stopOf, stopOf, List.getLast?_map]
  cases stretches.getLast? <;> rfl

def Group.move (r : Relocation) (g : Group) : Group :=
  ⟨g.first.move r, g.rest.map (Line.move r)⟩

@[simp] theorem Group.first_move {g : Group} : (g.move r).first = g.first.move r := rfl

@[simp] theorem Group.rest_move {g : Group} : (g.move r).rest = g.rest.map (Line.move r) := rfl

theorem Group.last_move (g : Group) : (g.move r).last = g.last.move r := by
  rw [last, rest_move, List.getLast?_map, last]
  cases g.rest.getLast? <;> rfl

theorem Group.add_move (line : Line) (groups : List Group) :
    add escape (line.move r) (groups.map (Group.move r)) =
      (add escape line groups).map (Group.move r) := by
  cases groups with
  | nil => rfl
  | cons next others =>
      rw [List.map_cons, add, add, Line.isContinued_move]
      split <;> rfl

theorem counting_move (lines : List Line) :
    counting (lines.map (Line.move r)) = (counting lines).map (Line.move r) :=
  List.filter_map

theorem groups_move (lines : List Line) :
    groups escape (lines.map (Line.move r)) = (groups escape lines).map (Group.move r) := by
  induction lines with
  | nil => rfl
  | cons line rest ih =>
      change Group.add escape (line.move r) (groups escape (rest.map (Line.move r))) =
        (Group.add escape line (groups escape rest)).map (Group.move r)
      rw [ih, Group.add_move]

theorem flatMap_whole_move {lines : List Line} (keeps : ∀ line ∈ lines, r.Keeps line.span) :
    (lines.map (Line.move r)).flatMap (whole escape) =
      (lines.flatMap (whole escape)).map (Stretch.move r) := by
  rw [List.flatMap_map, List.map_flatMap]
  exact List.flatMap_congr fun line member => whole_move (keeps line member)

theorem ofGroup_move {g : Group} (counts : g.first.isIgnored = false)
    (keeps : ∀ line ∈ g.lines, r.Keeps line.span) :
    ofGroup escape (g.move r) = (ofGroup escape g).move r := by
  have keepsFirst := keeps g.first List.mem_cons_self
  have keepsLast := keeps g.last g.last_mem
  have room := (g.first.isPrefix_usable escape).length_le
  have wordFits := Nat.le_trans (Line.wordStop_le escape counts) room
  have argumentFits := Nat.le_trans (Line.argumentStart_le escape counts) room
  have opening := stretch_move keepsFirst argumentFits room
  have rest : (g.rest.map (Line.move r)).flatMap (whole escape) = _ :=
    flatMap_whole_move fun line member => keeps line (List.mem_cons_of_mem _ member)
  rw [ofGroup_eq escape (g := g.move r) counts, ofGroup_eq escape counts, move, ← stopOf_move,
    List.map_append, Group.last_move, Line.stop_move keepsLast, Group.rest_move, rest]
  simp only [Group.first_move, Line.start_move, Line.content_move, Line.number_move,
    Line.usable_move, Line.word_move, Line.wordStop_move, Line.argumentStart_move, opening,
    ← Line.offset_add keepsFirst wordFits,
    ← Line.offset_add keepsFirst (Bytes.indent_le g.first.content), Span.move,
    Relocation.byte_natCast]

end Statement

def Instruction.move (r : Relocation) (i : Instruction) : Instruction :=
  { i with
    keywordSpan := i.keywordSpan.move r
    argument := i.argument.move r
    raw := i.raw.move r }

namespace Instruction

variable {r : Relocation} {i : Instruction}

@[simp] theorem keyword_move : (i.move r).keyword = i.keyword := rfl

@[simp] theorem argument_move : (i.move r).argument = i.argument.move r := rfl

@[simp] theorem raw_move : (i.move r).raw = i.raw.move r := rfl

@[simp] theorem opensStage_move : (i.move r).opensStage = i.opensStage := rfl

@[simp] theorem refersToStage_move : (i.move r).refersToStage = i.refersToStage := rfl

end Instruction

/-- One document has the lines of another at new places, and among them the same lines count. -/
structure Relocation.Takes (r : Relocation) (doc doc' : Document) : Prop where
  uri : doc'.uri = doc.uri
  escape : doc'.escape = doc.escape
  lines : ∀ n, doc'.lines[r.number n]? = (doc.lines[n]?).map (Line.move r)
  counting : doc'.countingLines = doc.countingLines.map (Line.move r)
  keeps : ∀ line ∈ doc.lines, r.Keeps line.span

namespace Relocation.Takes

variable {r : Relocation} {doc doc' : Document} (takes : r.Takes doc doc')
include takes

theorem groups_eq : doc'.groups = doc.groups.map (Statement.Group.move r) := by
  rw [Document.groups, takes.escape, takes.counting, Statement.groups_move, Document.groups]

theorem mem_lines {line : Line} (member : line ∈ doc.countingLines) : line.move r ∈ doc'.lines := by
  refine doc'.countingLines_sublist.subset ?_
  rw [takes.counting]
  exact List.mem_map_of_mem member

theorem keeps_group {g : Statement.Group} (member : g ∈ doc.groups) :
    ∀ line ∈ g.lines, r.Keeps line.span :=
  fun line inside => takes.keeps line (Document.mem_countingLines member inside).1

variable {g : Statement.Group} (member : g ∈ doc.groups)
include member

/-- The stretches of an argument stay together and hold the same bytes. -/
theorem stretch_spec {s : Stretch} (inside : s ∈ (Statement.ofGroup doc.escape g).stretches) :
    r.Keeps s.span ∧ Argument.bytesOf doc'.text (s.move r) = Argument.bytesOf doc.text s := by
  have counts := (Document.mem_countingLines member (List.mem_cons_self : g.first ∈ g.lines)).2
  obtain ⟨⟨line, onLine, index, rfl, filled, -⟩, -⟩ := Statement.fills_of_mem_stretches counts
    (Document.pairwise_lines_group member) inside
  have keeps := takes.keeps_group member line onLine
  have room := (line.isPrefix_usable doc.escape).length_le
  constructor
  · refine keeps.inner ?_ ?_ ?_ <;> dsimp only [Line.span, Line.stop] <;> omega
  · have counted : line ∈ doc.countingLines := by
      rw [← Statement.flatMap_lines_groups doc.escape doc.countingLines]
      exact List.mem_flatMap.mpr ⟨g, member, onLine⟩
    have moved := (Document.standsIn_text (takes.mem_lines counted)).slice_eq
      (m := index) (n := (line.usable doc.escape).length) room
    have stays := (Document.standsIn_text (doc.countingLines_sublist.subset counted)).slice_eq
      (m := index) (n := (line.usable doc.escape).length) room
    rw [Line.start_move, Line.content_move, ← Line.offset_add keeps (by omega),
      ← Line.offset_add keeps room, ← stays] at moved
    exact moved

theorem keeps_segments : ∀ s ∈ (doc.ofGroup g).argument.segments, r.Keeps s.span :=
  fun _ inside => (takes.stretch_spec member (Argument.toStretch_mem_of_mem_place inside)).1

theorem argument_eq : Argument.ofStretches doc'.text doc'.escape
      ((Statement.ofGroup doc.escape g).move r).stretches
      ((Statement.ofGroup doc.escape g).move r).stop =
    (Argument.ofStretches doc.text doc.escape (Statement.ofGroup doc.escape g).stretches
      (Statement.ofGroup doc.escape g).stop).move r := by
  have keeps := fun s inside => (takes.stretch_spec member (s := s) inside).1
  have bytes : ((Statement.ofGroup doc.escape g).stretches.map (Stretch.move r)).flatMap
      (Argument.bytesOf doc'.text) =
        (Statement.ofGroup doc.escape g).stretches.flatMap (Argument.bytesOf doc.text) := by
    rw [List.flatMap_map]
    exact List.flatMap_congr fun s inside => (takes.stretch_spec member inside).2
  simp only [Argument.ofStretches, Argument.move, Statement.move, takes.escape, bytes,
    Argument.place_move keeps]

theorem ofGroup_eq : doc'.ofGroup (g.move r) = (doc.ofGroup g).move r := by
  have counts := (Document.mem_countingLines member (List.mem_cons_self : g.first ∈ g.lines)).2
  rw [Document.ofGroup, takes.escape, Statement.ofGroup_move counts (takes.keeps_group member)]
  have argument := takes.argument_eq member
  rw [takes.escape] at argument
  simp only [Instruction.ofStatement, argument]
  rfl

omit member in
theorem instructions_eq : doc'.instructions = doc.instructions.map (Instruction.move r) := by
  rw [Document.instructions_eq, Document.instructions_eq, takes.groups_eq, List.map_map,
    List.map_map]
  exact List.map_congr_left fun g member => takes.ofGroup_eq member

end Relocation.Takes

end Dockerfile
