import Dockerfile.Proofs.Relocation.Analysis
import Dockerfile.Proofs.Statement.Grouping

/-!
# Added comments and blank lines

A comment or a blank line that is added after the directives changes nothing but places, wherever
it stands: between two instructions, or in the middle of one that goes on.  The lines below it move
down by one, what stands on them moves along, and the added line itself shows nothing.
-/

namespace Dockerfile

/-- A line that is no directive does not change the block of directives if it comes after it. -/
theorem Directive.block_insert {before after after' : List Line} {added : Line}
    (behind : (block (before ++ after)).length ≤ before.length)
    (plain : before.length = (block (before ++ after)).length → ofLine? added = none) :
    block (before ++ added :: after') = block (before ++ after) := by
  induction before with
  | nil =>
      have empty : block after = [] := List.length_eq_zero_iff.mp (Nat.le_zero.mp behind)
      have other : ofLine? added = none := plain (by simp [empty])
      simp [block, empty, other]
  | cons line before ih =>
      rw [List.cons_append, List.cons_append, block, block]
      rw [List.cons_append, block] at behind plain
      cases read : ofLine? line with
      | none => rfl
      | some d =>
          simp only [read, List.length_cons, Nat.add_le_add_iff_right, Nat.add_right_cancel_iff]
            at behind plain
          simp [ih behind plain]

namespace Document

variable {doc : Document}

/-- A blank line or a comment shows nothing. -/
theorem symbolAt?_eq_none_of_isIgnored {p : Position} {line : Line}
    (found : doc.lines[p.line.toNat]? = some line) (ignored : line.isIgnored = true) :
    (Analysis.ofDocument doc).symbolAt? p = none := by
  cases offset : doc.offsetAt? p with
  | none => exact symbolAt?_eq_none_of_offsetAt? offset
  | some o =>
      refine (symbolAt?_of_offsetAt? offset).1 ?_
      rintro i listed ⟨s, inside, contains⟩
      rw [instructions_eq] at listed
      obtain ⟨g, member, rfl⟩ := List.mem_map.mp listed
      obtain ⟨number, other, there, counts, first, last⟩ :=
        exists_line_of_mem_segments member inside
      -- the line of the offset is the line of the position and that of the segment
      have here := lineOf_of_offsetAt? offset
      have same : doc.lineOf o = number := by
        rw [Argument.contains_iff] at contains
        exact lineOf_eq there (by omega) (by omega)
      rw [← here, same, there] at found
      rw [Option.some.inj found, ignored] at counts
      cases counts

end Document

/-- One more line for a document, to be put before one of its lines: a comment or a blank line that
comes after the directives and is none of them. -/
structure Insertion (doc : Document) where
  index : Nat
  next : Line
  content : Bytes
  found : doc.lines[index]? = some next
  behind : (Directive.block doc.lines).length ≤ index
  noFeed : Byte.lineFeed ∉ content
  noReturn : Byte.carriageReturn ∉ content
  silent : (⟨index, next.start, content⟩ : Line).IsSilent
  plain : index = (Directive.block doc.lines).length →
    Directive.ofLine? ⟨index, next.start, content⟩ = none

namespace Insertion

variable {doc : Document} (ins : Insertion doc)

def line : Line :=
  ⟨ins.index, ins.next.start, ins.content⟩

def text : Bytes :=
  doc.text.take ins.next.start ++ (ins.content ++ Byte.lineFeed :: doc.text.drop ins.next.start)

def document : Document :=
  Document.ofText doc.uri ins.text

/-- The lines from the insertion on move down by one. -/
def relocation : Relocation where
  number n := if n < ins.index then n else n + 1
  offset o := if o < ins.next.start then o else o + (ins.content.length + 1)
  increasing := by
    intro m n less
    split <;> split <;> omega

theorem number_of_lt {n : Nat} (before : n < ins.index) : ins.relocation.number n = n :=
  if_pos before

theorem number_of_le {n : Nat} (after : ins.index ≤ n) : ins.relocation.number n = n + 1 :=
  if_neg (Nat.not_lt.mpr after)

theorem offset_of_lt {o : Nat} (before : o < ins.next.start) : ins.relocation.offset o = o :=
  if_pos before

theorem offset_of_le {o : Nat} (after : ins.next.start ≤ o) :
    ins.relocation.offset o = o + (ins.content.length + 1) :=
  if_neg (Nat.not_lt.mpr after)

theorem place_move {number start : Nat} (pieces : List Bytes) (low : ins.index ≤ number)
    (after : ins.next.start ≤ start) :
    Line.place (number + 1) (start + (ins.content.length + 1)) pieces =
      (Line.place number start pieces).map (Line.move ins.relocation) := by
  induction pieces generalizing number start with
  | nil => rfl
  | cons raw rest ih =>
      have later := ih (Nat.le_succ_of_le low)
        (Nat.le_trans after (Nat.le_add_right start (raw.length + 1)))
      have place : start + (raw.length + 1) + (ins.content.length + 1) =
          start + (ins.content.length + 1) + raw.length + 1 := by omega
      rw [place] at later
      rw [Line.place, later]
      simp [Line.place, Line.move, ins.number_of_le low, ins.offset_of_le after, Nat.add_assoc]

theorem lines_eq : ins.document.lines = doc.lines.take ins.index ++
    ins.line :: (doc.lines.drop ins.index).map (Line.move ins.relocation) := by
  obtain ⟨pieces, number, size, cut⟩ := Document.exists_cut_before ins.found
  have length : (Line.place 0 0 pieces).length = ins.index := by
    rw [Line.length_place, number]
  have old : doc.lines = Line.place 0 0 pieces ++
      Line.place ins.index ins.next.start (Line.cut (doc.text.drop ins.next.start)) := by
    rw [doc.lines_eq, Line.split, ← List.take_append_drop ins.next.start doc.text, cut,
      Line.place_append, number, size]
    simp
  have content : Line.chomp ins.content = ins.content := by
    refine if_neg fun last => ins.noReturn (List.mem_of_getLast? last)
  have new : ins.document.lines = Line.place 0 0 pieces ++ ins.line ::
      (Line.place ins.index ins.next.start (Line.cut (doc.text.drop ins.next.start))).map
        (Line.move ins.relocation) := by
    rw [ins.document.lines_eq]
    change Line.place 0 0 (Line.cut (doc.text.take ins.next.start ++ _)) = _
    rw [cut, Line.cut_append, Line.cut_of_not_mem ins.noFeed, Line.place_append, number, size,
      List.singleton_append, Line.place, content,
      ← ins.place_move _ (Nat.le_refl _) (Nat.le_refl _)]
    simp [line, Nat.add_assoc]
  rw [new, old, List.take_left' length, List.drop_left' length]

theorem take_move : (doc.lines.take ins.index).map (Line.move ins.relocation) =
    doc.lines.take ins.index := by
  refine (List.map_congr_left ?_).trans (List.map_id _)
  intro line member
  obtain ⟨n, small, rfl⟩ := List.mem_take_iff_getElem.mp member
  have there := List.getElem?_eq_getElem (show n < doc.lines.length by omega)
  have number := Document.number_of_getElem? there
  have before := Document.stop_lt_start there ins.found (by omega)
  rw [Line.stop] at before
  rw [Line.move, ins.number_of_lt (by omega), ins.offset_of_lt (by omega)]
  rfl

theorem map_lines : doc.lines.map (Line.move ins.relocation) =
    doc.lines.take ins.index ++ (doc.lines.drop ins.index).map (Line.move ins.relocation) := by
  rw [← ins.take_move, ← List.map_append, List.take_append_drop]

theorem length_take : (doc.lines.take ins.index).length = ins.index := by
  obtain ⟨bound, -⟩ := List.getElem?_eq_some_iff.mp ins.found
  exact List.length_take_of_le (Nat.le_of_lt bound)

theorem directives_eq : Directive.block ins.document.lines = Directive.block doc.lines := by
  have whole := List.take_append_drop ins.index doc.lines
  have behind : (Directive.block (doc.lines.take ins.index ++ doc.lines.drop ins.index)).length ≤
      (doc.lines.take ins.index).length := by
    rw [whole, ins.length_take]
    exact ins.behind
  have plain : (doc.lines.take ins.index).length =
      (Directive.block (doc.lines.take ins.index ++ doc.lines.drop ins.index)).length →
        Directive.ofLine? ins.line = none := by
    rw [whole, ins.length_take]
    exact ins.plain
  rw [ins.lines_eq, Directive.block_insert behind plain, whole]

theorem isIgnored_line : ins.line.isIgnored = true :=
  Line.isSilent_iff.mp ins.silent

theorem countingLines_eq :
    ins.document.countingLines = doc.countingLines.map (Line.move ins.relocation) := by
  have behind : (Directive.block doc.lines).length ≤ (doc.lines.take ins.index).length := by
    rw [ins.length_take]
    exact ins.behind
  have old : doc.countingLines.map (Line.move ins.relocation) = Statement.counting
      ((doc.lines.map (Line.move ins.relocation)).drop (Directive.block doc.lines).length) := by
    rw [← List.map_drop, Statement.counting_move]
    rfl
  rw [old, Document.countingLines, ins.directives_eq, ins.map_lines, ins.lines_eq,
    List.drop_append_of_le_length behind, List.drop_append_of_le_length behind]
  simp [Statement.counting, ins.isIgnored_line]

theorem keeps {line : Line} (member : line ∈ doc.lines) : ins.relocation.Keeps line.span := by
  obtain ⟨index, found⟩ := List.mem_iff_getElem?.mp member
  refine Line.keeps_of_offset_add ?_
  intro n inside
  rcases Nat.lt_or_ge index ins.index with before | after
  · have stop := Document.stop_lt_start found ins.found before
    rw [Line.stop] at stop
    rw [ins.offset_of_lt (by omega), ins.offset_of_lt (by omega)]
  · have start := Document.start_le_start ins.found found after
    rw [ins.offset_of_le (by omega), ins.offset_of_le start]
    omega

theorem takes : ins.relocation.Takes doc ins.document where
  uri := rfl
  escape := congrArg Directive.escape ins.directives_eq
  lines := by
    intro n
    rw [← List.getElem?_map, ins.map_lines, ins.lines_eq]
    rcases Nat.lt_or_ge n ins.index with before | after
    · have inside : n < (doc.lines.take ins.index).length := by rwa [ins.length_take]
      rw [ins.number_of_lt before, List.getElem?_append_left inside,
        List.getElem?_append_left inside]
    · have past : (doc.lines.take ins.index).length ≤ n := by rwa [ins.length_take]
      rw [ins.number_of_le after, List.getElem?_append_right (Nat.le_succ_of_le past),
        List.getElem?_append_right past, Nat.succ_sub past, List.getElem?_cons_succ]
  counting := ins.countingLines_eq
  keeps := fun _ => ins.keeps

end Insertion

/-- The position with its line one further down from a given number on. -/
def Position.below (index : Nat) (p : Position) : Position :=
  if p.line.toNat < index then p else ⟨p.line + 1, p.character⟩

theorem Position.character_below (index : Nat) (p : Position) :
    (p.below index).character = p.character := by
  unfold below
  split <;> rfl

namespace Insertion

variable {doc : Document} (ins : Insertion doc)

theorem below_ofNat {n : Nat} (small : n < 0x100000000) (c : UInt32) :
    Position.below ins.index ⟨UInt32.ofNat n, c⟩ =
      ⟨UInt32.ofNat (ins.relocation.number n), c⟩ := by
  have number : (UInt32.ofNat n).toNat = n := UInt32.toNat_ofNat_of_lt small
  unfold Position.below
  rw [number]
  split
  · rw [ins.number_of_lt ‹_›]
  · rw [ins.number_of_le (Nat.le_of_not_lt ‹_›), UInt32.ofNat_add]
    rfl

theorem line_below {p : Position} (room : p.line.toNat + 1 < 0x100000000) :
    (p.below ins.index).line.toNat = ins.relocation.number p.line.toNat := by
  unfold Position.below
  split
  · rw [ins.number_of_lt ‹_›]
  · rw [ins.number_of_le (Nat.le_of_not_lt ‹_›)]
    simp
    omega

theorem number_lt {n : Nat} (short : ins.text.length < 0x100000000)
    (inside : n < doc.lines.length) : n + 1 < 0x100000000 := by
  have few := doc.length_lines_le
  have longer : doc.text.length < ins.text.length := by
    rw [text, ← List.take_append_drop ins.next.start doc.text]
    simp
    omega
  omega

/-- A comment or a blank line that is added after the directives is invisible.  It changes neither
the directives nor what the instructions say.  A position shows the same symbol after the move down,
and the definition of the symbol moves down likewise; the last line number, from which no position
moves down, shows nothing.  The added line shows nothing either. -/
theorem invisible (short : ins.text.length < 0x100000000) :
    let a := Analysis.ofDocument doc
    let a' := Analysis.ofDocument ins.document
    (a'.escape = a.escape ∧ a'.directives = a.directives) ∧
    a'.instructions.map (fun i => (i.name, i.isKnown, i.form, i.argument.text)) =
      a.instructions.map (fun i => (i.name, i.isKnown, i.form, i.argument.text)) ∧
    (∀ p : Position, p.line.toNat + 1 < 0x100000000 →
      (a'.symbolAt? (p.below ins.index)).map (fun symbol => (symbol.kind, symbol.name)) =
        (a.symbolAt? p).map (fun symbol => (symbol.kind, symbol.name)) ∧
      a'.definition? (p.below ins.index) =
        (a.definition? p).map (Location.along (Position.below ins.index))) ∧
    (∀ p : Position, p.line.toNat + 1 = 0x100000000 → a.symbolAt? p = none) ∧
    ∀ p : Position, p.line.toNat = ins.index → a'.symbolAt? p = none := by
  intro a a'
  have takes := ins.takes
  refine ⟨⟨takes.escape, ins.directives_eq⟩, ?_, ?_, ?_, ?_⟩
  · change ins.document.instructions.map _ = doc.instructions.map _
    rw [takes.instructions_eq, List.map_map]
    rfl
  · intro p room
    have line := ins.line_below room
    have character := Position.character_below ins.index p
    constructor
    · rw [takes.symbolAt?_eq line character, Option.map_map]
      rfl
    · refine takes.definition?_eq ?_ line character
      intro n inside c
      exact ins.below_ofNat (Nat.lt_of_succ_lt (ins.number_lt short inside)) c
  · intro p last
    refine Document.symbolAt?_eq_none_of_offsetAt? ?_
    have past : doc.lines.length ≤ p.line.toNat := by
      refine Nat.le_of_not_lt fun inside => ?_
      have small := ins.number_lt short inside
      omega
    simp [Document.offsetAt?, List.getElem?_eq_none past]
  · intro p here
    have there : ins.document.lines[p.line.toNat]? = some ins.line := by
      rw [here, ins.lines_eq]
      simp [ins.length_take]
    exact Document.symbolAt?_eq_none_of_isIgnored there ins.isIgnored_line

/-- A comment that is added in the middle of an instruction shows nothing, though it holds a
reference, and the reference below it leads where it led. -/
theorem invisible_within_instruction :
    ∃ ins : Insertion (Document.ofText [] (utf8 "ARG s\nRUN a \\\n$s")),
      ins.text = utf8 "ARG s\nRUN a \\\n# $s\n$s" ∧
      (Analysis.ofDocument ins.document).definition? ⟨3, 1⟩ = some ⟨[], ⟨0, 4⟩, ⟨0, 5⟩⟩ ∧
      (Analysis.ofDocument ins.document).symbolAt? ⟨2, 3⟩ = none := by
  let ins : Insertion (Document.ofText [] (utf8 "ARG s\nRUN a \\\n$s")) :=
    { index := 2
      next := ⟨2, 14, utf8 "$s"⟩
      content := utf8 "# $s"
      found := by decide +kernel
      behind := by decide +kernel
      noFeed := by decide
      noReturn := by decide
      silent := by decide
      plain := by decide +kernel }
  have short : ins.text.length < 0x100000000 := by decide +kernel
  have old : (Analysis.ofDocument (Document.ofText []
      (utf8 "ARG s\nRUN a \\\n$s"))).definition? ⟨2, 1⟩ = some ⟨[], ⟨0, 4⟩, ⟨0, 5⟩⟩ := by
    decide +kernel
  obtain ⟨-, -, moves, -, silent⟩ := ins.invisible short
  have moved := (moves ⟨2, 1⟩ (by decide)).2
  rw [old] at moved
  exact ⟨ins, by decide +kernel, moved, silent ⟨2, 3⟩ rfl⟩

end Insertion

end Dockerfile
