import Dockerfile.Proofs.Statement.Layout
import Mathlib.Data.List.Forall2

/-!
# Instructions by their lines

A description of a document's instructions that mentions no scanner.  Lines that are blank or
comments are dropped; what remains is divided into groups by which lines go on; and each group
gives one instruction, whose parts are cut from the usable parts of the group's lines.  There is
exactly one list of instructions that fits the description: the one that is read.
-/

namespace Dockerfile

namespace Line

/-- The line is empty, holds only blanks, or has a hash sign as its first other byte. -/
def IsSilent (line : Line) : Prop :=
  ∃ blanks rest, line.content = blanks ++ rest ∧ Bytes.AllBlank blanks ∧
    (rest = [] ∨ rest.head? = some Byte.hash)

/-- Without the blanks at its end, the line ends in an odd run of the escape byte. -/
def GoesOn (escape : UInt8) (line : Line) : Prop :=
  ∃ body n blanks, line.content = body ++ List.replicate (2 * n + 1) escape ++ blanks ∧
    body.getLast? ≠ some escape ∧ Bytes.AllBlank blanks

/-- The usable part of a line: what precedes its last escape byte if it goes on, and what precedes
the blanks at its end otherwise. -/
def Offers (escape : UInt8) (line : Line) (part : Bytes) : Prop :=
  (line.GoesOn escape ∧ ∃ blanks, line.content = part ++ escape :: blanks ∧
    escape ∉ blanks) ∨
  (¬ line.GoesOn escape ∧ ∃ blanks, line.content = part ++ blanks ∧ Bytes.AllBlank blanks ∧
    ∀ b, part.getLast? = some b → Byte.isBlank b = false)

theorem isSilent_iff {line : Line} : line.IsSilent ↔ line.isIgnored = true := by
  constructor
  · rintro ⟨blanks, rest, split, blank, ends⟩
    have left : line.content.trimLeft = Bytes.trimLeft rest := by
      rw [split, Bytes.trimLeft, List.dropWhile_append_of_pos blank, Bytes.trimLeft]
    rw [isIgnored, left]
    rcases ends with rfl | head
    · rfl
    · cases rest with
      | nil => rfl
      | cons b more =>
          rw [Option.some.inj head]
          rfl
  · intro ignored
    refine ⟨_, _, (Bytes.takeWhile_append_trimLeft line.content).symm,
      Bytes.allBlank_takeWhile _, ?_⟩
    unfold isIgnored at ignored
    split at ignored
    · exact Or.inl ‹_›
    · rename_i b rest left
      rw [left, beq_iff_eq.mp ignored]
      exact Or.inr rfl

instance (line : Line) : Decidable line.IsSilent :=
  decidable_of_iff (line.isIgnored = true) isSilent_iff.symm

theorem escapeRun_eq {escape : UInt8} {body : Bytes} (n : Nat)
    (ends : body.getLast? ≠ some escape) :
    escapeRun escape (body ++ List.replicate n escape) = n := by
  have run : ∀ b ∈ List.replicate n escape, (b == escape) = true :=
    fun b member => beq_iff_eq.mpr (List.eq_of_mem_replicate member)
  have stops : body.reverse.takeWhile (· == escape) = [] := by
    cases back : body.reverse with
    | nil => rfl
    | cons b rest =>
        refine List.takeWhile_cons_of_neg ?_
        intro same
        rw [← List.head?_reverse, back, List.head?_cons, beq_iff_eq.mp same] at ends
        exact ends rfl
  rw [escapeRun, List.reverse_append, List.reverse_replicate, List.takeWhile_append_of_pos run,
    stops, List.append_nil, List.length_replicate]

/-- A text is cut at the last escape byte in one way only. -/
theorem eq_of_cut_at_last {escape : UInt8} {left left' right right' : Bytes}
    (same : left ++ escape :: right = left' ++ escape :: right') (absent : escape ∉ right)
    (absent' : escape ∉ right') : left = left' := by
  rcases List.append_eq_append_iff.mp same with ⟨gap, longer, rest⟩ | ⟨gap, longer, rest⟩
  · cases gap with
    | nil => exact (longer.trans (List.append_nil left)).symm
    | cons b more =>
        have inside : escape ∈ right := by
          rw [List.tail_eq_of_cons_eq rest]
          exact List.mem_append_right _ List.mem_cons_self
        exact absurd inside absent
  · cases gap with
    | nil => exact longer.trans (List.append_nil left')
    | cons b more =>
        have inside : escape ∈ right' := by
          rw [List.tail_eq_of_cons_eq rest]
          exact List.mem_append_right _ List.mem_cons_self
        exact absurd inside absent'

section

variable {escape : UInt8} (solid : Byte.isBlank escape = false)
include solid

theorem getLast?_replicate_solid (body : Bytes) (n : Nat) :
    ∀ b, (body ++ List.replicate (2 * n + 1) escape).getLast? = some b →
      Byte.isBlank b = false := by
  intro b last
  rw [List.replicate_succ', ← List.append_assoc, List.getLast?_concat] at last
  rw [← Option.some.inj last]
  exact solid

theorem goesOn_iff {line : Line} : line.GoesOn escape ↔ line.isContinued escape = true := by
  constructor
  · rintro ⟨body, n, blanks, split, ends, blank⟩
    rw [isContinued, Bytes.trimRight_eq split blank (getLast?_replicate_solid solid body n),
      escapeRun_eq _ ends, beq_iff_eq]
    omega
  · intro continued
    obtain ⟨body, run, ends⟩ := escapeRun_append escape line.content.trimRight
    obtain ⟨blanks, split, blank⟩ := Bytes.exists_trimRight_append line.content
    have odd : escapeRun escape line.content.trimRight % 2 = 1 := beq_iff_eq.mp continued
    refine ⟨body, escapeRun escape line.content.trimRight / 2, blanks, ?_, ends, blank⟩
    have count : 2 * (escapeRun escape line.content.trimRight / 2) + 1 =
        escapeRun escape line.content.trimRight := by omega
    rw [count, ← run]
    exact split

theorem offers_iff {line : Line} {part : Bytes} :
    line.Offers escape part ↔ part = line.usable escape := by
  obtain ⟨blanks, split, blank⟩ := Bytes.exists_trimRight_append line.content
  have absent : escape ∉ blanks := by
    intro member
    rw [blank escape member] at solid
    cases solid
  rw [Offers, goesOn_iff solid]
  cases continued : line.isContinued escape with
  | true =>
      have trimmed := trimRight_of_isContinued continued
      rw [trimmed, List.append_assoc] at split
      constructor
      · rintro (⟨-, others, cut, absent'⟩ | ⟨final, -⟩)
        · exact eq_of_cut_at_last (cut.symm.trans split) absent' absent
        · exact absurd rfl final
      · rintro rfl
        exact Or.inl ⟨rfl, blanks, split, absent⟩
  | false =>
      have trimmed := trimRight_of_not_isContinued continued
      rw [trimmed] at split
      constructor
      · rintro (⟨impossible, -⟩ | ⟨-, others, cut, blank', solid'⟩)
        · cases impossible
        · rw [← trimmed, Bytes.trimRight_eq cut blank' solid']
      · rintro rfl
        refine Or.inr ⟨nofun, blanks, split, blank, ?_⟩
        intro b last
        rw [← trimmed] at last
        exact Bytes.not_isBlank_getLast_trimRight last

end

end Line

namespace Statement

/-- The lines are divided into groups: every line of a group but the last goes on, and the last
line of a group does not, unless it is the last line of all. -/
structure IsGrouping (escape : UInt8) (kept : List Line) (groups : List (List Line)) : Prop where
  joined : groups.flatten = kept
  filled : ∀ g ∈ groups, g ≠ []
  inner : ∀ g ∈ groups, ∀ line ∈ g.dropLast, line.GoesOn escape
  ends : ∀ g ∈ groups.dropLast, ∀ line, g.getLast? = some line → ¬ line.GoesOn escape

namespace IsGrouping

variable {escape : UInt8} {line : Line} {rest g : List Line} {groups others : List (List Line)}

theorem nil : IsGrouping escape [] [] :=
  ⟨rfl, fun _ member => absurd member List.not_mem_nil,
    fun _ member => absurd member List.not_mem_nil, fun _ member => absurd member List.not_mem_nil⟩

theorem eq_nil (grouping : IsGrouping escape [] groups) : groups = [] := by
  cases groups with
  | nil => rfl
  | cons g others =>
      have empty := List.append_eq_nil_iff.mp grouping.joined
      exact absurd empty.1 (grouping.filled g List.mem_cons_self)

/-- A line that goes on joins the first group. -/
theorem join (goesOn : line.GoesOn escape) (grouping : IsGrouping escape rest (g :: others)) :
    IsGrouping escape (line :: rest) ((line :: g) :: others) := by
  have filled := grouping.filled g List.mem_cons_self
  refine ⟨?_, ?_, ?_, ?_⟩
  · exact congrArg (line :: ·) grouping.joined
  · intro h member
    rcases List.mem_cons.mp member with rfl | later
    · exact List.cons_ne_nil _ _
    · exact grouping.filled h (List.mem_cons_of_mem _ later)
  · intro h member
    rcases List.mem_cons.mp member with rfl | later
    · intro other inside
      rw [List.dropLast_cons_of_ne_nil filled] at inside
      rcases List.mem_cons.mp inside with rfl | inner
      · exact goesOn
      · exact grouping.inner g List.mem_cons_self other inner
    · exact grouping.inner h (List.mem_cons_of_mem _ later)
  · intro h member final last
    cases others with
    | nil => cases member
    | cons next more =>
        rw [List.dropLast_cons_of_ne_nil (List.cons_ne_nil _ _)] at member
        have before := grouping.ends
        rw [List.dropLast_cons_of_ne_nil (List.cons_ne_nil _ _)] at before
        rcases List.mem_cons.mp member with rfl | later
        · rw [List.getLast?_cons, List.getLast?_eq_some_getLast filled] at last
          refine before g List.mem_cons_self final ?_
          rw [List.getLast?_eq_some_getLast filled]
          exact last
        · exact before h (List.mem_cons_of_mem _ later) final last

/-- A line that does not go on, or has nothing to go on with, is a group by itself. -/
theorem single (ends : others = [] ∨ ¬ line.GoesOn escape)
    (grouping : IsGrouping escape rest others) :
    IsGrouping escape (line :: rest) ([line] :: others) := by
  refine ⟨?_, ?_, ?_, ?_⟩
  · exact congrArg (line :: ·) grouping.joined
  · intro h member
    rcases List.mem_cons.mp member with rfl | later
    · exact List.cons_ne_nil _ _
    · exact grouping.filled h later
  · intro h member
    rcases List.mem_cons.mp member with rfl | later
    · intro other inside
      exact absurd inside List.not_mem_nil
    · exact grouping.inner h later
  · intro h member final last
    cases others with
    | nil => cases member
    | cons next more =>
        rw [List.dropLast_cons_of_ne_nil (List.cons_ne_nil _ _)] at member
        rcases List.mem_cons.mp member with rfl | later
        · rw [← Option.some.inj last]
          exact ends.resolve_left (List.cons_ne_nil _ _)
        · exact grouping.ends h later final last

/-- How the first line stands in a grouping. -/
theorem cons_cases (grouping : IsGrouping escape (line :: rest) groups) :
    (∃ g others, groups = (line :: g) :: others ∧ line.GoesOn escape ∧
      IsGrouping escape rest (g :: others)) ∨
    ∃ others, groups = [line] :: others ∧ (others = [] ∨ ¬ line.GoesOn escape) ∧
      IsGrouping escape rest others := by
  cases groups with
  | nil => cases grouping.joined
  | cons first others =>
      cases first with
      | nil => exact absurd rfl (grouping.filled [] List.mem_cons_self)
      | cons head g =>
          obtain ⟨same, joined⟩ := List.cons.inj grouping.joined
          subst same
          have later : ∀ h ∈ others, h ∈ (head :: g) :: others :=
            fun h member => List.mem_cons_of_mem _ member
          cases g with
          | nil =>
              refine Or.inr ⟨others, rfl, ?_, joined,
                fun h member => grouping.filled h (later h member),
                fun h member => grouping.inner h (later h member), ?_⟩
              · cases others with
                | nil => exact Or.inl rfl
                | cons next more =>
                    refine Or.inr (grouping.ends [head] ?_ head rfl)
                    rw [List.dropLast_cons_of_ne_nil (List.cons_ne_nil _ _)]
                    exact List.mem_cons_self
              · intro h member
                have filled := List.ne_nil_of_mem ((List.dropLast_sublist others).subset member)
                apply grouping.ends h
                rw [List.dropLast_cons_of_ne_nil filled]
                exact List.mem_cons_of_mem _ member
          | cons second more =>
              have inner := grouping.inner (head :: second :: more) List.mem_cons_self
              rw [List.dropLast_cons_of_ne_nil (List.cons_ne_nil _ _)] at inner
              refine Or.inl ⟨second :: more, others, rfl, inner head List.mem_cons_self, joined,
                ?_, ?_, ?_⟩
              · intro h member
                rcases List.mem_cons.mp member with rfl | inside
                · exact List.cons_ne_nil _ _
                · exact grouping.filled h (later h inside)
              · intro h member
                rcases List.mem_cons.mp member with rfl | inside
                · exact fun other within => inner other (List.mem_cons_of_mem _ within)
                · exact grouping.inner h (later h inside)
              · intro h member final last
                cases others with
                | nil => cases member
                | cons next others =>
                    have ends := grouping.ends
                    rw [List.dropLast_cons_of_ne_nil (List.cons_ne_nil _ _)] at member ends
                    rcases List.mem_cons.mp member with rfl | inside
                    · refine ends _ List.mem_cons_self final ?_
                      rw [List.getLast?_cons_cons]
                      exact last
                    · exact ends h (List.mem_cons_of_mem _ inside) final last

end IsGrouping

/-- There is one way to divide lines into groups, and it is the one that is used. -/
theorem isGrouping_iff {escape : UInt8} (solid : Byte.isBlank escape = false) {kept : List Line}
    {divided : List (List Line)} :
    IsGrouping escape kept divided ↔ divided = (groups escape kept).map Group.lines := by
  induction kept generalizing divided with
  | nil =>
      constructor
      · intro grouping
        exact grouping.eq_nil
      · rintro rfl
        exact IsGrouping.nil
  | cons line rest ih =>
      change _ ↔ divided = (Group.add escape line (groups escape rest)).map Group.lines
      cases continued : line.isContinued escape with
      | true =>
          have goesOn := (Line.goesOn_iff solid).mpr continued
          cases earlier : groups escape rest with
          | nil =>
              rw [earlier] at ih
              constructor
              · intro grouping
                rcases grouping.cons_cases with ⟨g, others, rfl, -, below⟩ | ⟨others, rfl, -, below⟩
                · cases ih.mp below
                · rw [ih.mp below]
                  rfl
              · rintro rfl
                exact IsGrouping.single (Or.inl rfl) (ih.mpr rfl)
          | cons next more =>
              rw [earlier] at ih
              rw [Group.add, if_pos continued]
              constructor
              · intro grouping
                rcases grouping.cons_cases with
                  ⟨g, others, rfl, -, below⟩ | ⟨others, rfl, ends, below⟩
                · obtain ⟨rfl, rfl⟩ := List.cons.inj (ih.mp below)
                  rfl
                · rw [ih.mp below] at ends
                  exact absurd goesOn (ends.resolve_left (List.cons_ne_nil _ _))
              · rintro rfl
                exact IsGrouping.join goesOn (ih.mpr rfl)
      | false =>
          have final : ¬ line.GoesOn escape := by
            rw [Line.goesOn_iff solid, continued]
            decide
          rw [add_of_not_isContinued continued]
          constructor
          · intro grouping
            rcases grouping.cons_cases with ⟨g, others, -, goesOn, -⟩ | ⟨others, rfl, -, below⟩
            · exact absurd goesOn final
            · rw [ih.mp below]
              rfl
          · rintro rfl
            exact IsGrouping.single (Or.inr final) (ih.mpr rfl)

end Statement

namespace Instruction

/-- The usable part of an instruction's first line: blanks up to the line's first other byte, the
keyword up to the next blank, blanks, and what the argument starts with. -/
structure Opening (escape : UInt8) (line : Line) (blanks word gap tail : Bytes) : Prop where
  offered : line.Offers escape (blanks ++ (word ++ (gap ++ tail)))
  indented : Bytes.AllBlank blanks
  starts : ∃ b rest, line.content = blanks ++ b :: rest ∧ Byte.isBlank b = false
  unbroken : ∀ b ∈ word, Byte.isBlank b = false
  stops : ∀ b, (gap ++ tail).head? = some b → Byte.isBlank b = true
  parted : Bytes.AllBlank gap
  resumes : ∀ b, tail.head? = some b → Byte.isBlank b = false

/-- The instruction is what a group of lines says: the whole goes from the first byte of the first
line that is no blank to the end of the last line, the keyword is the run of bytes before the next
blank, and the argument is put together from the non-empty usable parts, the first of them without
the keyword and the blanks after it. -/
def IsReadOff (text : Bytes) (escape : UInt8) (lines : List Line) (i : Instruction) : Prop :=
  ∃ first rest last blanks word gap tail parts,
    lines = first :: rest ∧ lines.getLast? = some last ∧
    Opening escape first blanks word gap tail ∧
    List.Forall₂ (fun line part => Line.Offers escape line part) rest parts ∧
    let start := first.start + blanks.length
    let stop := start + word.length
    let stretches := Statement.stretch first.number (stop + gap.length)
        (stop + gap.length + tail.length) ++
      (List.zipWith (fun line part => Statement.stretch line.number line.start
        (line.start + List.length part)) rest parts).flatten
    i.raw = ⟨start, last.stop⟩ ∧
    i.keywordSpan = ⟨start, stop⟩ ∧
    i.name = word.toUpper ∧
    i.keyword = Keyword.ofWord? word ∧
    i.argument = Argument.ofStretches text escape stretches (Statement.stopOf stop stretches) ∧
    i.argument.text = tail ++ parts.flatten ∧
    i.form = Form.classify word.toUpper i.argument.text

section

variable {escape : UInt8} (solid : Byte.isBlank escape = false) {line : Line}
include solid

/-- A line's opening can be cut in one way only. -/
theorem Opening.eq {blanks word gap tail : Bytes}
    (opening : Opening escape line blanks word gap tail) :
    blanks.length = line.content.indent ∧ word = line.word escape ∧
      blanks.length + word.length + gap.length = line.argumentStart escape ∧
      tail = (line.usable escape).drop (line.argumentStart escape) := by
  have usable := (Line.offers_iff solid).mp opening.offered
  obtain ⟨b, rest, content, starts⟩ := opening.starts
  have indent : blanks.length = line.content.indent := by
    rw [Bytes.indent, content, Bytes.takeWhile_append_eq opening.indented]
    intro c head
    rw [← Option.some.inj head]
    exact starts
  have word' : word = line.word escape := by
    rw [Line.word, ← usable, ← indent, List.drop_left, Bytes.takeWhile_append_eq]
    · intro c member
      rw [opening.unbroken c member]
      rfl
    · intro c head
      rw [opening.stops c head]
      rfl
  have after : (line.usable escape).drop (line.wordStop escape) = gap ++ tail := by
    rw [Line.wordStop, ← word', ← indent, ← usable, ← List.drop_drop, List.drop_left,
      List.drop_left]
  have gap' : gap.length = Bytes.indent ((line.usable escape).drop (line.wordStop escape)) := by
    rw [after, Bytes.indent, Bytes.takeWhile_append_eq opening.parted opening.resumes]
  refine ⟨indent, word', ?_, ?_⟩
  · rw [Line.argumentStart, ← gap', Line.wordStop, ← word', ← indent]
  · rw [Line.argumentStart, ← gap', ← List.drop_drop, after, List.drop_left]

theorem Opening.offsets (counts : line.isIgnored = false) {blanks word gap tail : Bytes}
    (opening : Opening escape line blanks word gap tail) :
    line.start + blanks.length = line.start + line.content.indent ∧
    line.start + blanks.length + word.length = line.start + line.wordStop escape ∧
    line.start + line.wordStop escape + gap.length = line.start + line.argumentStart escape ∧
    line.start + line.argumentStart escape + tail.length =
      line.start + (line.usable escape).length := by
  have room := Line.argumentStart_le escape counts
  obtain ⟨indent, rfl, argument, rfl⟩ := opening.eq solid
  have word : line.wordStop escape = line.content.indent + (line.word escape).length := rfl
  rw [List.length_drop]
  omega

theorem opening_word (counts : line.isIgnored = false) :
    Opening escape line (line.content.takeWhile Byte.isBlank) (line.word escape)
      (((line.usable escape).drop (line.wordStop escape)).takeWhile Byte.isBlank)
      ((line.usable escape).drop (line.argumentStart escape)) := by
  obtain ⟨b, rest, left, starts, -⟩ := Line.exists_trimLeft_of_not_isIgnored counts
  have room := Line.indent_le_length_usable escape counts
  have front : (line.usable escape).take line.content.indent =
      line.content.takeWhile Byte.isBlank := by
    obtain ⟨tail, split⟩ := line.isPrefix_usable escape
    have whole : line.content.take line.content.indent = line.content.takeWhile Byte.isBlank :=
      (List.prefix_iff_eq_take.mp (List.takeWhile_prefix Byte.isBlank)).symm
    have same : (line.usable escape ++ tail).take line.content.indent =
        (line.usable escape).take line.content.indent := List.take_append_of_le_length room
    rw [← same, split, whole]
  have middle : (line.usable escape).drop line.content.indent =
      line.word escape ++ (line.usable escape).drop (line.wordStop escape) := by
    rw [Line.wordStop, ← List.drop_drop, Line.word, Bytes.drop_length_takeWhile,
      List.takeWhile_append_dropWhile]
  have back : (line.usable escape).drop (line.argumentStart escape) =
      Bytes.trimLeft ((line.usable escape).drop (line.wordStop escape)) := by
    rw [Line.argumentStart, ← List.drop_drop, Bytes.drop_indent]
  have after : ((line.usable escape).drop (line.wordStop escape)).takeWhile Byte.isBlank ++
      (line.usable escape).drop (line.argumentStart escape) =
        (line.usable escape).drop (line.wordStop escape) := by
    rw [back, Bytes.takeWhile_append_trimLeft]
  refine ⟨(Line.offers_iff solid).mpr ?_, Bytes.allBlank_takeWhile _, ⟨b, rest, ?_, starts⟩, ?_, ?_,
    Bytes.allBlank_takeWhile _, ?_⟩
  · rw [after, ← middle, ← front, List.take_append_drop]
  · rw [← left, Bytes.takeWhile_append_trimLeft]
  · intro c member
    have kept := List.all_eq_true.mp List.all_takeWhile c member
    simpa using kept
  · intro c head
    rw [after, List.head?_drop] at head
    exact Line.isBlank_wordStop head
  · intro c head
    rw [back] at head
    cases left : Bytes.trimLeft ((line.usable escape).drop (line.wordStop escape)) with
    | nil =>
        rw [left] at head
        cases head
    | cons d more =>
        rw [left] at head
        rw [← Option.some.inj head]
        exact Bytes.not_isBlank_head_trimLeft left

theorem forall₂_offers_iff {lines : List Line} {parts : List Bytes} :
    List.Forall₂ (fun line part => Line.Offers escape line part) lines parts ↔
      parts = lines.map (Line.usable escape) := by
  simp only [Line.offers_iff solid]
  induction lines generalizing parts with
  | nil =>
      rw [List.forall₂_nil_left_iff]
      rfl
  | cons line rest ih =>
      rw [List.forall₂_cons_left_iff]
      constructor
      · rintro ⟨part, others, rfl, below, rfl⟩
        rw [ih.mp below]
        rfl
      · rintro rfl
        exact ⟨_, _, rfl, ih.mpr rfl, rfl⟩

end

theorem flatMap_bytesOf_stretch {text : Bytes} {line : Line} (stands : line.StandsIn text)
    (escape : UInt8) {index : Nat} (inside : index ≤ (line.usable escape).length) :
    (Statement.stretch line.number (line.start + index)
        (line.start + (line.usable escape).length)).flatMap (Argument.bytesOf text) =
      (line.usable escape).drop index := by
  have room := (line.isPrefix_usable escape).length_le
  unfold Statement.stretch
  split
  · rw [List.flatMap_singleton, Argument.bytesOf]
    change text.slice (line.start + index) (line.start + (line.usable escape).length) = _
    obtain ⟨tail, split⟩ := line.isPrefix_usable escape
    rw [stands.slice_eq room, ← split, Bytes.slice, List.drop_append_of_le_length inside,
      ← List.length_drop, List.take_left]
  · rw [List.flatMap_nil, List.drop_eq_nil_of_le (by omega)]

theorem flatten_zipWith_usable (escape : UInt8) (lines : List Line) :
    (List.zipWith (fun line part => Statement.stretch line.number line.start
      (line.start + List.length part)) lines (lines.map (Line.usable escape))).flatten =
        lines.flatMap (Statement.whole escape) := by
  rw [List.zipWith_map_right, List.zipWith_self, List.flatMap_def]
  rfl

theorem flatMap_bytesOf_whole {text : Bytes} (escape : UInt8) {lines : List Line}
    (stand : ∀ line ∈ lines, line.StandsIn text) :
    (lines.flatMap (Statement.whole escape)).flatMap (Argument.bytesOf text) =
      (lines.map (Line.usable escape)).flatten := by
  induction lines with
  | nil => rfl
  | cons line rest ih =>
      have here := flatMap_bytesOf_stretch (stand line List.mem_cons_self) escape (Nat.zero_le _)
      rw [Nat.add_zero, List.drop_zero, ← Statement.whole] at here
      rw [List.flatMap_cons, List.flatMap_append, here,
        ih fun other later => stand other (List.mem_cons_of_mem _ later)]
      rfl

theorem getLast?_lines (g : Statement.Group) : g.lines.getLast? = some g.last := by
  rw [Statement.Group.lines, List.getLast?_cons]
  rfl

/-- What is read off a group of lines is the instruction of its statement, and nothing else. -/
theorem isReadOff_iff {text : Bytes} {escape : UInt8} (solid : Byte.isBlank escape = false)
    {g : Statement.Group} (counts : g.first.isIgnored = false)
    (stand : ∀ line ∈ g.lines, line.StandsIn text) {i : Instruction} :
    IsReadOff text escape g.lines i ↔
      i = ofStatement text escape (Statement.ofGroup escape g) := by
  rw [Statement.ofGroup_eq escape counts]
  constructor
  · rintro ⟨first, rest, last, blanks, word, gap, tail, parts, lines, final, opening, offered,
      raw, keywordSpan, name, keyword, argument, -, form⟩
    obtain ⟨rfl, rfl⟩ := List.cons.inj lines
    obtain rfl := Option.some.inj ((getLast?_lines g).symm.trans final)
    obtain rfl := (forall₂_offers_iff solid).mp offered
    obtain ⟨indent, wordStop, argumentStart, usable⟩ := opening.offsets solid counts
    obtain ⟨-, rfl, -, rfl⟩ := opening.eq solid
    rw [wordStop, argumentStart, usable, flatten_zipWith_usable] at argument
    rw [argument] at form
    rw [wordStop, indent] at keywordSpan
    rw [indent] at raw
    calc i = ⟨i.name, i.keyword, i.keywordSpan, i.argument, i.form, i.raw⟩ := rfl
      _ = _ := by
        rw [raw, keywordSpan, name, keyword, form, argument, ofStatement]
  · rintro rfl
    have opening := opening_word solid counts
    obtain ⟨indent, wordStop, argumentStart, usable⟩ := opening.offsets solid counts
    refine ⟨g.first, g.rest, g.last, _, _, _, _, g.rest.map (Line.usable escape), rfl,
      getLast?_lines g, opening, (forall₂_offers_iff solid).mpr rfl, ?_⟩
    rw [ofStatement]
    dsimp only
    rw [wordStop, argumentStart, usable, indent, flatten_zipWith_usable]
    refine ⟨rfl, rfl, rfl, rfl, rfl, ?_, rfl⟩
    rw [Argument.ofStretches]
    dsimp only
    rw [List.flatMap_append,
      flatMap_bytesOf_stretch (stand _ List.mem_cons_self) escape
        (Line.argumentStart_le escape counts),
      flatMap_bytesOf_whole escape fun line later => stand line (List.mem_cons_of_mem _ later)]

end Instruction

namespace Document

/-- The lines after the directives that are not silent. -/
def speakingLines (doc : Document) : List Line :=
  (doc.lines.drop (Directive.block doc.lines).length).filter fun line => ¬ line.IsSilent

theorem speakingLines_eq (doc : Document) : doc.speakingLines = doc.countingLines := by
  refine List.filter_congr ?_
  intro line _
  rw [decide_not, Bool.not_inj_iff, Bool.eq_iff_iff, decide_eq_true_iff, Line.isSilent_iff]

theorem isReadOff_iff {doc : Document} {g : Statement.Group} (member : g ∈ doc.groups)
    {i : Instruction} :
    Instruction.IsReadOff doc.text doc.escape g.lines i ↔ i = doc.ofGroup g := by
  rw [ofGroup]
  refine Instruction.isReadOff_iff doc.escape_not_isBlank ?_ ?_
  · exact (mem_countingLines member (List.mem_cons_self : g.first ∈ g.lines)).2
  · intro line inside
    exact standsIn_text (mem_countingLines member inside).1

theorem forall₂_isReadOff_iff {doc : Document} {groups : List Statement.Group}
    (inside : ∀ g ∈ groups, g ∈ doc.groups) {read : List Instruction} :
    List.Forall₂ (Instruction.IsReadOff doc.text doc.escape) (groups.map Statement.Group.lines)
      read ↔ groups.map doc.ofGroup = read := by
  rw [List.forall₂_map_left_iff]
  induction groups generalizing read with
  | nil =>
      rw [List.forall₂_nil_left_iff]
      exact eq_comm
  | cons g others ih =>
      have here {i : Instruction} := isReadOff_iff (inside g List.mem_cons_self) (i := i)
      have below := fun h later => inside h (List.mem_cons_of_mem g later)
      rw [List.forall₂_cons_left_iff]
      constructor
      · rintro ⟨i, more, isRead, later, rfl⟩
        rw [here.mp isRead, ← (ih below).mp later]
        rfl
      · rintro rfl
        exact ⟨_, _, here.mpr rfl, (ih below).mpr rfl, rfl⟩

/-- The instructions of a document are the only list that fits the description by lines. -/
theorem instructions_eq_iff (uri text : Bytes) (instructions : List Instruction) :
    let doc := ofText uri text
    let escape := Directive.escape (Directive.block doc.lines)
    doc.instructions = instructions ↔
      ∃ groups, Statement.IsGrouping escape doc.speakingLines groups ∧
        List.Forall₂ (Instruction.IsReadOff text escape) groups instructions := by
  intro doc escape
  have grouped {divided : List (List Line)} :
      Statement.IsGrouping escape doc.speakingLines divided ↔
        divided = doc.groups.map Statement.Group.lines := by
    rw [speakingLines_eq]
    exact Statement.isGrouping_iff doc.escape_not_isBlank
  rw [instructions_eq, ← forall₂_isReadOff_iff fun g member => member]
  constructor
  · intro read
    exact ⟨_, grouped.mpr rfl, read⟩
  · rintro ⟨divided, grouping, read⟩
    rw [grouped.mp grouping] at read
    exact read

end Document

end Dockerfile
