import Dockerfile.Proofs.Relocation.Statement
import Dockerfile.Proofs.Statement.Grouping

/-!
# Lines in two parts

A line that is broken by an escape byte at the end of its first part says the same.  The first part
is continued whatever it ends in, the second part goes on exactly if the line did, and what both
parts contribute is what the line contributed.  So the groups of the lines say the same, wherever
the broken line stands in its group.
-/

namespace Dockerfile

namespace Line

section Parts

variable {escape : UInt8} {line part : Line} {k : Nat}

/-- A line that ends in one escape byte is continued, and what precedes the byte is usable. -/
theorem usable_of_concat (solid : Byte.isBlank escape = false) {body : Bytes}
    (content : part.content = body ++ [escape]) (ends : body.getLast? ≠ some escape) :
    part.isContinued escape = true ∧ part.usable escape = body := by
  have trimmed : part.content.trimRight = body ++ [escape] := by
    rw [content, Bytes.trimRight_concat solid]
  have run : escapeRun escape part.content.trimRight = 1 := by
    rw [trimmed]
    exact escapeRun_eq 1 ends
  have continued : part.isContinued escape = true := by rw [isContinued, run]; rfl
  refine ⟨continued, ?_⟩
  rw [usable, if_pos continued, trimmed, List.dropLast_concat]

theorem escapeRun_drop {text : Bytes} (ends : (text.take k).getLast? ≠ some escape) :
    escapeRun escape (text.drop k) = escapeRun escape text := by
  obtain ⟨body, split, last⟩ := escapeRun_append escape text
  generalize escapeRun escape text = n at split
  subst split
  rcases Nat.lt_or_ge body.length k with late | early
  · -- The byte before the cut would be one of the run.
    have none : n = 0 := by
      refine Nat.eq_zero_of_not_pos fun positive => ends ?_
      rw [List.take_append, List.take_of_length_le (Nat.le_of_lt late), List.take_replicate,
        List.getLast?_append, List.getLast?_replicate, if_neg (by omega)]
      rfl
    rw [none, List.replicate_zero, List.append_nil, List.drop_of_length_le (Nat.le_of_lt late)]
    rfl
  · rw [List.drop_append_of_le_length early]
    refine escapeRun_eq n ?_
    rw [List.getLast?_drop]
    split
    · exact nofun
    · exact last

variable (inside : k < (line.usable escape).length)
include inside

theorem lt_length_trimRight : k < line.content.trimRight.length := by
  cases continued : line.isContinued escape with
  | true =>
      rw [trimRight_of_isContinued continued, List.length_append]
      exact Nat.lt_add_right _ inside
  | false => rwa [trimRight_of_not_isContinued continued]

/-- The end of a line goes on if the line does, and what it contributes is the end of what the line
contributes. -/
theorem usable_of_drop (content : part.content = line.content.drop k)
    (ends : (line.content.take k).getLast? ≠ some escape) :
    part.isContinued escape = line.isContinued escape ∧
      part.usable escape = (line.usable escape).drop k := by
  have reach := lt_length_trimRight inside
  have trimmed : part.content.trimRight = line.content.trimRight.drop k := by
    rw [content, Bytes.trimRight_drop reach]
  have front : line.content.trimRight.take k = line.content.take k := by
    obtain ⟨blanks, split, -⟩ := Bytes.exists_trimRight_append line.content
    conv_rhs => rw [split]
    exact (List.take_append_of_le_length (Nat.le_of_lt reach)).symm
  have continued : part.isContinued escape = line.isContinued escape := by
    rw [isContinued, trimmed, escapeRun_drop (by rwa [front])]
    rfl
  refine ⟨continued, ?_⟩
  rw [usable, usable, continued, trimmed]
  split
  · exact Bytes.dropLast_drop _ _
  · rfl

theorem not_isIgnored_of_drop (content : part.content = line.content.drop k)
    (plain : (Bytes.trimLeft (line.content.drop k)).head? ≠ some Byte.hash) :
    part.isIgnored = false := by
  have reach := lt_length_trimRight inside
  cases rest : Bytes.trimLeft (line.content.drop k) with
  | nil =>
      have none : Bytes.trimRight (line.content.drop k) = [] :=
        Bytes.trimRight_eq (List.nil_append _).symm (Bytes.trimLeft_eq_nil_iff.mp rest) nofun
      rw [Bytes.trimRight_drop reach, List.drop_eq_nil_iff] at none
      exact absurd reach (Nat.not_lt.mpr none)
  | cons b rest =>
      rw [rest] at plain
      simpa [isIgnored, content, rest] using plain

omit inside
variable (content : part.content = line.content.take k ++ [escape])
include content

theorem not_isIgnored_of_take (counts : line.isIgnored = false) (other : escape ≠ Byte.hash)
    (solid : Byte.isBlank escape = false) : part.isIgnored = false := by
  obtain ⟨b, rest, left, -, plain⟩ := exists_trimLeft_of_not_isIgnored counts
  have parts := Bytes.trimLeft_append (line.content.take k) (line.content.drop k)
  rw [List.take_append_drop, left] at parts
  rw [isIgnored, content, Bytes.trimLeft_append]
  cases front : Bytes.trimLeft (line.content.take k) with
  | nil => simp [Bytes.trimLeft, solid, other]
  | cons c more =>
      rw [front, List.isEmpty_cons, if_neg (by decide), List.cons_append] at parts
      obtain ⟨rfl, -⟩ := List.cons.inj parts
      simpa using plain

variable (solid : Byte.isBlank escape = false)
  (usable : part.usable escape = (line.usable escape).take k)
  (behind : line.argumentStart escape ≤ k)
include solid usable behind

/-- The start of a line that reaches into its argument opens with the same word. -/
theorem word_of_take : part.word escape = line.word escape ∧
    part.argumentStart escape = line.argumentStart escape := by
  have wordStop : line.wordStop escape ≤ k := Nat.le_trans (Nat.le_add_right _ _) behind
  have indent : part.content.indent = line.content.indent := by
    rw [content, Bytes.indent_concat solid,
      Bytes.indent_take (Nat.le_trans (Nat.le_add_right _ _) wordStop)]
  have word : part.word escape = line.word escape := by
    rw [Line.word, usable, indent, List.drop_take]
    exact Bytes.takeWhile_take (by rw [← Line.word]; rw [Line.wordStop] at wordStop; omega)
  have stop : part.wordStop escape = line.wordStop escape := by
    rw [Line.wordStop, Line.wordStop, indent, word]
  refine ⟨word, ?_⟩
  rw [argumentStart, stop, usable, List.drop_take, Bytes.indent_take]
  · rfl
  · rw [argumentStart] at behind
    omega

end Parts

end Line

/-! ## What a group says -/

namespace Statement

namespace Group

def body (escape : UInt8) (g : Group) : Bytes :=
  g.lines.flatMap (Line.usable escape)

/-- What a group says, wherever its lines stand: the word that opens it and the argument. -/
def reading (escape : UInt8) (g : Group) : Bytes × Bytes :=
  (g.first.word escape, (g.first.usable escape).drop (g.first.argumentStart escape) ++
    g.rest.flatMap (Line.usable escape))

theorem body_move (escape : UInt8) (r : Relocation) (g : Group) :
    (g.move r).body escape = g.body escape := by
  simp [body, lines, move, List.flatMap_map]

theorem reading_move (escape : UInt8) (r : Relocation) (g : Group) :
    (g.move r).reading escape = g.reading escape := by
  simp [reading, move, List.flatMap_map]

end Group

/-- The groups say the same, one by one, and their lines contribute the same. -/
structure Alike (escape : UInt8) (gs gs' : List Group) : Prop where
  bodies : gs'.map (Group.body escape) = gs.map (Group.body escape)
  readings : gs'.map (Group.reading escape) = gs.map (Group.reading escape)

section Alike

variable {escape : UInt8} {gs gs' : List Group}

theorem alike_move (r : Relocation) (gs : List Group) :
    Alike escape gs (gs.map (Group.move r)) := by
  constructor <;> simp [Function.comp_def, Group.body_move, Group.reading_move]

/-- A continued line takes in the first group, of which only the body is left. -/
theorem alike_add_of_isContinued {line : Line} (continued : line.isContinued escape = true)
    (bodies : gs'.map (Group.body escape) = gs.map (Group.body escape))
    (readings : gs'.tail.map (Group.reading escape) = gs.tail.map (Group.reading escape)) :
    Alike escape (Group.add escape line gs) (Group.add escape line gs') := by
  cases gs with
  | nil =>
      obtain rfl := List.map_eq_nil_iff.mp bodies
      exact ⟨rfl, rfl⟩
  | cons g others =>
      obtain ⟨g', others', rfl, first, rest⟩ := List.map_eq_cons_iff.mp bodies
      rw [Group.add, Group.add, if_pos continued, if_pos continued]
      constructor
      · change (line.usable escape ++ g'.body escape) :: _ =
          (line.usable escape ++ g.body escape) :: _
        rw [first, rest]
      · change (line.word escape, _ ++ g'.body escape) :: _ =
          (line.word escape, _ ++ g.body escape) :: _
        rw [first]
        exact congrArg (_ :: ·) readings

theorem Alike.add (alike : Alike escape gs gs') (line : Line) :
    Alike escape (Group.add escape line gs) (Group.add escape line gs') := by
  cases continued : line.isContinued escape with
  | true =>
      refine alike_add_of_isContinued continued alike.bodies ?_
      rw [List.map_tail, List.map_tail, alike.readings]
  | false =>
      rw [add_of_not_isContinued continued, add_of_not_isContinued continued]
      exact ⟨congrArg (_ :: ·) alike.bodies, congrArg (_ :: ·) alike.readings⟩

theorem Alike.foldr_add (alike : Alike escape gs gs') (lines : List Line) :
    Alike escape (lines.foldr (Group.add escape) gs) (lines.foldr (Group.add escape) gs') := by
  induction lines with
  | nil => exact alike
  | cons line rest ih => exact ih.add line

end Alike

end Statement

/-- Two lines contribute together what one line does: the first of them is continued, and the second
goes on exactly if the line does. -/
structure Line.BreaksInto (escape : UInt8) (line first second : Line) : Prop where
  continued : first.isContinued escape = true
  ends : second.isContinued escape = line.isContinued escape
  usable : line.usable escape = first.usable escape ++ second.usable escape

namespace Statement

theorem exists_groups_cons (escape : UInt8) (line : Line) (lines : List Line) :
    ∃ rest others, groups escape (line :: lines) = ⟨line, rest⟩ :: others := by
  change ∃ rest others, Group.add escape line (groups escape lines) = ⟨line, rest⟩ :: others
  unfold Group.add
  split
  · exact ⟨[], [], rfl⟩
  · split
    · exact ⟨_, _, rfl⟩
    · exact ⟨[], _, rfl⟩

/-- Groups after a line that is not continued are formed by themselves. -/
theorem groups_append_of_ends {escape : UInt8} {before : List Line}
    (ends : ∀ last, before.getLast? = some last → last.isContinued escape = false)
    (after : List Line) :
    groups escape (before ++ after) = groups escape before ++ groups escape after := by
  induction before with
  | nil => rfl
  | cons line rest ih =>
      cases rest with
      | nil =>
          have final := ends line rfl
          change Group.add escape line (groups escape after) = Group.add escape line [] ++ _
          rw [add_of_not_isContinued final]
          rfl
      | cons next others =>
          have below := ih (fun last found => ends last (by rwa [List.getLast?_cons_cons]))
          change Group.add escape line (groups escape (next :: others ++ after)) =
            Group.add escape line (groups escape (next :: others)) ++ _
          obtain ⟨inner, more, first⟩ := exists_groups_cons escape next others
          rw [below, first]
          cases continued : line.isContinued escape <;> simp [Group.add, continued]

/-- A line that no continued line precedes opens a group. -/
theorem exists_first_eq {escape : UInt8} {before : List Line}
    (ends : ∀ last, before.getLast? = some last → last.isContinued escape = false) (line : Line)
    (after : List Line) : ∃ g ∈ groups escape (before ++ line :: after), g.first = line := by
  obtain ⟨rest, others, first⟩ := exists_groups_cons escape line after
  rw [groups_append_of_ends ends, first]
  exact ⟨⟨line, rest⟩, by simp, rfl⟩

section Broken

variable {escape : UInt8} {line first second : Line} (parts : line.BreaksInto escape first second)
include parts

/-- The group that a line opens, and the group that its parts open. -/
theorem add_broken {gs gs' : List Group} (alike : Alike escape gs gs') :
    ∃ rest rest' others others', Group.add escape line gs = ⟨line, rest⟩ :: others ∧
      Group.add escape first (Group.add escape second gs') = ⟨first, second :: rest'⟩ :: others' ∧
      rest'.flatMap (Line.usable escape) = rest.flatMap (Line.usable escape) ∧
      Alike escape others others' := by
  cases gs with
  | nil =>
      obtain rfl := List.map_eq_nil_iff.mp alike.bodies
      refine ⟨[], [], [], [], rfl, ?_, rfl, alike⟩
      simp [Group.add, parts.continued, Group.lines]
  | cons g others =>
      obtain ⟨g', others', rfl, body, bodies⟩ := List.map_eq_cons_iff.mp alike.bodies
      cases goesOn : line.isContinued escape with
      | true =>
          refine ⟨g.lines, g'.lines, others, others', ?_, ?_, body, bodies,
            (List.cons.inj alike.readings).2⟩
          · simp [Group.add, goesOn]
          · simp [Group.add, parts.continued, parts.ends, goesOn, Group.lines]
      | false =>
          refine ⟨[], [], g :: others, g' :: others', ?_, ?_, rfl, alike⟩
          · simp [Group.add, goesOn]
          · simp [Group.add, parts.continued, parts.ends, goesOn, Group.lines]

/-- Broken lines are read as the lines before the break were.  The first part of a line that opens a
group has to open it with the same word. -/
theorem readings_broken (before : List Line) {after after' : List Line}
    (alike : Alike escape (groups escape after) (groups escape after'))
    (opens : (∀ last, before.getLast? = some last → last.isContinued escape = false) →
      first.word escape = line.word escape ∧
        first.argumentStart escape = line.argumentStart escape ∧
        line.argumentStart escape ≤ (first.usable escape).length) :
    (groups escape (before ++ first :: second :: after')).map (Group.reading escape) =
      (groups escape (before ++ line :: after)).map (Group.reading escape) := by
  obtain ⟨rest, rest', others, others', whole, broken, tail, same⟩ := add_broken parts alike
  change groups escape (line :: after) = _ at whole
  change groups escape (first :: second :: after') = _ at broken
  have bodies : (groups escape (first :: second :: after')).map (Group.body escape) =
      (groups escape (line :: after)).map (Group.body escape) := by
    rw [whole, broken, List.map_cons, List.map_cons, same.bodies]
    simp [Group.body, Group.lines, parts.usable, tail]
  suffices all : Alike escape (groups escape (before ++ line :: after))
      (groups escape (before ++ first :: second :: after')) from all.readings
  by_cases free : ∀ last, before.getLast? = some last → last.isContinued escape = false
  · obtain ⟨word, start, reach⟩ := opens free
    have bottom : Alike escape (groups escape (line :: after))
        (groups escape (first :: second :: after')) := by
      refine ⟨bodies, ?_⟩
      rw [whole, broken, List.map_cons, List.map_cons, same.readings]
      simp [Group.reading, word, start, parts.usable, tail, List.drop_append_of_le_length reach]
    rw [groups, List.foldr_append, groups, List.foldr_append]
    exact bottom.foldr_add before
  · -- The line before takes the broken line in, so that its opening word is none.
    obtain ⟨last, found, continued⟩ : ∃ last, before.getLast? = some last ∧
        last.isContinued escape = true := by
      simpa using free
    obtain ⟨front, rfl⟩ := List.getLast?_eq_some_iff.mp found
    have bottom := alike_add_of_isContinued continued bodies
      (by rw [whole, broken]; exact same.readings)
    simp only [List.append_assoc, List.singleton_append, groups, List.foldr_append]
    exact bottom.foldr_add front

end Broken

end Statement

end Dockerfile
