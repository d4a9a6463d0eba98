import Dockerfile.Analysis
import Dockerfile.Proofs.Keyword
import Dockerfile.Proofs.Statement.Grouping

/-!
# The block of directives

A line writes a directive if it reads `# name = value`, with blanks anywhere between the parts, and
its name is a known one in any case.  The block is the longest run of such lines from the first line
on.  Of its directives only the first that is named `escape` has a say about the escape byte, and
instructions are read off the lines after the block and off no others.
-/

namespace Dockerfile

namespace Bytes

/-- The part of a text that is left without the blanks at its ends. -/
structure IsTrimmed (text part : Bytes) : Prop where
  between : ∃ front back, text = front ++ (part ++ back) ∧ AllBlank front ∧ AllBlank back
  first : ∀ b, part.head? = some b → Byte.isBlank b = false
  last : ∀ b, part.getLast? = some b → Byte.isBlank b = false

theorem trimLeft_append_of_solid {blanks : Bytes} (blank : AllBlank blanks) {rest : Bytes}
    (solid : ∀ b, rest.head? = some b → Byte.isBlank b = false) :
    trimLeft (blanks ++ rest) = rest := by
  rw [trimLeft, List.dropWhile_append_of_pos blank]
  cases rest with
  | nil => rfl
  | cons b rest => simp [solid b rfl]

/-- Trimming leaves exactly the part between the blanks. -/
theorem isTrimmed_iff {text part : Bytes} : IsTrimmed text part ↔ text.trim = part := by
  constructor
  · rintro ⟨⟨front, back, rfl, blankFront, blankBack⟩, first, last⟩
    cases part with
    | nil =>
        apply trim_eq_nil_iff.mpr
        intro b member
        rcases List.mem_append.mp member with member | member
        · exact blankFront b member
        · exact blankBack b member
    | cons b part =>
        have left : trimLeft (front ++ (b :: part ++ back)) = b :: part ++ back :=
          trimLeft_append_of_solid blankFront first
        rw [trim, left]
        exact trimRight_eq rfl blankBack last
  · rintro rfl
    obtain ⟨front, back, split, -, blankFront, blankBack⟩ := exists_trim_append text
    exact ⟨⟨front, back, split, blankFront, blankBack⟩, fun b => not_isBlank_head_trim,
      fun b => not_isBlank_getLast_trimRight⟩

end Bytes

namespace Directive

open Bytes (AllBlank IsTrimmed)

/-- A letter and then letters and digits. -/
def IsName (name : Bytes) : Prop :=
  ∃ first rest, name = first :: rest ∧ Byte.isLetter first = true ∧
    ∀ b ∈ rest, Byte.isLetter b = true ∨ Byte.isDigit b = true

/-- Blanks, a hash, blanks, a name, blanks, an equals sign and the rest of the line. -/
inductive IsWritten : (content name rest : Bytes) → Prop
  | intro {indent gap name space rest : Bytes} (indented : AllBlank indent) (parted : AllBlank gap)
      (named : IsName name) (spaced : AllBlank space) :
      IsWritten (indent ++ Byte.hash :: (gap ++ (name ++ (space ++ Byte.equals :: rest)))) name rest

/-- The line writes the directive: its name in any case, and its value with blanks around it. -/
structure Records (line : Line) (d : Directive) : Prop where
  written : ∃ name rest, IsWritten line.content name rest ∧ d.name = name.map Byte.toLower ∧
    IsTrimmed rest d.value
  known : d.name = utf8 "escape" ∨ d.name = utf8 "syntax" ∨ d.name = utf8 "check"
  number : d.line = line.number
  span : d.span = line.span

/-- The directives of the longest run of lines from the first on that each write one. -/
structure IsBlock (lines : List Line) (directives : List Directive) : Prop where
  each : List.Forall₂ Records (lines.take directives.length) directives
  ends : ∀ line, lines[directives.length]? = some line → ∀ d, ¬ Records line d

/-! ## One line -/

theorem IsName.isNameByte {name : Bytes} (isName : IsName name) :
    ∀ b ∈ name, Directive.isNameByte b = true := by
  obtain ⟨first, rest, rfl, letter, others⟩ := isName
  simp only [Directive.isNameByte, List.mem_cons, Bool.or_eq_true]
  rintro b (rfl | member)
  · exact Or.inl letter
  · exact others b member

theorem not_isNameByte_head {space : Bytes} (spaced : AllBlank space) (rest : Bytes) {b : UInt8}
    (head : (space ++ Byte.equals :: rest).head? = some b) : isNameByte b = false := by
  cases space with
  | nil =>
      obtain rfl := Option.some.inj head
      rfl
  | cons blank more =>
      obtain rfl := Option.some.inj head
      rcases Bool.or_eq_true_iff.mp (spaced blank List.mem_cons_self) with same | same <;>
        rw [beq_iff_eq.mp same] <;> rfl

/-- What is written is read: the name in lower case and the value without blanks around it. -/
theorem parse?_of_isWritten {content name rest : Bytes} (written : IsWritten content name rest) :
    parse? content = some (name.map Byte.toLower, rest.trim) := by
  cases written with
  | @intro indent gap _ space _ indented parted named spaced =>
      have run : (name ++ (space ++ Byte.equals :: rest)).takeWhile isNameByte = name :=
        Bytes.takeWhile_append_eq named.isNameByte fun b => not_isNameByte_head spaced rest
      have after : (name ++ (space ++ Byte.equals :: rest)).dropWhile isNameByte =
          space ++ Byte.equals :: rest := by
        rw [← Bytes.drop_length_takeWhile, run, List.drop_left]
      obtain ⟨first, others, shape, letter, -⟩ := named
      have body : Bytes.trimLeft (gap ++ (name ++ (space ++ Byte.equals :: rest))) =
          name ++ (space ++ Byte.equals :: rest) := by
        apply Bytes.trimLeft_append_of_solid parted
        intro b head
        rw [shape] at head
        obtain rfl := Option.some.inj head
        exact (Byte.of_isLetter letter).2.1
      have tail : Bytes.trimLeft (space ++ Byte.equals :: rest) = Byte.equals :: rest :=
        Bytes.trimLeft_append_of_solid spaced (by rintro b ⟨⟩; rfl)
      have lettered : name.head?.any Byte.isLetter = true := by simp [shape, letter]
      unfold parse?
      rw [Bytes.trimLeft_append_of_solid indented (by rintro b ⟨⟩; rfl)]
      simp [body, run, after, tail, lettered]

theorem isName_takeWhile {text : Bytes}
    (lettered : (text.takeWhile isNameByte).head?.any Byte.isLetter = true) :
    IsName (text.takeWhile isNameByte) := by
  have inside : ∀ b ∈ text.takeWhile isNameByte, isNameByte b = true :=
    List.all_eq_true.mp List.all_takeWhile
  cases run : text.takeWhile isNameByte with
  | nil => simp [run] at lettered
  | cons first rest =>
      rw [run] at lettered inside
      refine ⟨first, rest, rfl, by simpa using lettered, fun b member => ?_⟩
      simpa [isNameByte] using inside b (List.mem_cons_of_mem _ member)

/-- What is read is written. -/
theorem exists_isWritten_of_parse? {content lower value : Bytes}
    (found : parse? content = some (lower, value)) :
    ∃ name rest, IsWritten content name rest ∧ lower = name.map Byte.toLower ∧
      value = rest.trim := by
  unfold parse? at found
  split at found
  · cases found
  · rename_i mark body opened
    simp only [Option.ite_none_right_eq_some, Bool.and_eq_true, beq_iff_eq, Option.some.injEq,
      Prod.mk.injEq] at found
    obtain ⟨⟨⟨rfl, lettered⟩, equals⟩, rfl, rfl⟩ := found
    obtain ⟨rest, tail⟩ := List.head?_eq_some_iff.mp equals
    refine ⟨_, rest, ?_, rfl, by rw [tail]; rfl⟩
    have whole := Bytes.takeWhile_append_trimLeft content
    rw [opened, ← Bytes.takeWhile_append_trimLeft body,
      ← List.takeWhile_append_dropWhile (p := isNameByte) (l := Bytes.trimLeft body),
      ← Bytes.takeWhile_append_trimLeft ((Bytes.trimLeft body).dropWhile isNameByte), tail] at whole
    rw [← whole]
    exact .intro (Bytes.allBlank_takeWhile _) (Bytes.allBlank_takeWhile _)
      (isName_takeWhile lettered) (Bytes.allBlank_takeWhile _)

theorem isKnown_iff {name : Bytes} :
    isKnown name = true ↔ name = utf8 "escape" ∨ name = utf8 "syntax" ∨ name = utf8 "check" := by
  simp [isKnown, or_assoc]

theorem ofLine?_eq_some_iff {line : Line} {d : Directive} :
    ofLine? line = some d ↔ Records line d := by
  unfold ofLine?
  constructor
  · intro found
    split at found
    · rename_i lower value read
      obtain ⟨known, same⟩ := Option.ite_none_right_eq_some.mp found
      obtain rfl := Option.some.inj same
      obtain ⟨name, rest, written, lowered, trimmed⟩ := exists_isWritten_of_parse? read
      exact ⟨⟨name, rest, written, lowered, Bytes.isTrimmed_iff.mpr trimmed.symm⟩,
        isKnown_iff.mp known, rfl, rfl⟩
    · cases found
  · rintro ⟨⟨name, rest, written, lowered, trimmed⟩, known, number, span⟩
    rw [parse?_of_isWritten written]
    simp only [← lowered, Bytes.isTrimmed_iff.mp trimmed, ← number, ← span]
    exact if_pos (isKnown_iff.mpr known)

/-! ## The block -/

theorem isBlock_nil : IsBlock [] [] :=
  ⟨.nil, nofun⟩

theorem IsBlock.cons {line : Line} {d : Directive} (records : Records line d) {rest : List Line}
    {directives : List Directive} (isBlock : IsBlock rest directives) :
    IsBlock (line :: rest) (d :: directives) :=
  ⟨.cons records isBlock.each, isBlock.ends⟩

/-- The block holds one directive for each of its lines and ends before a line that writes none. -/
theorem isBlock_block (lines : List Line) : IsBlock lines (block lines) := by
  induction lines with
  | nil => exact isBlock_nil
  | cons line rest ih =>
      rw [block]
      cases read : ofLine? line with
      | some d => exact ih.cons (ofLine?_eq_some_iff.mp read)
      | none =>
          refine ⟨.nil, ?_⟩
          rintro _ ⟨⟩ d records
          rw [ofLine?_eq_some_iff.mpr records] at read
          cases read

/-- There is one such list only. -/
theorem IsBlock.eq {lines : List Line} {directives : List Directive}
    (isBlock : IsBlock lines directives) : block lines = directives := by
  induction lines generalizing directives with
  | nil =>
      cases directives with
      | nil => rfl
      | cons d directives => cases isBlock.each
  | cons line rest ih =>
      rw [block]
      cases directives with
      | nil =>
          cases read : ofLine? line with
          | none => rfl
          | some d => exact absurd (ofLine?_eq_some_iff.mp read) (isBlock.ends line rfl d)
      | cons d directives =>
          obtain ⟨each, ends⟩ := isBlock
          cases each with
          | cons records later =>
              rw [ofLine?_eq_some_iff.mpr records]
              exact congrArg (d :: ·) (ih ⟨later, ends⟩)

/-- The first directive that is named `escape`, with what precedes it. -/
theorem escape?_eq_some_iff {directives : List Directive} {d : Directive} :
    escape? directives = some d ↔ d.name = utf8 "escape" ∧
      ∃ before after, directives = before ++ d :: after ∧
        ∀ e ∈ before, e.name ≠ utf8 "escape" := by
  simp [escape?, List.find?_eq_some_iff_append]

theorem escapeByte?_eq_backtick_iff {d : Directive} :
    escapeByte? d = some Byte.backtick ↔ d.value = [Byte.backtick] := by
  unfold escapeByte?
  split
  · rename_i slash
    simp [beq_iff_eq.mp slash, Byte.backslash, Byte.backtick]
  · split
    · rename_i tick
      simp [beq_iff_eq.mp tick]
    · rename_i other
      simpa using other

/-- The escape byte is the backtick only by the first directive that is named `escape`. -/
theorem escape_eq_backtick_iff {directives : List Directive} :
    escape directives = Byte.backtick ↔
      ∃ d, escape? directives = some d ∧ d.value = [Byte.backtick] := by
  rw [escape]
  cases escape? directives with
  | none => simp [Byte.backslash, Byte.backtick]
  | some d =>
      rw [Option.bind_some]
      cases value : escapeByte? d with
      | none =>
          have other : ¬ d.value = [Byte.backtick] := by
            simp [← escapeByte?_eq_backtick_iff, value]
          simpa [Byte.backslash, Byte.backtick] using other
      | some b => simp [← escapeByte?_eq_backtick_iff, value]

theorem escape_eq_backtick_iff_first {directives : List Directive} :
    escape directives = Byte.backtick ↔ ∃ before d after, directives = before ++ d :: after ∧
      (∀ e ∈ before, e.name ≠ utf8 "escape") ∧ d.name = utf8 "escape" ∧
      d.value = [Byte.backtick] := by
  simp only [escape_eq_backtick_iff, escape?_eq_some_iff]
  constructor
  · rintro ⟨d, ⟨named, before, after, split, others⟩, value⟩
    exact ⟨before, d, after, split, others, named, value⟩
  · rintro ⟨before, d, after, split, others, named, value⟩
    exact ⟨d, ⟨named, before, after, split, others⟩, value⟩

end Directive

namespace Document

variable {doc : Document}

/-- A line of the block ends before every line that instructions are read off. -/
theorem stop_lt_start_of_mem_groups {n : Nat} {line : Line} (found : doc.lines[n]? = some line)
    (inBlock : n < (Directive.block doc.lines).length) {g : Statement.Group}
    (member : g ∈ doc.groups) : line.stop < g.first.start := by
  have counted : g.first ∈ doc.countingLines := by
    rw [← Statement.flatMap_lines_groups doc.escape doc.countingLines]
    exact List.mem_flatMap.mpr ⟨g, member, List.mem_cons_self⟩
  have behind := (List.mem_filter.mp counted).1
  obtain ⟨k, later⟩ := List.mem_iff_getElem?.mp behind
  rw [List.getElem?_drop] at later
  exact stop_lt_start found later (by omega)

/-- So it contributes nothing to an instruction. -/
theorem stop_lt_start_of_mem_instructions {n : Nat} {line : Line}
    (found : doc.lines[n]? = some line) (inBlock : n < (Directive.block doc.lines).length)
    {i : Instruction} (member : i ∈ doc.instructions) :
    line.stop < i.raw.start ∧ ∀ s ∈ i.argument.segments, line.stop < s.span.start := by
  rw [instructions_eq] at member
  obtain ⟨g, grouped, rfl⟩ := List.mem_map.mp member
  have apart := stop_lt_start_of_mem_groups found inBlock grouped
  have after : line.stop < (doc.ofGroup g).raw.start := by
    rw [raw_ofGroup grouped]
    dsimp only
    omega
  refine ⟨after, fun s segment => ?_⟩
  exact Int.lt_of_lt_of_le after (fills_of_mem_segments grouped segment).2.1

theorem exists_line_of_mem_block {n : Nat} {d : Directive}
    (found : (Directive.block doc.lines)[n]? = some d) :
    ∃ line, doc.lines[n]? = some line ∧ Directive.Records line d := by
  have each := (Directive.isBlock_block doc.lines).each
  obtain ⟨inside, rfl⟩ := List.getElem?_eq_some_iff.mp found
  have covered : n < (doc.lines.take (Directive.block doc.lines).length).length := by
    rw [each.length_eq]
    exact inside
  refine ⟨(doc.lines.take (Directive.block doc.lines).length)[n], ?_, each.get covered inside⟩
  rw [← List.getElem?_eq_getElem covered, List.getElem?_take_of_lt inside]

/-- Instructions are read off the lines after the block that are not silent. -/
theorem exists_lines_read (doc : Document) :
    ∃ groups, List.Forall₂ (Instruction.IsReadOff doc.text doc.escape) groups doc.instructions ∧
      groups.flatten = doc.speakingLines := by
  refine ⟨doc.groups.map Statement.Group.lines, ?_, ?_⟩
  · exact (forall₂_isReadOff_iff fun g member => member).mpr (instructions_eq doc).symm
  · rw [← List.flatMap_def, groups, Statement.flatMap_lines_groups, speakingLines_eq]

/-- The line after the block opens the first instruction, unless it is silent. -/
theorem exists_first_instruction {line : Line}
    (found : doc.lines[(Directive.block doc.lines).length]? = some line)
    (speaks : ¬ line.IsSilent) :
    ∃ later i others, doc.instructions = i :: others ∧
      Instruction.IsReadOff doc.text doc.escape (line :: later) i := by
  obtain ⟨groups, read, joined⟩ := doc.exists_lines_read
  obtain ⟨inside, rfl⟩ := List.getElem?_eq_some_iff.mp found
  rw [speakingLines, List.drop_eq_getElem_cons inside, List.filter_cons,
    if_pos (decide_eq_true speaks)] at joined
  generalize doc.instructions = instructions at read
  cases read with
  | nil => cases joined
  | @cons group i groups others first rest =>
      have shape := first
      obtain ⟨head, later, -, -, -, -, -, -, rfl, -⟩ := shape
      obtain ⟨rfl, -⟩ := List.cons.inj joined
      exact ⟨later, i, others, rfl, first⟩

/-- The directives of a text are those of the longest run of lines from the first on that each write
one, with the number and span of their lines.  The escape byte is a backtick if the first directive
named `escape` says so, and a backslash otherwise.  Instructions are read off the lines after the
block that are neither blank nor comments, all of them in order and the first one after the block
among them, and off no line of the block. -/
theorem directive_block_exact (uri text : Bytes) :
    let doc := ofText uri text
    let a := Analysis.ofDocument doc
    (∀ directives, a.directives = directives ↔ Directive.IsBlock doc.lines directives) ∧
    (∀ (n : Nat) (d : Directive), a.directives[n]? = some d →
      d.line = n ∧ doc.lineSpan? n = some d.span) ∧
    (a.escape = Byte.backtick ↔ ∃ before d after, a.directives = before ++ d :: after ∧
      (∀ e ∈ before, e.name ≠ utf8 "escape") ∧ d.name = utf8 "escape" ∧
      d.value = [Byte.backtick]) ∧
    (a.escape ≠ Byte.backtick → a.escape = Byte.backslash) ∧
    (∃ groups, List.Forall₂ (Instruction.IsReadOff text a.escape) groups a.instructions ∧
      groups.flatten = (doc.lines.drop a.directives.length).filter fun line => ¬ line.IsSilent) ∧
    (∀ line, doc.lines[a.directives.length]? = some line → ¬ line.IsSilent →
      ∃ later i others, a.instructions = i :: others ∧
        Instruction.IsReadOff text a.escape (line :: later) i) ∧
    (∀ n line, n < a.directives.length → doc.lines[n]? = some line → ∀ i ∈ a.instructions,
      line.stop < i.raw.start ∧ ∀ s ∈ i.argument.segments, line.stop < s.span.start) := by
  intro doc a
  refine ⟨?_, ?_, Directive.escape_eq_backtick_iff_first, doc.escape_cases.resolve_right,
    doc.exists_lines_read, ?_, ?_⟩
  · intro directives
    constructor
    · rintro rfl
      exact Directive.isBlock_block doc.lines
    · exact Directive.IsBlock.eq
  · intro n d found
    obtain ⟨line, there, records⟩ := exists_line_of_mem_block found
    refine ⟨records.number.trans (number_of_getElem? there), ?_⟩
    exact lineSpan?_eq_some_iff.mpr ⟨n, line, rfl, there, records.span⟩
  · intro line there speaks
    exact exists_first_instruction there speaks
  · intro n line inBlock there i member
    exact stop_lt_start_of_mem_instructions there inBlock member

end Document

end Dockerfile
