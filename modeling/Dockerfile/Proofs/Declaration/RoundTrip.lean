import Dockerfile.Proofs.Declaration.Written
import Dockerfile.Proofs.Keyword

/-!
# Declarations read back

A declaration that is put on a line of its own is read back from the document: its lines make one
instruction, and the variables of this instruction are the assignments, in order and each at the
place where it was written, however they are spread over lines.
-/

namespace Dockerfile

namespace Declaration

variable (d : Declaration)

theorem isLetter_word : ∀ b ∈ d.word, Byte.isLetter b = true :=
  Keyword.isLetter_of_spelled d.spelled

theorem exists_word_eq_cons : ∃ b rest, d.word = b :: rest ∧ Byte.isLetter b = true := by
  cases shape : d.word with
  | nil =>
      have spelled := d.spelled
      rw [shape] at spelled
      exact absurd spelled.symm d.keyword.isUpper_spelling.1
  | cons b rest => exact ⟨b, rest, rfl, d.isLetter_word b (by rw [shape]; exact List.mem_cons_self)⟩

theorem oneLine_opening : Byte.lineFeed ∉ d.opening := by
  have word : Byte.lineFeed ∉ d.word := fun member =>
    (Byte.of_isLetter (d.isLetter_word _ member)).2.2.1 rfl
  simp [opening, d.indented.lineFeed_not_mem, word, d.gap.blank.lineFeed_not_mem]

variable {escape : UInt8} (known : Byte.IsEscape escape)
include known

theorem lead : Line.Lead (d.opening ++ d.first.text escape) := by
  obtain ⟨b, rest, shape, letter⟩ := d.exists_word_eq_cons
  obtain ⟨-, solid, -, plain⟩ := Byte.of_isLetter letter
  obtain ⟨body, ends⟩ := d.first.exists_text_eq_concat escape
  refine ⟨?_, ⟨b, rest ++ (d.gap.bytes ++ d.first.text escape), ?_, plain⟩,
    d.opening ++ body, d.first.quote, ?_⟩
  · simp [d.oneLine_opening, d.first.lineFeed_not_mem_text escape known.ne_lineFeed]
  · rw [opening, List.append_assoc, Bytes.trimLeft_append,
      Bytes.trimLeft_eq_nil_iff.mpr d.indented, shape]
    simp [Bytes.trimLeft, solid]
  · simp [ends]

def line (escape : UInt8) (front : Bytes) : Line :=
  ⟨front.count Byte.lineFeed, front.length,
    d.opening ++ d.first.text escape ++ d.rest.content escape⟩

def group (escape : UInt8) (front : Bytes) : Statement.Group :=
  ⟨d.line escape front, d.rest.lines escape (front.count Byte.lineFeed)
    (front.length + (d.opening ++ d.first.text escape).length)⟩

/-- The first line counts, contributes all but the escape byte, and ends in no carriage return. -/
theorem line_eq (front : Bytes) : (d.line escape front).isIgnored = false ∧
    (d.line escape front).usable escape =
      d.opening ++ d.first.text escape ++ d.rest.usable escape ∧
    Line.chomp (d.line escape front).content = (d.line escape front).content := by
  obtain ⟨counts, -, used, whole⟩ := (d.lead known).line_eq known d.rest
    (rfl : (d.line escape front).content = _)
  exact ⟨counts, used, whole⟩

theorem opening_line (front : Bytes) :
    Instruction.Opening escape (d.line escape front) d.indent d.word d.gap.bytes
      (d.first.text escape ++ d.rest.usable escape) := by
  obtain ⟨-, used, -⟩ := d.line_eq known front
  obtain ⟨b, rest, word, letter⟩ := d.exists_word_eq_cons
  obtain ⟨c, more, text, solid, -⟩ := d.first.exists_text_eq_cons escape
  constructor
  · rw [Line.offers_iff known.not_isBlank, used]
    simp [opening]
  · exact d.indented
  · refine ⟨b, rest ++ (d.gap.bytes ++ (d.first.text escape ++ d.rest.content escape)), ?_,
      (Byte.of_isLetter letter).2.1⟩
    simp [line, opening, word]
  · exact fun c member => (Byte.of_isLetter (d.isLetter_word c member)).2.1
  · intro c found
    rw [List.head?_append_of_ne_nil _ d.gap.filled] at found
    exact d.gap.blank c (List.mem_of_mem_head? found)
  · exact d.gap.blank
  · intro e found
    rw [text] at found
    obtain rfl := Option.some.inj found
    exact solid

theorem isFinished_group (front : Bytes) : (d.group escape front).IsFinished escape :=
  (Assignments.isFinished_lines known (d.lead known) d.rest _ _).1

theorem stop_group (front : Bytes) :
    (d.group escape front).last.stop = front.length + (d.text escape).length :=
  (Assignments.isFinished_lines known (d.lead known) d.rest _ _).2

/-- The lines that a declaration adds behind a text: those that count are its own and then those of
what follows. -/
theorem exists_linesBehind (front : Bytes) {back : Bytes}
    (ends : back = [] ∨ back.head? = some Byte.lineFeed) :
    ∃ more later,
      Document.linesBehind front (d.text escape ++ back) = d.line escape front :: more ∧
      Statement.counting more = (d.group escape front).rest ++ later := by
  obtain ⟨more, cut, counting⟩ := Assignments.cut_text known (d.lead known) d.rest
  obtain ⟨-, -, whole⟩ := d.line_eq known front
  have pieces : ∃ others, Line.cut (d.text escape ++ back) =
      (d.opening ++ d.first.text escape ++ d.rest.content escape) :: (more ++ others) := by
    cases back with
    | nil => exact ⟨[], by rw [List.append_nil, List.append_nil, text, cut]⟩
    | cons b back =>
        obtain rfl : b = Byte.lineFeed := by simpa using ends
        exact ⟨Line.cut back, by rw [Line.cut_append, text, cut, List.cons_append]⟩
  obtain ⟨others, pieces⟩ := pieces
  have lines := congrArg (Line.place (front.count Byte.lineFeed) front.length) pieces
  dsimp only [line] at whole
  rw [Line.place, Line.place_append, whole] at lines
  have counted : ∀ after, Statement.counting (Line.place _ _ more ++ after) =
      (d.group escape front).rest ++ Statement.counting after := fun after =>
    (List.filter_append _ _).trans (congrArg (· ++ _) (counting _ front.length))
  exact ⟨_, _, lines, counted _⟩

end Declaration

/-! ## Where assignments stand -/

/-- An assignment stands after the text that its layout gives. -/
theorem Assignments.exists_of_mem_layout {escape : UInt8} {rest : Assignments}
    {before left : Bytes} {a : Assignment} (member : (left, a) ∈ rest.layout escape before) :
    ∃ right, before ++ rest.text escape = left ++ (a.text escape ++ right) := by
  induction rest generalizing before with
  | nil => cases member
  | cons item rest ih =>
      obtain ⟨gap, b⟩ := item
      have text : before ++ text escape ((gap, b) :: rest) =
          before ++ gap.text escape ++ b.text escape ++ Assignments.text escape rest := by
        simp [Assignments.text]
      rcases List.mem_cons.mp member with here | later
      · obtain ⟨rfl, rfl⟩ := Prod.mk.inj here
        exact ⟨Assignments.text escape rest, by rw [text, List.append_assoc]⟩
      · obtain ⟨right, same⟩ := ih later
        exact ⟨right, text.trans same⟩

theorem Declaration.exists_of_mem_layout {d : Declaration} {escape : UInt8} {front left : Bytes}
    {a : Assignment} (member : (left, a) ∈ d.layout escape front) :
    ∃ right, front ++ d.text escape = left ++ (a.text escape ++ right) := by
  have text : front ++ d.text escape =
      front ++ d.opening ++ d.first.text escape ++ d.rest.text escape := by
    simp [Declaration.text]
  rcases List.mem_cons.mp member with here | later
  · obtain ⟨rfl, rfl⟩ := Prod.mk.inj here
    exact ⟨d.rest.text escape, by rw [text, List.append_assoc]⟩
  · obtain ⟨right, same⟩ := Assignments.exists_of_mem_layout later
    exact ⟨right, text.trans same⟩

/-- A variable shows an assignment that was written after a text: it has the name, its spans hold
the name and the value in its quotes, and its line is the one on which the assignment starts. -/
structure Document.Shows (doc : Document) (left : Bytes) (a : Assignment) (v : Variable) :
    Prop where
  name : v.name = a.name
  nameSpan : ∃ stop : Nat, v.nameSpan = ⟨left.length, stop⟩ ∧
    doc.text.slice left.length stop = a.name
  valueSpan : ∃ start stop : Nat, v.valueSpan = some ⟨start, stop⟩ ∧
    doc.text.slice start stop = a.quoted doc.escape
  line : v.line = left.count Byte.lineFeed

theorem Document.shows_after {doc : Document} {left right : Bytes} {a : Assignment}
    (stands : doc.text = left ++ (a.text doc.escape ++ right)) (keyword : Keyword) :
    doc.Shows left a (a.after keyword doc.escape left) := by
  have name : doc.text = left ++ (a.name ++ (Byte.equals :: (a.quoted doc.escape ++ right))) := by
    simp [stands, Assignment.text]
  have value : doc.text =
      (left ++ (a.name ++ [Byte.equals])) ++ (a.quoted doc.escape ++ right) := by
    simp [name]
  have length : (left ++ (a.name ++ [Byte.equals])).length = left.length + a.name.length + 1 := by
    simp [Nat.add_assoc]
  refine ⟨rfl, ⟨left.length + a.name.length, rfl, ?_⟩,
    ⟨left.length + a.name.length + 1, left.length + a.name.length + 1 +
      (a.quoted doc.escape).length, rfl, ?_⟩, rfl⟩
  · rw [name, Bytes.slice_append_append]
  · rw [value, ← length, Bytes.slice_append_append]

namespace Document

section Group

variable {doc : Document} {d : Declaration} {front : Bytes}
  (member : d.group doc.escape front ∈ doc.groups)
include member

theorem keyword_declaration :
    (doc.ofGroup (d.group doc.escape front)).keyword = some d.keyword := by
  have known : Byte.IsEscape doc.escape := doc.escape_cases
  have counts := (mem_countingLines member List.mem_cons_self).2
  obtain ⟨-, word, -, -⟩ := (d.opening_line known front).eq known.not_isBlank
  change Keyword.ofWord? (Statement.ofGroup doc.escape _).word = _
  rw [Statement.ofGroup_eq doc.escape counts]
  exact (congrArg Keyword.ofWord? word).symm.trans (Keyword.ofWord?_of_spelled d.spelled)

theorem raw_declaration : (doc.ofGroup (d.group doc.escape front)).raw =
    ⟨(front.length + d.indent.length : Nat),
      (front.length + (d.text doc.escape).length : Nat)⟩ := by
  have known : Byte.IsEscape doc.escape := doc.escape_cases
  obtain ⟨indent, -, -, -⟩ := (d.opening_line known front).eq known.not_isBlank
  rw [raw_ofGroup member, d.stop_group known, indent]
  rfl

/-- The variables of a declaration are its assignments, each at its place. -/
theorem ofInstruction_declaration :
    Variable.ofInstruction (doc.ofGroup (d.group doc.escape front)) =
      (d.layout doc.escape front).map fun (left, a) => a.after d.keyword doc.escape left := by
  have known : Byte.IsEscape doc.escape := doc.escape_cases
  have read := ofInstruction_ofGroup member (keyword_declaration member) d.declares
  obtain ⟨-, -, start, tail⟩ := (d.opening_line known front).eq known.not_isBlank
  have opening : d.opening.length = (d.line doc.escape front).argumentStart doc.escape := by
    rw [← start, Declaration.opening, List.length_append, List.length_append, Nat.add_assoc]
  have line : (front ++ d.opening).count Byte.lineFeed = front.count Byte.lineFeed := by
    rw [List.count_append, List.count_eq_zero.mpr d.oneLine_opening, Nat.add_zero]
  have place : (front ++ d.opening).length =
      front.length + d.opening.length + (0 + ([] : Bytes).length) := List.length_append
  have offset : front.length + (d.opening ++ d.first.text doc.escape).length =
      (front ++ d.opening ++ d.first.text doc.escape).length := by
    simp
  dsimp only [Declaration.group] at read
  rw [← tail, ← opening] at read
  refine read.trans ?_
  rw [offset]
  -- the reading starts as it goes on between two assignments: nothing is open
  exact (Assignments.areReadBack known d.keyword d.rest).cons known d.first false
    (fun b => nofun : Bytes.AllBlank []) line place

end Group

/-- The lines of a declaration make one group of the document. -/
theorem groups_declaration {uri front back : Bytes} (starts : front.EndsLine)
    (settled : (ofText uri front).IsSettled) (d : Declaration)
    (ends : back = [] ∨ back.head? = some Byte.lineFeed) :
    let escape := (ofText uri front).escape
    let doc := ofText uri (front ++ (d.text escape ++ back))
    doc.escape = escape ∧
      ∃ later, doc.groups = (ofText uri front).groups ++ d.group escape front :: later := by
  intro escape doc
  have known : Byte.IsEscape escape := (ofText uri front).escape_cases
  obtain ⟨more, later, lines, counting⟩ := d.exists_linesBehind known front ends
  obtain ⟨counts, -, -⟩ := d.line_eq known front
  obtain ⟨joined, final⟩ := d.isFinished_group known front
  have closed : Directive.block (linesBehind front (d.text escape ++ back)) = [] := by
    rw [lines, Directive.block_of_not_isIgnored counts]
  have kept : Statement.counting (linesBehind front (d.text escape ++ back)) =
      (d.group escape front).lines ++ later := by
    rw [lines, Statement.counting, List.filter_cons_of_pos (by rw [counts]; rfl),
      ← Statement.counting, counting]
    rfl
  refine ⟨escape_append starts (Or.inr closed), Statement.groups escape later, ?_⟩
  rw [groups_append starts (Or.inr closed) settled, kept]
  exact congrArg (_ ++ ·) (Statement.groups_lines_append joined (Or.inr final))

/-- A declaration that is written on lines of its own, after a text that is finished, is read back.
It makes one instruction, from its keyword to the end of its last line, and among all variables this
instruction contributes one for each assignment, in order, each with the name, the name's place, the
quoted value and the line of its assignment. -/
theorem declaration_read_back (uri front back : Bytes) (d : Declaration)
    (starts : front.EndsLine) (settled : (ofText uri front).IsSettled)
    (ends : back = [] ∨ back.head? = some Byte.lineFeed) :
    let escape := (ofText uri front).escape
    let doc := ofText uri (front ++ (d.text escape ++ back))
    doc.escape = escape ∧ ∃ before i after, doc.instructions = before ++ i :: after ∧
      i.keyword = some d.keyword ∧
      i.raw = ⟨(front.length + d.indent.length : Nat),
        (front.length + (d.text escape).length : Nat)⟩ ∧
      Variable.all doc.instructions =
        Variable.all before ++ (Variable.ofInstruction i ++ Variable.all after) ∧
      List.Forall₂ (fun (left, a) v => doc.Shows left a v) (d.layout escape front)
        (Variable.ofInstruction i) := by
  intro escape doc
  obtain ⟨same, later, groups⟩ : doc.escape = escape ∧
      ∃ later, doc.groups = (ofText uri front).groups ++ d.group escape front :: later :=
    groups_declaration starts settled d ends
  have text : doc.text = front ++ (d.text escape ++ back) := rfl
  clear_value doc escape
  subst same
  have member : d.group doc.escape front ∈ doc.groups := by
    rw [groups]
    exact List.mem_append_right _ List.mem_cons_self
  have instructions := doc.instructions_eq
  rw [groups, List.map_append, List.map_cons] at instructions
  refine ⟨rfl, _, _, _, instructions, keyword_declaration member, raw_declaration member, ?_, ?_⟩
  · rw [instructions, Variable.all, List.flatMap_append, List.flatMap_cons]
    rfl
  · rw [ofInstruction_declaration member, List.forall₂_map_right_iff, List.forall₂_same]
    rintro ⟨left, a⟩ inside
    obtain ⟨right, stands⟩ := Declaration.exists_of_mem_layout inside
    have whole : doc.text = left ++ (a.text doc.escape ++ (right ++ back)) := by
      rw [text, ← List.append_assoc, stands]
      simp only [List.append_assoc]
    exact shows_after whole d.keyword

/-- A quoted blank, a quoted quote and a comment between the lines: both assignments are found. -/
theorem declaration_read_back_turned :
    ∃ d : Declaration, d.text Byte.backtick = utf8 "env a=\"x `\"y\" `\n# b\n\n  c='\\'" ∧
      (ofText [] (utf8 "# escape=`\nFROM x\n")).IsSettled ∧
      ∃ before i after, (ofText [] (utf8 "# escape=`\nFROM x\n" ++
          (d.text Byte.backtick ++ utf8 "\nRUN x"))).instructions = before ++ i :: after ∧
        (Variable.ofInstruction i).map (fun v => (v.name, v.line)) =
          [(utf8 "a", 2), (utf8 "c", 5)] := by
  let a : Assignment :=
    ⟨utf8 "a", utf8 "x \"y", .double, by decide, by decide +kernel, by decide, by decide, nofun⟩
  let c : Assignment :=
    ⟨utf8 "c", utf8 "\\", .single, by decide, by decide +kernel, by decide, by decide,
      fun _ => by decide⟩
  let blank : Blanks := ⟨utf8 " ", by decide, by decide⟩
  let turn : Turn := ⟨[utf8 "# b", []], by decide, by decide, utf8 "  ", by decide⟩
  let d : Declaration :=
    ⟨.env, rfl, utf8 "env", by decide, [], nofun, blank, a, [(.turn blank turn, c)]⟩
  have settled : (ofText [] (utf8 "# escape=`\nFROM x\n")).IsSettled := by decide +kernel
  have escape : (ofText [] (utf8 "# escape=`\nFROM x\n")).escape = Byte.backtick := by
    decide +kernel
  have read := declaration_read_back [] (utf8 "# escape=`\nFROM x\n") (utf8 "\nRUN x") d
    (Or.inr (by decide)) settled (Or.inr (by decide))
  rw [escape] at read
  obtain ⟨-, before, i, after, instructions, -, -, -, shown⟩ := read
  refine ⟨d, by decide, settled, before, i, after, instructions, ?_⟩
  have same : List.Forall₂ (· = ·) ((d.layout Byte.backtick (utf8 "# escape=`\nFROM x\n")).map
      fun place => (place.2.name, (place.1.count Byte.lineFeed : Int)))
      ((Variable.ofInstruction i).map fun v => (v.name, v.line)) := by
    rw [List.forall₂_map_left_iff, List.forall₂_map_right_iff]
    exact shown.imp fun place v shows => Prod.ext shows.name.symm shows.line.symm
  rw [List.forall₂_eq_eq_eq] at same
  rw [← same]
  decide

end Document

end Dockerfile
