import Dockerfile.Proofs.Statement.Breaking
import Dockerfile.Proofs.Statement.Joining

/-!
# Broken lines

A line may be broken inside the argument of an instruction, by the escape byte and a line feed, and
all instructions say the same.  Two things must not happen at the break: an escape byte right before
it, which would change the meaning of the new one, and a hash sign right after it, which would start
a comment.
-/

namespace Dockerfile

/-! ## What instructions and stages say -/

/-- What an instruction says, wherever it stands. -/
def Instruction.wording (i : Instruction) : Bytes × Option Keyword × Bytes × Form :=
  (i.name, i.keyword, i.argument.text, i.form)

def Instruction.wordingOf (reading : Bytes × Bytes) : Bytes × Option Keyword × Bytes × Form :=
  (reading.1.toUpper, Keyword.ofWord? reading.1, reading.2,
    Form.classify reading.1.toUpper reading.2)

theorem Stage.collect_wording (index : Nat) {instructions instructions' : List Instruction}
    (same : instructions'.map Instruction.wording = instructions.map Instruction.wording) :
    (collect index instructions').map (fun s => (s.name, s.index)) =
      (collect index instructions).map (fun s => (s.name, s.index)) := by
  induction instructions generalizing instructions' index with
  | nil =>
      obtain rfl := List.map_eq_nil_iff.mp same
      rfl
  | cons i rest ih =>
      obtain ⟨i', rest', rfl, first, others⟩ := List.map_eq_cons_iff.mp same
      simp only [Instruction.wording, Prod.mk.injEq] at first
      obtain ⟨-, keyword, text, -⟩ := first
      have opens : i'.opensStage = i.opensStage := by
        rw [Instruction.opensStage, keyword]
        rfl
      have named : (ofArgument? index i'.argument).toList.map (fun s => (s.name, s.index)) =
          (ofArgument? index i.argument).toList.map (fun s => (s.name, s.index)) := by
        rw [ofArgument?, ofArgument?, alias?, text, ← alias?]
        cases alias? i.argument <;> rfl
      rw [collect, collect, opens]
      split
      · rw [List.map_append, List.map_append, named, ih (index + 1) others]
      · exact ih index others

namespace Document

variable {doc : Document}

theorem wording_ofGroup {g : Statement.Group} (member : g ∈ doc.groups) :
    (doc.ofGroup g).wording = Instruction.wordingOf (g.reading doc.escape) := by
  have counts := (mem_countingLines member List.mem_cons_self).2
  have stands : ∀ line ∈ g.lines, line.StandsIn doc.text := fun line inside =>
    standsIn_text (mem_countingLines member inside).1
  have text : (doc.ofGroup g).argument.text = (g.reading doc.escape).2 := by
    change (Statement.ofGroup doc.escape g).stretches.flatMap (Argument.bytesOf doc.text) = _
    rw [Statement.ofGroup_eq doc.escape counts, List.flatMap_append,
      Instruction.flatMap_bytesOf_stretch (stands _ List.mem_cons_self) doc.escape
        (Line.argumentStart_le doc.escape counts),
      Instruction.flatMap_bytesOf_whole doc.escape
        fun line inside => stands line (List.mem_cons_of_mem _ inside)]
    rfl
  have word : (Statement.ofGroup doc.escape g).word = (g.reading doc.escape).1 := by
    rw [Statement.ofGroup_eq doc.escape counts]
    rfl
  change Instruction.wordingOf ((Statement.ofGroup doc.escape g).word,
    (doc.ofGroup g).argument.text) = _
  rw [word, text]

theorem map_wording (doc : Document) : doc.instructions.map Instruction.wording =
    (doc.groups.map (Statement.Group.reading doc.escape)).map Instruction.wordingOf := by
  rw [instructions_eq, List.map_map, List.map_map]
  exact List.map_congr_left fun g member => wording_ofGroup member

theorem first_not_mem_rest {g h : Statement.Group} (member : g ∈ doc.groups)
    (other : h ∈ doc.groups) : h.first ∉ g.rest := by
  intro later
  have forward (line : Line) : ¬ line.stop < line.start :=
    Nat.not_lt.mpr (Nat.le_add_right _ _)
  obtain ⟨i, bound, rfl⟩ := List.mem_iff_getElem.mp member
  obtain ⟨j, bound', rfl⟩ := List.mem_iff_getElem.mp other
  have order := List.pairwise_iff_getElem.mp doc.pairwise_groups
  rcases Nat.lt_trichotomy i j with less | same | greater
  · exact forward _ (order i j bound bound' less _ (List.mem_cons_of_mem _ later) _
      List.mem_cons_self)
  · subst same
    exact forward _ (List.rel_of_pairwise_cons (pairwise_lines_group member) later)
  · exact forward _ (order j i bound' bound greater _ List.mem_cons_self _
      (List.mem_cons_of_mem _ later))

/-- An offset in the argument of an instruction stands on one of its lines, in what that line
contributes, and past the keyword if it is the first line. -/
theorem exists_line_of_covers {g : Statement.Group} (member : g ∈ doc.groups) {o : Nat}
    (covers : (doc.ofGroup g).argument.Covers o) :
    ∃ line ∈ g.lines, ∃ k, o = line.start + k ∧ k < (line.usable doc.escape).length ∧
      ∀ h ∈ doc.groups, h.first = line → line.argumentStart doc.escape ≤ k := by
  obtain ⟨s, inside, contains⟩ := covers
  obtain ⟨low, high⟩ := Argument.contains_iff.mp contains
  have counts := (mem_countingLines member List.mem_cons_self).2
  have stretch : s.toStretch ∈ (Statement.ofGroup doc.escape g).stretches :=
    Argument.toStretch_mem_of_mem_place inside
  rw [Statement.ofGroup_eq doc.escape counts, List.mem_append, List.mem_flatMap] at stretch
  rcases stretch with first | ⟨line, later, whole⟩
  · obtain ⟨place, -⟩ := Statement.mem_stretch first
    rw [place] at low high
    refine ⟨g.first, List.mem_cons_self, o - g.first.start, ?_, ?_, fun h _ _ => ?_⟩ <;>
      simp at low high <;> omega
  · obtain ⟨place, -⟩ := Statement.mem_stretch whole
    rw [place] at low high
    simp only [Int.ofNat_le, Int.ofNat_lt] at low high
    refine ⟨line, List.mem_cons_of_mem _ later, o - line.start, by omega, by omega, ?_⟩
    rintro h there rfl
    exact absurd later (first_not_mem_rest member there)

end Document

/-! ## The document with a line broken -/

/-- A line that counts ends the block of directives. -/
theorem Document.countingLines_of_lines {doc : Document} {before after : List Line} {line : Line}
    (lines : doc.lines = before ++ line :: after) (counts : line.isIgnored = false) :
    Directive.block doc.lines = Directive.block before ∧
      doc.countingLines = Statement.counting (before.drop (Directive.block before).length) ++
        line :: Statement.counting after := by
  have block : Directive.block doc.lines = Directive.block before := by
    rw [lines]
    exact Directive.block_append (Or.inr (Directive.block_of_not_isIgnored counts after))
  refine ⟨block, ?_⟩
  rw [countingLines, block, lines,
    List.drop_append_of_le_length (Directive.length_block_le before)]
  simp [Statement.counting, counts]

def Relocation.shift (lines bytes : Nat) : Relocation where
  number n := n + lines
  offset o := o + bytes
  increasing := (Nat.add_lt_add_right · bytes)

theorem Line.place_shift (lines bytes number start : Nat) (pieces : List Bytes) :
    place (number + lines) (start + bytes) pieces =
      (place number start pieces).map (Line.move (Relocation.shift lines bytes)) := by
  induction pieces generalizing number start with
  | nil => rfl
  | cons raw rest ih =>
      have below := ih (number + 1) (start + raw.length + 1)
      rw [Nat.add_right_comm number, Nat.add_right_comm _ 1, Nat.add_right_comm start] at below
      rw [place, below]
      rfl

/-- A place where a line of a document may be broken: in what the line contributes, and past the
keyword if the line opens an instruction; not after an escape byte, and not before a comment. -/
structure LineBreak (doc : Document) where
  index : Nat
  line : Line
  column : Nat
  found : doc.lines[index]? = some line
  counts : line.isIgnored = false
  inside : column < (line.usable doc.escape).length
  opens : ∀ g ∈ doc.groups, g.first = line → line.argumentStart doc.escape ≤ column
  unescaped : (line.content.take column).getLast? ≠ some doc.escape
  uncommented : (Bytes.trimLeft (line.content.drop column)).head? ≠ some Byte.hash

namespace LineBreak

variable {doc : Document} (b : LineBreak doc)

def text : Bytes :=
  doc.text.take (b.line.start + b.column) ++
    doc.escape :: Byte.lineFeed :: doc.text.drop (b.line.start + b.column)

def document : Document :=
  Document.ofText doc.uri b.text

def first : Line :=
  ⟨b.index, b.line.start, b.line.content.take b.column ++ [doc.escape]⟩

def second : Line :=
  ⟨b.index + 1, b.line.start + b.column + 2, b.line.content.drop b.column⟩

theorem lt_length_content : b.column < b.line.content.length :=
  Nat.lt_of_lt_of_le b.inside (Line.isPrefix_usable doc.escape b.line).length_le

theorem take_content :
    b.line.content.take b.column = (b.line.usable doc.escape).take b.column := by
  obtain ⟨rest, whole⟩ := Line.isPrefix_usable doc.escape b.line
  conv_lhs => rw [← whole]
  exact List.take_append_of_le_length (Nat.le_of_lt b.inside)

theorem lineFeed_not_mem_first : Byte.lineFeed ∉ b.first.content := by
  have plain := Document.lineFeed_not_mem (List.mem_of_getElem? b.found)
  have other : Byte.lineFeed ≠ doc.escape := by
    rcases doc.escape_cases with escape | escape <;> rw [escape] <;> decide
  simp only [first, List.mem_append, List.mem_singleton, not_or]
  exact ⟨fun member => plain (List.mem_of_mem_take member), other⟩

theorem lines_eq : ∃ before after, doc.lines = before ++ b.line :: after ∧
    b.document.lines = before ++ b.first :: b.second ::
      after.map (Line.move (Relocation.shift 1 2)) := by
  obtain ⟨pieces, number, size, cut⟩ := Document.exists_cut_before b.found
  cases below : Line.cut (doc.text.drop b.line.start) with
  | nil => exact absurd below (Line.cut_ne_nil _)
  | cons raw more =>
      have old : doc.lines = Line.place 0 0 pieces ++
          Line.place b.index b.line.start (raw :: more) := by
        rw [doc.lines_eq, Line.split, ← List.take_append_drop b.line.start doc.text, cut,
          Line.place_append, number, size, below]
        simp
      have line : b.line = ⟨b.index, b.line.start, Line.chomp raw⟩ := by
        have found := b.found
        rw [old, List.getElem?_append_right (Nat.le_of_eq (by rw [Line.length_place, number])),
          Line.length_place, number, Nat.sub_self] at found
        exact (Option.some.inj found).symm
      have content : b.line.content = Line.chomp raw := congrArg Line.content line
      have inside : b.column < (Line.chomp raw).length := content ▸ b.lt_length_content
      have short : b.column < raw.length :=
        Nat.lt_of_lt_of_le inside (Line.isPrefix_chomp raw).length_le
      obtain ⟨front, back⟩ := Line.cut_drop below (Nat.le_of_lt short)
      have opening : doc.text.take (b.line.start + b.column) =
          doc.text.take b.line.start ++ b.line.content.take b.column := by
        rw [List.take_add, front, Line.take_chomp (Nat.le_of_lt inside), content]
      have new : Line.cut b.text = pieces ++ b.first.content :: raw.drop b.column :: more := by
        have shape : b.text = doc.text.take b.line.start ++ (b.first.content ++ Byte.lineFeed ::
            (doc.text.drop b.line.start).drop b.column) := by
          simp [text, first, opening, List.drop_drop]
        rw [shape, cut, Line.cut_append, back, Line.cut_of_not_mem b.lineFeed_not_mem_first]
        rfl
      refine ⟨Line.place 0 0 pieces, Line.place (b.index + 1) (b.line.start + raw.length + 1) more,
        ?_, ?_⟩
      · rw [old, line]
        rfl
      · have escape : doc.escape ≠ Byte.carriageReturn := by
          rcases doc.escape_cases with escape | escape <;> rw [escape] <;> decide
        have whole : Line.chomp b.first.content = b.first.content := Line.chomp_concat _ escape
        have length : b.first.content.length = b.column + 1 := by
          simp [first, Nat.min_eq_left (Nat.le_of_lt b.lt_length_content)]
        have behind : b.line.start + (b.column + 1) + 1 + (raw.length - b.column) + 1 =
            b.line.start + raw.length + 1 + 2 := by omega
        rw [← Line.place_shift, b.document.lines_eq]
        change Line.place 0 0 (Line.cut b.text) = _
        rw [new, Line.place_append, number, size, Nat.zero_add, Nat.zero_add, Line.place,
          Line.place, whole, length, Line.chomp_drop inside, ← content, List.length_drop, behind]
        rfl

theorem usable_first : b.first.isContinued doc.escape = true ∧
    b.first.usable doc.escape = (b.line.usable doc.escape).take b.column := by
  rw [← b.take_content]
  exact Line.usable_of_concat doc.escape_not_isBlank rfl b.unescaped

theorem breaksInto : b.line.BreaksInto doc.escape b.first b.second := by
  obtain ⟨continued, front⟩ := b.usable_first
  obtain ⟨ends, back⟩ : b.second.isContinued doc.escape = b.line.isContinued doc.escape ∧
      b.second.usable doc.escape = (b.line.usable doc.escape).drop b.column :=
    Line.usable_of_drop b.inside rfl b.unescaped
  refine ⟨continued, ends, ?_⟩
  rw [front, back, List.take_append_drop]

theorem first_counts : b.first.isIgnored = false := by
  have other : doc.escape ≠ Byte.hash := by
    rcases doc.escape_cases with escape | escape <;> rw [escape] <;> decide
  exact Line.not_isIgnored_of_take rfl b.counts other doc.escape_not_isBlank

theorem second_counts : b.second.isIgnored = false :=
  Line.not_isIgnored_of_drop b.inside rfl b.uncommented

/-- The broken document has the same escape byte, and its groups say the same. -/
theorem readings_eq : b.document.escape = doc.escape ∧
    b.document.groups.map (Statement.Group.reading doc.escape) =
      doc.groups.map (Statement.Group.reading doc.escape) := by
  obtain ⟨before, after, old, new⟩ := b.lines_eq
  obtain ⟨block, counting⟩ := Document.countingLines_of_lines old b.counts
  obtain ⟨block', counting'⟩ := Document.countingLines_of_lines new b.first_counts
  have escape : b.document.escape = doc.escape := by
    rw [Document.escape, Document.escape, block, block']
  refine ⟨escape, ?_⟩
  rw [Document.groups, escape, counting', Document.groups, counting]
  have rest : Statement.counting (b.second :: after.map (Line.move (Relocation.shift 1 2))) =
      b.second :: (Statement.counting after).map (Line.move (Relocation.shift 1 2)) := by
    rw [← Statement.counting_move]
    exact List.filter_cons_of_pos (by simp [b.second_counts])
  rw [rest]
  refine Statement.readings_broken b.breaksInto _ ?_ ?_
  · rw [Statement.groups_move]
    exact Statement.alike_move _ _
  · intro free
    obtain ⟨g, member, first⟩ := Statement.exists_first_eq free b.line (Statement.counting after)
    rw [← counting] at member
    have behind := b.opens g member first
    have usable := b.usable_first.2
    obtain ⟨word, start⟩ := Line.word_of_take rfl doc.escape_not_isBlank usable behind
    refine ⟨word, start, ?_⟩
    rw [usable, List.length_take_of_le (Nat.le_of_lt b.inside)]
    exact behind

/-- Any offset in an argument will do that an escape byte does not precede and a comment would not
follow. -/
theorem exists_of_covers {i : Instruction} (member : i ∈ doc.instructions) {o : Nat}
    (covers : i.argument.Covers o) (unescaped : (doc.text.take o).getLast? ≠ some doc.escape)
    (uncommented : (Bytes.trimLeft (doc.text.drop o)).head? ≠ some Byte.hash) :
    ∃ b : LineBreak doc, b.line.start + b.column = o := by
  rw [Document.instructions_eq] at member
  obtain ⟨g, grouped, rfl⟩ := List.mem_map.mp member
  obtain ⟨line, inside, k, rfl, short, opens⟩ := Document.exists_line_of_covers grouped covers
  obtain ⟨there, counts⟩ := Document.mem_countingLines grouped inside
  obtain ⟨index, found⟩ := List.mem_iff_getElem?.mp there
  obtain ⟨right, rest⟩ := (Document.standsIn_text there).drop_start
  have reach : k ≤ line.content.length :=
    Nat.le_of_lt (Nat.lt_of_lt_of_le short (Line.isPrefix_usable doc.escape line).length_le)
  refine ⟨⟨index, line, k, found, counts, short, opens, ?_, ?_⟩, rfl⟩
  · rw [List.take_add, rest, List.take_append_of_le_length reach, List.getLast?_append] at unescaped
    intro last
    simp [last] at unescaped
  · rw [← List.drop_drop, rest, List.drop_append_of_le_length reach,
      Bytes.trimLeft_append] at uncommented
    intro comment
    obtain ⟨rest, starts⟩ := List.head?_eq_some_iff.mp comment
    simp [starts] at uncommented

theorem wording_eq (b : LineBreak doc) :
    b.document.instructions.map Instruction.wording = doc.instructions.map Instruction.wording := by
  obtain ⟨escape, readings⟩ := b.readings_eq
  rw [Document.map_wording, escape, readings, ← Document.map_wording]

end LineBreak

/-- A break inside an argument, by the escape byte and a line feed, changes nothing that is said.
There are as many instructions, and one by one they have the same keyword, argument text and form,
the same words, flags and references; and the stages have the same names and indexes. -/
theorem Document.break_keeps_wording (uri text : Bytes) (o : Nat)
    (inside : ∃ i ∈ (ofText uri text).instructions, i.argument.Covers o)
    (unescaped : (text.take o).getLast? ≠ some (ofText uri text).escape)
    (uncommented : (Bytes.trimLeft (text.drop o)).head? ≠ some Byte.hash) :
    let doc := ofText uri text
    let broken := ofText uri (text.take o ++ doc.escape :: Byte.lineFeed :: text.drop o)
    broken.instructions.length = doc.instructions.length ∧
    List.Forall₂ (fun i j : Instruction => j.name = i.name ∧ j.isKnown = i.isKnown ∧
        j.argument.text = i.argument.text ∧ j.form = i.form ∧
        Word.all j.argument.text = Word.all i.argument.text ∧
        Flag.leading (Word.all j.argument.text) = Flag.leading (Word.all i.argument.text) ∧
        Reference.all j.argument.text = Reference.all i.argument.text)
      doc.instructions broken.instructions ∧
    (Stage.all broken.instructions).map (fun s => (s.name, s.index)) =
      (Stage.all doc.instructions).map (fun s => (s.name, s.index)) := by
  obtain ⟨i, member, covers⟩ := inside
  obtain ⟨b, rfl⟩ := LineBreak.exists_of_covers member covers unescaped uncommented
  have same := b.wording_eq
  have all : List.Forall₂ (· = ·) ((ofText uri text).instructions.map Instruction.wording)
      (b.document.instructions.map Instruction.wording) := by
    rw [same]
    exact List.forall₂_refl _
  rw [List.forall₂_map_left_iff, List.forall₂_map_right_iff] at all
  refine ⟨all.length_eq.symm, all.imp ?_, Stage.collect_wording 0 same⟩
  intro i j wording
  simp only [Instruction.wording, Prod.mk.injEq] at wording
  obtain ⟨name, keyword, text, form⟩ := wording
  simp [Instruction.isKnown, name, keyword, text, form]

/-- A reference that is broken after its sign is the same reference. -/
theorem Document.break_keeps_wording_reference :
    (ofText [] (utf8 "FROM x AS a\nRUN $\\\ns \\\n")).instructions.map
        (fun i => Reference.all i.argument.text) = [[], [⟨utf8 "s", 0, 2⟩]] ∧
    (Stage.all (ofText [] (utf8 "FROM x AS a\nRUN $\\\ns \\\n")).instructions).map
        (fun s => (s.name, s.index)) = [(utf8 "a", 0)] := by
  obtain ⟨-, same, stages⟩ := break_keeps_wording [] (utf8 "FROM x AS a\nRUN $s \\\n") 17
    (by unfold Argument.Covers; decide +kernel) (by decide +kernel) (by decide)
  have references := same.imp fun i j all => (all.2.2.2.2.2.2).symm
  rw [← List.forall₂_map_right_iff, ← List.forall₂_map_left_iff,
    List.forall₂_eq_eq_eq] at references
  exact ⟨references.symm.trans (by decide +kernel), stages.trans (by decide +kernel)⟩

end Dockerfile
