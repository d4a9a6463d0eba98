import Dockerfile.Proofs.ArrayForm
import Dockerfile.Proofs.Reported
import Dockerfile.Proofs.Text.Case

/-!
# One vocabulary for words and names

An instruction finds its keyword by the word in the text, and the form of its argument by the name,
which is that word in upper case.  Since upper case is taken once and for all, both ways lead to the
same entry of the vocabulary.
-/

namespace Dockerfile

namespace Keyword

theorem ofWord?_toUpper (word : Bytes) : ofWord? word.toUpper = ofWord? word := by
  rw [ofWord?, Bytes.toUpper_toUpper, ← ofWord?]

/-- A word is found exactly if its upper case is in the vocabulary. -/
theorem isSome_ofWord?_iff {word : Bytes} :
    (ofWord? word).isSome = true ↔ word.toUpper ∈ all.map spelling := by
  simp only [Option.isSome_iff_exists, ofWord?_eq_some_iff, List.mem_map]
  constructor
  · rintro ⟨k, spelled⟩
    exact ⟨k, k.mem_all, spelled.symm⟩
  · rintro ⟨k, -, spelled⟩
    exact ⟨k, spelled.symm⟩

end Keyword

namespace Instruction

/-- The bytes of a text at which the keyword of the instruction stands. -/
def wordIn (text : Bytes) (i : Instruction) : Bytes :=
  text.slice i.keywordSpan.start.toNat i.keywordSpan.stop.toNat

/-- What an instruction records of its keyword: the word in upper case, and the entry that the word
and its upper case have in common.  It is known exactly if its name is in the vocabulary, and the
entry is then the one of that name.  Its argument has array form exactly if the entry allows it and
an array is read behind the flags. -/
structure IsLookedUp (text : Bytes) (i : Instruction) : Prop where
  name : i.name = (i.wordIn text).toUpper
  word : i.keyword = Keyword.ofWord? (i.wordIn text)
  again : i.keyword = Keyword.ofWord? i.name
  known : i.isKnown = true ↔ i.name ∈ Keyword.all.map Keyword.spelling
  entry : ∀ k, i.keyword = some k ↔ i.name = k.spelling
  form : i.form = .array ↔ (∃ k, i.keyword = some k ∧ k.hasArrayForm = true) ∧
    (StringArray.read? (Form.dropFlags false i.argument.text)).isSome = true

/-- An instruction is looked up as soon as its statement holds the word of its keyword. -/
theorem isLookedUp_ofStatement {text : Bytes} {escape : UInt8} {s : Statement}
    (stands : (ofStatement text escape s).wordIn text = s.word) :
    (ofStatement text escape s).IsLookedUp text where
  name := by rw [stands]; rfl
  word := by rw [stands]; rfl
  again := (Keyword.ofWord?_toUpper s.word).symm
  known := Keyword.isSome_ofWord?_iff
  entry := fun _ => Keyword.ofWord?_eq_some_iff
  form := by
    change Form.classify s.word.toUpper _ = .array ↔ (∃ k, Keyword.ofWord? s.word = some k ∧ _) ∧ _
    simp only [Form.classify_eq_array_iff_spelled, Bytes.toUpper_toUpper,
      Keyword.ofWord?_eq_some_iff]
    rfl

end Instruction

theorem Line.slice_word (escape : UInt8) {line : Line} (counts : line.isIgnored = false) :
    line.content.slice line.content.indent (line.wordStop escape) = line.word escape := by
  have room := indent_le_length_usable escape counts
  have front : line.word escape <+: line.content.drop line.content.indent := by
    obtain ⟨tail, split⟩ := line.isPrefix_usable escape
    nth_rewrite 2 [← split]
    rw [List.drop_append_of_le_length room]
    exact (List.takeWhile_prefix _).trans (List.prefix_append _ _)
  rw [Bytes.slice, wordStop, Nat.add_sub_cancel_left]
  exact (List.prefix_iff_eq_take.mp front).symm

namespace Document

variable {doc : Document}

/-- At the span of its keyword stands the word that an instruction was read from. -/
theorem wordIn_ofGroup {g : Statement.Group} (member : g ∈ doc.groups) :
    (doc.ofGroup g).wordIn doc.text = (Statement.ofGroup doc.escape g).word := by
  obtain ⟨there, counts⟩ := mem_countingLines member (List.mem_cons_self : g.first ∈ g.lines)
  have inside : g.first.wordStop doc.escape ≤ g.first.content.length :=
    Nat.le_trans (Line.wordStop_le doc.escape counts)
      (g.first.isPrefix_usable doc.escape).length_le
  rw [Instruction.wordIn, keywordSpan_ofGroup member, Int.toNat_natCast, Int.toNat_natCast,
    (standsIn_text there).slice_eq inside, Line.slice_word doc.escape counts,
    Statement.ofGroup_eq doc.escape counts]

/-- Upper case is taken character by character and stays, so a word and its upper case are looked up
as the same keyword.  Hence every instruction of a document records one entry of the vocabulary,
whether its word or its name is looked up. -/
theorem lookups_agree (doc : Document) :
    (∀ word : Bytes, word.toUpper = Bytes.ofChars (word.chars.map upperChar) ∧
      word.toUpper.toUpper = word.toUpper ∧
      Keyword.ofWord? word.toUpper = Keyword.ofWord? word) ∧
    ∀ i ∈ doc.instructions, i.IsLookedUp doc.text := by
  constructor
  · intro word
    exact ⟨word.toUpper_eq, word.toUpper_toUpper, Keyword.ofWord?_toUpper word⟩
  · intro i member
    rw [instructions_eq] at member
    obtain ⟨g, grouped, rfl⟩ := List.mem_map.mp member
    exact Instruction.isLookedUp_ofStatement (wordIn_ofGroup grouped)

/-- A word with a long `ſ` is a keyword and has an array, and a stray byte makes a name that is in
no vocabulary and whose array is plain text. -/
theorem lookups_agree_long_s :
    let doc := ofText [] (utf8 "ſhell [\"x\"]\n" ++ 0xff :: utf8 "run [\"x\"]")
    let known : Instruction :=
      { name := utf8 "SHELL"
        keyword := some .shell
        keywordSpan := ⟨0, 6⟩
        argument := ⟨utf8 "[\"x\"]", Byte.backslash, [⟨⟨0, ⟨7, 12⟩⟩, 0⟩], 12⟩
        form := .array
        raw := ⟨0, 12⟩ }
    let unknown : Instruction :=
      { name := utf8 "\ufffdRUN"
        keyword := none
        keywordSpan := ⟨13, 17⟩
        argument := ⟨utf8 "[\"x\"]", Byte.backslash, [⟨⟨1, ⟨18, 23⟩⟩, 0⟩], 23⟩
        form := .plain
        raw := ⟨13, 23⟩ }
    doc.instructions = [known, unknown] ∧ known.IsLookedUp doc.text ∧
      unknown.IsLookedUp doc.text := by
  intro doc known unknown
  have listed : doc.instructions = [known, unknown] := by decide +kernel
  obtain ⟨-, agree⟩ := lookups_agree doc
  rw [listed, List.forall_mem_cons] at agree
  exact ⟨listed, agree.1, agree.2 unknown List.mem_cons_self⟩

end Document

end Dockerfile
