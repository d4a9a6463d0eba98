import Dockerfile.Proofs.Word
import Mathlib.Data.List.Forall2

/-!
# Splitting loses nothing

A word reaches up to the first blank outside quotes, so only the last word of a text can leave a
quote open, and what stands between the words is blank.  Words that are put together again with one
space between them are split into the same words.  The words are the leading flags and the operands,
and a flag is its name and its value with two hyphens and an equals sign.
-/

namespace Dockerfile

namespace Quote

/-- The state after one more byte, whatever it is. -/
def turn (state : Option Quote) (b : UInt8) : Option Quote :=
  match state with
  | some q => if b == q.byte then none else some q
  | none => ofByte? b

/-- The quote that is open after some bytes. -/
def after (state : Option Quote) (text : Bytes) : Option Quote :=
  text.foldl turn state

@[simp]
theorem after_cons (state : Option Quote) (b : UInt8) (rest : Bytes) :
    after state (b :: rest) = after (turn state b) rest := rfl

theorem turn_of_next {state next : Option Quote} {b : UInt8}
    (goes : Quote.next state b = some next) : turn state b = next := by
  cases state with
  | some q =>
      rw [Quote.next] at goes
      rw [turn]
      split at goes <;> simp_all
  | none =>
      rw [Quote.next] at goes
      split at goes
      · cases goes
      · exact Option.some.inj goes

/-- No blank of the text stands outside quotes. -/
def Unbroken (state : Option Quote) (text : Bytes) : Prop :=
  ∀ k b, text[k]? = some b → Byte.isBlank b = true → after state (text.take k) ≠ none

theorem unbroken_nil (state : Option Quote) : Unbroken state [] := by
  intro k b found
  cases found

theorem unbroken_cons_iff {state : Option Quote} {b : UInt8} {rest : Bytes} :
    Unbroken state (b :: rest) ↔
      ∃ next, Quote.next state b = some next ∧ Unbroken next rest := by
  constructor
  · intro whole
    cases goes : Quote.next state b with
    | none =>
        obtain ⟨rfl, blank⟩ := next_eq_none_iff.mp goes
        exact absurd rfl (whole 0 b rfl blank)
    | some next =>
        refine ⟨next, rfl, ?_⟩
        intro k c found blank
        have later := whole (k + 1) c found blank
        rwa [List.take_succ_cons, after_cons, turn_of_next goes] at later
  · rintro ⟨next, goes, whole⟩ k c found blank
    cases k with
    | zero =>
        rintro rfl
        obtain rfl := Option.some.inj found
        cases goes.symm.trans (next_eq_none_iff.mpr ⟨rfl, blank⟩)
    | succ k =>
        rw [List.take_succ_cons, after_cons, turn_of_next goes]
        exact whole k c found blank

end Quote

namespace Word

/-- A word is unbroken, and a blank after it stands outside quotes. -/
theorem length_spec (state : Option Quote) (text : Bytes) :
    Quote.Unbroken state (text.take (length state text)) ∧
      ∀ b, text[length state text]? = some b →
        Byte.isBlank b = true ∧ Quote.after state (text.take (length state text)) = none := by
  induction text generalizing state with
  | nil => exact ⟨Quote.unbroken_nil state, nofun⟩
  | cons b rest ih =>
      rw [length]
      cases goes : Quote.next state b with
      | none =>
          obtain ⟨rfl, blank⟩ := Quote.next_eq_none_iff.mp goes
          refine ⟨Quote.unbroken_nil none, ?_⟩
          intro c found
          obtain rfl := Option.some.inj found
          exact ⟨blank, rfl⟩
      | some next =>
          obtain ⟨whole, ends⟩ := ih next
          dsimp only
          rw [List.take_succ_cons, Quote.after_cons, Quote.turn_of_next goes,
            List.getElem?_cons_succ]
          exact ⟨Quote.unbroken_cons_iff.mpr ⟨next, goes, whole⟩, ends⟩

/-- An unbroken text ends where a blank outside quotes follows. -/
theorem length_append {state : Option Quote} {word rest : Bytes}
    (whole : Quote.Unbroken state word)
    (ends : ∀ b, rest.head? = some b → Byte.isBlank b = true ∧ Quote.after state word = none) :
    length state (word ++ rest) = word.length := by
  induction word generalizing state with
  | nil =>
      cases rest with
      | nil => rfl
      | cons b rest =>
          obtain ⟨blank, rfl⟩ := ends b rfl
          exact length_eq_zero_iff.mpr blank
  | cons b word ih =>
      obtain ⟨next, goes, later⟩ := Quote.unbroken_cons_iff.mp whole
      rw [Quote.after_cons, Quote.turn_of_next goes] at ends
      rw [List.cons_append, length, goes, List.length_cons, ← ih later ends]

theorem scan_append {word rest : Bytes} (filled : word ≠ []) (whole : Quote.Unbroken none word)
    (ends : ∀ b, rest.head? = some b → Byte.isBlank b = true ∧ Quote.after none word = none)
    (index : Nat) :
    Tokens.scan read index 0 (word ++ rest) = ⟨word, index, index + word.length⟩ ::
      Tokens.scan read (index + word.length) 0 rest := by
  have size := length_append whole ends
  cases word with
  | nil => exact absurd rfl filled
  | cons b word =>
      rw [List.length_cons] at size ⊢
      have found : read index (b :: (word ++ rest)) =
          some (⟨b :: word, index, index + (word.length + 1)⟩, word.length + 1) := by
        rw [List.cons_append] at size
        simp [read, size]
      rw [List.cons_append, Tokens.scan_some read found, List.drop_left]

/-- Texts that are put together with one space between them are split into the same texts, if each
is a word and only the last one leaves a quote open. -/
theorem map_text_scan_join {texts : List Bytes}
    (words : ∀ text ∈ texts, text ≠ [] ∧ Quote.Unbroken none text)
    (closed : ∀ text ∈ texts.dropLast, Quote.after none text = none) (index : Nat) :
    (Tokens.scan read index 0 (Bytes.join [Byte.space] texts)).map Word.text = texts := by
  induction texts generalizing index with
  | nil => rfl
  | cons first rest ih =>
      obtain ⟨⟨filled, whole⟩, later⟩ := List.forall_mem_cons.mp words
      cases rest with
      | nil =>
          have ends (b : UInt8) (next : ([] : Bytes).head? = some b) :
              Byte.isBlank b = true ∧ Quote.after none first = none := nomatch next
          have alone := scan_append filled whole ends index
          rw [List.append_nil] at alone
          rw [Bytes.join, List.intercalate_singleton, alone]
          rfl
      | cons second rest =>
          rw [List.dropLast_cons_cons] at closed
          obtain ⟨balanced, others⟩ := List.forall_mem_cons.mp closed
          have space : Byte.isBlank Byte.space = true := rfl
          rw [Bytes.join_cons_cons, List.append_assoc, scan_append filled whole
            (fun b head => ⟨by rw [← Option.some.inj head]; rfl, balanced⟩), List.singleton_append,
            Tokens.scan_none read (by rw [read, length_eq_zero_iff.mpr space]), List.map_cons,
            ih later others]

/-- The word is what a text has between its indexes.  It reaches up to the first blank outside
quotes or to the end of the text. -/
structure IsCut (text : Bytes) (word : Word) : Prop where
  filled : word.start < word.stop
  bound : word.stop ≤ text.length
  bytes : word.text = text.slice word.start word.stop
  unbroken : Quote.Unbroken none word.text
  ends : word.stop = text.length ∨ ∃ b, text[word.stop]? = some b ∧ Byte.isBlank b = true ∧
    Quote.after none word.text = none

theorem isCut_of_mem {text : Bytes} {word : Word} (member : word ∈ all text) :
    word.IsCut text := by
  have stands := (all_standsIn text).1 word member
  obtain ⟨n, size, -, found⟩ := Tokens.exists_read_of_mem
    (fun _ _ _ _ taken => (read_eq_some taken).2.1) member
  obtain ⟨whole, ends⟩ := length_spec none (text.drop n)
  obtain ⟨sized, -, rfl⟩ := read_eq_some found
  rw [← sized] at whole ends
  refine ⟨stands.filled, stands.bound, stands.bytes, whole, ?_⟩
  rcases Nat.lt_or_eq_of_le stands.bound with inside | reached
  · have next := List.getElem?_eq_getElem inside
    rw [← List.getElem?_drop] at next
    obtain ⟨blank, closed⟩ := ends _ next
    exact Or.inr ⟨_, List.getElem?_eq_getElem inside, blank, closed⟩
  · exact Or.inl reached

/-- A word that is not the last leaves no quote open. -/
theorem after_eq_none_of_mem_dropLast {text : Bytes} {word : Word}
    (member : word ∈ (all text).dropLast) : Quote.after none word.text = none := by
  have filled : all text ≠ [] := by
    intro none
    rw [none] at member
    cases member
  have ordered := (all_standsIn text).2
  rw [← List.dropLast_concat_getLast filled] at ordered
  have before := (List.pairwise_append.mp ordered).2.2 word member _ (List.mem_singleton_self _)
  have last := isCut_of_mem (List.getLast_mem filled)
  rcases (isCut_of_mem (List.dropLast_sublist _ |>.subset member)).ends with
    reached | ⟨-, -, -, closed⟩
  · have inside := last.filled
    have bound := last.bound
    omega
  · exact closed

/-- What no word covers is blank. -/
theorem isBlank_of_not_covered {text : Bytes} {k : Nat} {b : UInt8} (found : text[k]? = some b)
    (free : ∀ word ∈ all text, ¬ (word.start ≤ k ∧ k < word.stop)) : Byte.isBlank b = true := by
  refine Tokens.scan_induction read text
    (motive := fun n words => n ≤ k → (∀ word ∈ words, ¬ (word.start ≤ k ∧ k < word.stop)) →
      Byte.isBlank b = true) ?_ ?_ ?_ ?_ 0 (Nat.zero_le k) free
  · intro n rest word size taken
    exact (read_eq_some taken).2.1
  · intro n past low _
    rw [List.getElem?_eq_none (by omega)] at found
    cases found
  · intro n words inside passed ih low free
    rcases Nat.lt_or_eq_of_le low with less | rfl
    · exact ih less free
    · obtain ⟨-, rfl⟩ := List.getElem?_eq_some_iff.mp found
      have none := read_eq_none passed
      rwa [List.drop_eq_getElem_cons inside, length_eq_zero_iff] at none
  · intro n word size words inside taken ih low free
    obtain ⟨-, -, rfl⟩ := read_eq_some taken
    obtain ⟨here, later⟩ := List.forall_mem_cons.mp free
    dsimp only at here
    exact ih (by omega) later

/-- Putting the words together with one space between them and splitting again gives them back. -/
theorem map_text_all_join (text : Bytes) :
    (all (Bytes.join [Byte.space] ((all text).map Word.text))).map Word.text =
      (all text).map Word.text := by
  refine map_text_scan_join ?_ ?_ 0
  · intro bytes member
    obtain ⟨word, listed, rfl⟩ := List.mem_map.mp member
    have cut := isCut_of_mem listed
    refine ⟨?_, cut.unbroken⟩
    rw [cut.bytes]
    apply List.ne_nil_of_length_pos
    rw [Bytes.length_slice _ cut.bound]
    exact Nat.sub_pos_of_lt cut.filled
  · intro bytes member
    rw [← List.map_dropLast] at member
    obtain ⟨word, listed, rfl⟩ := List.mem_map.mp member
    exact after_eq_none_of_mem_dropLast listed

/-- A piece is what a text has between its indexes. -/
structure IsPart (text : Bytes) (piece : Word) : Prop where
  order : piece.start ≤ piece.stop
  bound : piece.stop ≤ text.length
  bytes : text.slice piece.start piece.stop = piece.text

end Word

namespace Flag

/-- The flag as it is written: the name after two hyphens, and the value after an equals sign. -/
def spelling (flag : Flag) : Bytes :=
  utf8 "--" ++ flag.name.text ++
    match flag.value with
    | some value => Byte.equals :: value.text
    | none => []

/-- The word is the flag written out, and the flag's name and value are parts of the text. -/
structure IsWritten (text : Bytes) (word : Word) (flag : Flag) : Prop where
  spells : word.text = flag.spelling
  plain : Byte.equals ∉ flag.name.text
  name : flag.name.IsPart text
  value : ∀ value, flag.value = some value → value.IsPart text

theorem exists_body {word : Word} (flag : word.isFlag = true) :
    ∃ body, word.text = utf8 "--" ++ body ∧ word.text.drop 2 = body := by
  obtain ⟨body, split⟩ := List.isPrefixOf_iff_prefix.mp flag
  have hyphens : (utf8 "--").length = 2 := rfl
  exact ⟨body, split.symm, by rw [← split, ← hyphens, List.drop_left]⟩

theorem spelling_ofWord {word : Word} (flag : word.isFlag = true) :
    (ofWord word).spelling = word.text := by
  obtain ⟨body, split, tail⟩ := exists_body flag
  have parts := List.takeWhile_append_dropWhile (l := body) (p := (· != Byte.equals))
  have stops := List.head?_dropWhile_not (· != Byte.equals) body
  rw [spelling, ofWord]
  dsimp only
  rw [tail, split]
  cases rest : body.dropWhile (· != Byte.equals) with
  | nil =>
      rw [rest] at parts
      rw [List.append_assoc, parts]
  | cons b value =>
      rw [rest] at parts stops
      obtain rfl : b = Byte.equals := by simpa using stops
      rw [List.append_assoc, parts]

theorem name_ofWord {text : Bytes} {word : Word} (stands : word.StandsIn text)
    (flag : word.isFlag = true) : (ofWord word).name.IsPart text := by
  obtain ⟨body, split, tail⟩ := exists_body flag
  have parts := List.takeWhile_append_dropWhile (l := body) (p := (· != Byte.equals))
  have cut := Bytes.slice_append_append (utf8 "--") (body.takeWhile (· != Byte.equals))
    (body.dropWhile (· != Byte.equals))
  have hyphens : (utf8 "--").length = 2 := rfl
  have bound := stands.bound
  have size := congrArg List.length split
  rw [stands.bytes, Bytes.length_slice _ bound, List.length_append, hyphens, ← parts,
    List.length_append] at size
  have filled := stands.filled
  rw [parts, ← split, stands.bytes, hyphens, Bytes.slice_slice (by omega)] at cut
  rw [ofWord]
  dsimp only
  rw [tail]
  refine ⟨Nat.le_add_right _ _, ?_, ?_⟩
  · dsimp only
    omega
  · dsimp only
    rw [Nat.add_assoc]
    exact cut

theorem isWritten_ofWord {text : Bytes} {word : Word} (stands : word.StandsIn text)
    (flag : word.isFlag = true) : IsWritten text word (ofWord word) := by
  refine ⟨(spelling_ofWord flag).symm, ?_, name_ofWord stands flag, ?_⟩
  · intro member
    have other := List.all_eq_true.mp List.all_takeWhile _ member
    simp at other
  · intro value found
    obtain ⟨order, stop, bytes, -⟩ := value_ofWord stands flag found
    have bound := stands.bound
    exact ⟨order, by omega, bytes.symm⟩

theorem forall₂_leading {text : Bytes} {words : List Word}
    (stand : ∀ word ∈ words, word.StandsIn text) :
    List.Forall₂ (IsWritten text) (words.takeWhile Word.isFlag) (leading words) := by
  rw [leading, List.forall₂_map_right_iff, List.forall₂_same]
  intro word member
  exact isWritten_ofWord (stand word ((List.takeWhile_sublist _).subset member))
    (List.all_eq_true.mp List.all_takeWhile word member)

end Flag

namespace Word

/-- Words and flags keep every byte of a text but the blanks between words: the words are cut at the
blanks outside quotes and can be put together again, and each of them is a flag that is made of its
name and value, or an operand. -/
theorem splitting_loses_nothing (text : Bytes) :
    let words := all text
    ((∀ word ∈ words, word.IsCut text) ∧ words.Pairwise fun a b => a.stop ≤ b.start) ∧
    (∀ k b, text[k]? = some b → (∀ word ∈ words, ¬ (word.start ≤ k ∧ k < word.stop)) →
      b = Byte.space ∨ b = Byte.tab) ∧
    (∀ word ∈ words.dropLast, Quote.after none word.text = none) ∧
    (all (Bytes.join [Byte.space] (words.map Word.text))).map Word.text = words.map Word.text ∧
    ∃ flags, words = flags ++ operands words ∧ (∀ word ∈ flags, word.isFlag = true) ∧
      (∀ word, (operands words).head? = some word → word.isFlag = false) ∧
      List.Forall₂ (Flag.IsWritten text) flags (Flag.leading words) := by
  intro words
  obtain ⟨stand, ordered⟩ := all_standsIn text
  refine ⟨⟨fun word => isCut_of_mem, ordered⟩, ?_, fun word => after_eq_none_of_mem_dropLast,
    map_text_all_join text, words.takeWhile isFlag, List.takeWhile_append_dropWhile.symm,
    List.all_eq_true.mp List.all_takeWhile, ?_, Flag.forall₂_leading stand⟩
  · intro k b found free
    simpa [Byte.isBlank] using isBlank_of_not_covered found free
  · intro word first
    have stops := List.head?_dropWhile_not isFlag words
    rw [operands] at first
    rwa [first] at stops

-- A blank inside quotes stays in its word, and a quote that is not closed takes the rest.
example : (all (utf8 "--a=\"x y\" b \"c d")).map Word.text =
    [utf8 "--a=\"x y\"", utf8 "b", utf8 "\"c d"] := by decide

end Word

end Dockerfile
