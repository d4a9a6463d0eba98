import Dockerfile.Proofs.Text.Boundary
import Dockerfile.Proofs.Text.Bytes
import Dockerfile.Proofs.Text.Tokens
import Dockerfile.Word

/-!
# Where words stand

Words are not empty, lie in their text and follow one another; each starts at the text's start or
after a blank, and ends at the text's end or before a blank.  A flag's value is the end of its word
after an equals sign.
-/

namespace Dockerfile

theorem Quote.next_eq_none_iff {state : Option Quote} {b : UInt8} :
    Quote.next state b = none ↔ state = none ∧ Byte.isBlank b = true := by
  cases state with
  | some q =>
      rw [Quote.next]
      split <;> exact ⟨nofun, nofun⟩
  | none =>
      rw [Quote.next]
      split
      · exact ⟨fun _ => ⟨rfl, ‹_›⟩, fun _ => rfl⟩
      · exact ⟨nofun, fun blank => absurd blank.2 ‹_›⟩

namespace Word

theorem isBlank_length {state : Option Quote} {text : Bytes} {b : UInt8}
    (next : text[length state text]? = some b) : Byte.isBlank b = true := by
  induction text generalizing state with
  | nil => cases next
  | cons a rest ih =>
      rw [length] at next
      split at next
      · rename_i ends
        rw [← Option.some.inj next]
        exact (Quote.next_eq_none_iff.mp ends).2
      · exact ih next

theorem length_eq_zero_iff {b : UInt8} {rest : Bytes} :
    length none (b :: rest) = 0 ↔ Byte.isBlank b = true := by
  rw [length]
  split
  · rename_i ends
    exact ⟨fun _ => (Quote.next_eq_none_iff.mp ends).2, fun _ => rfl⟩
  · rename_i state goes
    constructor
    · intro empty
      exact absurd empty (Nat.succ_ne_zero _)
    · intro blank
      cases goes.symm.trans (Quote.next_eq_none_iff.mpr ⟨rfl, blank⟩)

theorem read_eq_some {index size : Nat} {text : Bytes} {word : Word}
    (found : read index text = some (word, size)) :
    size = length none text ∧ 0 < size ∧ word = ⟨text.take size, index, index + size⟩ := by
  unfold read at found
  split at found
  · cases found
  · rename_i n counted
    obtain ⟨rfl, rfl⟩ := Prod.mk.inj (Option.some.inj found)
    exact ⟨counted.symm, Nat.succ_pos n, rfl⟩

theorem read_eq_none {index : Nat} {text : Bytes} (passed : read index text = none) :
    length none text = 0 := by
  unfold read at passed
  split at passed
  · assumption
  · cases passed

/-- The word is what a text has between its indexes, cut off by blanks or by the text's ends. -/
structure StandsIn (text : Bytes) (word : Word) : Prop where
  filled : word.start < word.stop
  bound : word.stop ≤ text.length
  bytes : word.text = text.slice word.start word.stop
  before : ∀ n b, word.start = n + 1 → text[n]? = some b → Byte.isBlank b = true
  after : ∀ b, text[word.stop]? = some b → Byte.isBlank b = true

/-- Between words: at the start of the text, after a blank, at a blank, or at its end. -/
def Between (text : Bytes) (n : Nat) : Prop :=
  (∀ m b, n = m + 1 → text[m]? = some b → Byte.isBlank b = true) ∨
    ∀ b, text[n]? = some b → Byte.isBlank b = true

theorem between_of_read_eq_none {text : Bytes} {n : Nat} (inside : n < text.length)
    (passed : read n (text.drop n) = none) : Between text (n + 1) := by
  have none := read_eq_none passed
  rw [List.drop_eq_getElem_cons inside, length_eq_zero_iff] at none
  refine Or.inl ?_
  rintro m b same found
  cases Nat.succ.inj same
  rw [List.getElem?_eq_getElem inside] at found
  rw [← Option.some.inj found]
  exact none

theorem between_of_read_eq_some {text : Bytes} {n size : Nat} {word : Word}
    (taken : read n (text.drop n) = some (word, size)) : Between text (n + size) := by
  refine Or.inr ?_
  intro b next
  rw [← List.getElem?_drop, (read_eq_some taken).1] at next
  exact isBlank_length next

theorem standsIn_of_read {text : Bytes} {n size : Nat} {word : Word} (inside : n < text.length)
    (between : Between text n) (taken : read n (text.drop n) = some (word, size)) :
    word.StandsIn text := by
  have ends := between_of_read_eq_some taken
  obtain ⟨counted, positive, rfl⟩ := read_eq_some taken
  have short := length_le none (text.drop n)
  rw [List.length_drop] at short
  have solid : Byte.isBlank text[n] = false := by
    cases blank : Byte.isBlank text[n] with
    | false => rfl
    | true =>
        rw [List.drop_eq_getElem_cons inside, length_eq_zero_iff.mpr blank] at counted
        omega
  refine ⟨Nat.lt_add_of_pos_right positive, ?_, ?_, ?_, ?_⟩
  · change n + size ≤ text.length
    omega
  · rw [Bytes.slice, Nat.add_sub_cancel_left]
  · rcases between with started | blank
    · exact started
    · have impossible := blank _ (List.getElem?_eq_getElem inside)
      rw [solid] at impossible
      cases impossible
  · intro b next
    rw [← List.getElem?_drop, counted] at next
    exact isBlank_length next

theorem all_standsIn (text : Bytes) :
    (∀ word ∈ all text, word.StandsIn text) ∧
      (all text).Pairwise fun a b => a.stop ≤ b.start := by
  have scanned : Between text 0 → (∀ word ∈ all text, word.StandsIn text ∧ 0 ≤ word.start) ∧
      (all text).Pairwise fun a b => a.stop ≤ b.start := by
    refine Tokens.scan_induction read text
      (motive := fun n words => Between text n →
        (∀ word ∈ words, word.StandsIn text ∧ n ≤ word.start) ∧
          words.Pairwise fun a b => a.stop ≤ b.start) ?_ ?_ ?_ ?_ 0
    · intro n rest word size found
      exact (read_eq_some found).2.1
    · intro n _ _
      exact ⟨nofun, List.Pairwise.nil⟩
    · intro n words inside passed ih _
      obtain ⟨stand, ordered⟩ := ih (between_of_read_eq_none inside passed)
      exact ⟨fun word member => ⟨(stand word member).1, Nat.le_of_succ_le (stand word member).2⟩,
        ordered⟩
    · intro n word size words inside taken ih between
      obtain ⟨stand, ordered⟩ := ih (between_of_read_eq_some taken)
      have here := standsIn_of_read inside between taken
      obtain ⟨-, -, rfl⟩ := read_eq_some taken
      constructor
      · intro other member
        rcases List.mem_cons.mp member with rfl | later
        · exact ⟨here, Nat.le_refl _⟩
        · exact ⟨(stand other later).1, Nat.le_trans (Nat.le_add_right _ _) (stand other later).2⟩
      · exact List.Pairwise.cons (fun other later => (stand other later).2) ordered
  obtain ⟨stand, ordered⟩ := scanned (Or.inl nofun)
  exact ⟨fun word member => (stand word member).1, ordered⟩

namespace StandsIn

variable {text : Bytes} {word : Word}

theorem isLoose_start (stands : word.StandsIn text) : text.IsLoose word.start := by
  have filled := stands.filled
  have bound := stands.bound
  cases start : word.start with
  | zero => exact Or.inl rfl
  | succ n =>
      have found := List.getElem?_eq_getElem (show n < text.length by omega)
      exact Or.inr (Or.inr (Or.inr ⟨n, _, rfl, found,
        Bytes.ascii_of_isBlank (stands.before n _ start found)⟩))

theorem isLoose_stop (stands : word.StandsIn text) : text.IsLoose word.stop := by
  rcases Nat.eq_or_lt_of_le stands.bound with ends | inside
  · exact Or.inr (Or.inl ends)
  · have found := List.getElem?_eq_getElem inside
    exact Or.inr (Or.inr (Or.inl ⟨_, found, Bytes.ascii_of_isBlank (stands.after _ found)⟩))

end StandsIn

end Word

namespace Flag

theorem value_ofWord {text : Bytes} {word value : Word} (stands : word.StandsIn text)
    (flag : word.isFlag = true) (found : (ofWord word).value = some value) :
    value.start ≤ value.stop ∧ value.stop = word.stop ∧
      value.text = text.slice value.start value.stop ∧
      ∃ n, value.start = n + 1 ∧ text[n]? = some Byte.equals := by
  obtain ⟨body, split⟩ := List.isPrefixOf_iff_prefix.mp flag
  have hyphens : (utf8 "--").length = 2 := rfl
  have tail : word.text.drop 2 = body := by rw [← split, ← hyphens, List.drop_left]
  have size := Bytes.length_slice word.start stands.bound
  rw [← stands.bytes] at size
  unfold ofWord at found
  dsimp only at found
  rw [tail] at found
  have parts := List.takeWhile_append_dropWhile (l := body) (p := (· != Byte.equals))
  have stops := List.head?_dropWhile_not (· != Byte.equals) body
  generalize body.takeWhile (· != Byte.equals) = name at *
  split at found
  · cases found
  · rename_i b rest cut
    rw [cut] at parts stops
    have equals : b = Byte.equals := by simpa using stops
    have whole : word.text = (utf8 "--" ++ name) ++ (Byte.equals :: rest) := by
      rw [← split, ← parts, equals, List.append_assoc]
    have front : (utf8 "--" ++ name).length = 2 + name.length := by
      rw [List.length_append, hyphens]
    have counted := congrArg List.length whole
    rw [size, List.length_append, front, List.length_cons] at counted
    have filled := stands.filled
    rw [← Option.some.inj found]
    refine ⟨?_, rfl, ?_, word.start + 2 + name.length, rfl, ?_⟩
    · change word.start + 2 + name.length + 1 ≤ word.stop
      omega
    · have dropped := Bytes.drop_slice text word.start word.stop (2 + name.length + 1)
      rw [← stands.bytes, ← List.drop_drop, whole, ← front, List.drop_left] at dropped
      change rest = text.slice (word.start + 2 + name.length + 1) word.stop
      rw [show word.start + 2 + name.length + 1 = word.start + ((utf8 "--" ++ name).length + 1) by
        omega, ← dropped]
      rfl
    · have byte : word.text[2 + name.length]? = some Byte.equals := by
        rw [whole, ← front, List.getElem?_append_right (Nat.le_refl _), Nat.sub_self]
        rfl
      rw [stands.bytes] at byte
      rw [Nat.add_assoc]
      exact Bytes.getElem?_of_slice byte

theorem start_lt_value {word value : Word} (found : (ofWord word).value = some value) :
    word.start < value.start := by
  unfold ofWord at found
  dsimp only at found
  split at found
  · cases found
  · rw [← Option.some.inj found]
    dsimp only
    omega

/-- A flag with a value: its word is one of the text's words. -/
theorem exists_word_of_mem_leading {words : List Word} {flag : Flag}
    (member : flag ∈ leading words) : ∃ word ∈ words, word.isFlag = true ∧ ofWord word = flag := by
  obtain ⟨word, inside, same⟩ := List.mem_map.mp member
  exact ⟨word, (List.takeWhile_sublist _).subset inside,
    List.all_eq_true.mp List.all_takeWhile word inside, same⟩

/-- Two flags whose values share an index of the text are the same. -/
theorem eq_of_value_shared {text : Bytes} {first second : Flag} {value value' : Word} {k : Nat}
    (leads : first ∈ leading (Word.all text)) (leads' : second ∈ leading (Word.all text))
    (valued : first.value = some value) (valued' : second.value = some value')
    (inside : value.start ≤ k ∧ k < value.stop) (inside' : value'.start ≤ k ∧ k < value'.stop) :
    first = second := by
  obtain ⟨word, listed, isFlag, rfl⟩ := exists_word_of_mem_leading leads
  obtain ⟨word', listed', isFlag', rfl⟩ := exists_word_of_mem_leading leads'
  obtain ⟨stand, ordered⟩ := Word.all_standsIn text
  obtain ⟨-, stop, -⟩ := value_ofWord (stand word listed) isFlag valued
  obtain ⟨-, stop', -⟩ := value_ofWord (stand word' listed') isFlag' valued'
  have start := start_lt_value valued
  have start' := start_lt_value valued'
  obtain ⟨i, bound, rfl⟩ := List.mem_iff_getElem.mp listed
  obtain ⟨j, bound', rfl⟩ := List.mem_iff_getElem.mp listed'
  have apart := List.pairwise_iff_getElem.mp ordered
  rcases Nat.lt_trichotomy i j with less | same | greater
  · have before := apart i j bound bound' less
    omega
  · subst same
    rfl
  · have before := apart j i bound' bound greater
    omega

end Flag

end Dockerfile
