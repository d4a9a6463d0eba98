import Dockerfile.Proofs.Text.Boundary
import Dockerfile.Proofs.Text.Tokens
import Dockerfile.Reference

/-!
# Where references stand

A reference is read exactly where one is spelled after a dollar sign.  References lie in their text,
end with an ASCII byte and follow one another.  So at most one of them covers an index, and the
search by index finds it.  No dollar sign stands inside a reference, so reading on behind it leaves
out none.
-/

namespace Dockerfile

namespace Reference

theorem ascii_of_isNameByte {b : UInt8} (part : isNameByte b = true) : b < 0x80 := by
  simp only [isNameByte, Byte.isLetter, Byte.isUpper, Byte.isLower, Byte.isDigit, Bool.or_eq_true,
    Bool.and_eq_true, beq_iff_eq, decide_eq_true_iff, UInt8.le_iff_toNat_le] at part
  rw [UInt8.lt_iff_toNat_lt]
  rcases part with (rfl | letter) | digit
  · decide
  · simp only [UInt8.reduceToNat] at letter ⊢
    omega
  · simp only [UInt8.reduceToNat] at digit ⊢
    omega

/-- The bytes are a name up to where it ends: all name bytes that stand there, and at least one. -/
structure IsName (name rest : Bytes) : Prop where
  filled : name ≠ []
  plain : ∀ b ∈ name, isNameByte b = true
  ends : ∀ b, rest.head? = some b → isNameByte b = false

theorem IsName.takeWhile_eq {name rest : Bytes} (isName : IsName name rest) :
    (name ++ rest).takeWhile isNameByte = name :=
  Bytes.takeWhile_append_eq isName.plain isName.ends

theorem exists_isName {text : Bytes} (filled : ¬ (text.takeWhile isNameByte).isEmpty = true) :
    ∃ name rest, text = name ++ rest ∧ IsName name rest := by
  have split : text.takeWhile isNameByte ++ text.dropWhile isNameByte = text :=
    List.takeWhile_append_dropWhile
  refine ⟨_, _, split.symm, ?_, ?_, ?_⟩
  · exact fun none => filled (List.isEmpty_iff.mpr none)
  · exact List.all_eq_true.mp List.all_takeWhile
  · intro b found
    have stops := List.head?_dropWhile_not isNameByte text
    rwa [found] at stops

/-- What follows a dollar sign spells a reference to a name, with that many bytes: the name alone,
the name after a brace that is not closed right behind it, or the name in braces. -/
inductive Spells (name : Bytes) : Bytes → Nat → Prop
  | bare {rest : Bytes} (isName : IsName name rest) : Spells name (name ++ rest) name.length
  | unclosed {rest : Bytes} (isName : IsName name rest)
      (other : rest.head? ≠ some Byte.closeBrace) :
      Spells name (Byte.openBrace :: (name ++ rest)) (name.length + 1)
  | closed {rest : Bytes} (isName : IsName name (Byte.closeBrace :: rest)) :
      Spells name (Byte.openBrace :: (name ++ Byte.closeBrace :: rest)) (name.length + 2)

theorem braced?_append {name rest : Bytes} (isName : IsName name rest) :
    braced? (name ++ rest) = some (name,
      if rest.head? == some Byte.closeBrace then name.length + 2 else name.length + 1) := by
  rw [braced?, isName.takeWhile_eq, List.drop_left]
  simp only [List.isEmpty_iff, isName.filled, if_false]
  split <;> rfl

theorem named?_append {name rest : Bytes} (isName : IsName name rest) :
    named? (name ++ rest) = some (name, name.length) := by
  have run := isName.takeWhile_eq
  cases name with
  | nil => exact absurd rfl isName.filled
  | cons b name =>
      have other : b ≠ Byte.openBrace := by
        rintro rfl
        cases isName.plain _ List.mem_cons_self
      rw [List.cons_append] at run ⊢
      simp [named?, run, other]

theorem spells_of_braced? {text name : Bytes} {size : Nat}
    (found : braced? text = some (name, size)) : Spells name (Byte.openBrace :: text) size := by
  by_cases filled : (text.takeWhile isNameByte).isEmpty = true
  · simp [braced?, filled] at found
  · obtain ⟨run, rest, rfl, isName⟩ := exists_isName filled
    rw [braced?_append isName] at found
    obtain ⟨rfl, rfl⟩ := Prod.mk.inj (Option.some.inj found)
    split
    · rename_i closes
      obtain ⟨rest, rfl⟩ := List.head?_eq_some_iff.mp (beq_iff_eq.mp closes)
      exact .closed isName
    · rename_i other
      exact .unclosed isName (fun closes => other (beq_iff_eq.mpr closes))

/-- A name is found after a dollar sign where one is spelled, and nowhere else. -/
theorem named?_eq_some_iff {text name : Bytes} {size : Nat} :
    named? text = some (name, size) ↔ Spells name text size := by
  constructor
  · intro found
    cases text with
    | nil => cases found
    | cons b text =>
        by_cases brace : b = Byte.openBrace
        · subst brace
          exact spells_of_braced? found
        · by_cases filled : ((b :: text).takeWhile isNameByte).isEmpty = true
          · simp [named?, brace, filled] at found
          · obtain ⟨run, rest, split, isName⟩ := exists_isName filled
            rw [split] at found ⊢
            rw [named?_append isName] at found
            obtain ⟨rfl, rfl⟩ := Prod.mk.inj (Option.some.inj found)
            exact .bare isName
  · intro spells
    cases spells with
    | bare isName => exact named?_append isName
    | unclosed isName other => simp [named?, braced?_append isName, other]
    | closed isName => simp [named?, braced?_append isName]

namespace Spells

variable {name text : Bytes} {size : Nat}

theorem dollar_not_mem (spells : Spells name text size) : Byte.dollar ∉ text.take size := by
  have plain {rest : Bytes} (isName : IsName name rest) : Byte.dollar ∉ name := by
    intro member
    cases isName.plain _ member
  have opens : Byte.dollar ≠ Byte.openBrace := by decide
  have closes : Byte.dollar ≠ Byte.closeBrace := by decide
  cases spells with
  | bare isName => simpa using plain isName
  | unclosed isName => simp [plain isName, opens]
  | closed isName =>
      rw [List.take_succ_cons, List.take_length_add_append]
      simp [plain isName, opens, closes]

end Spells

def EndsInAscii (text : Bytes) (size : Nat) : Prop :=
  ∃ n b, size = n + 1 ∧ text[n]? = some b ∧ b < 0x80

theorem IsName.endsInAscii {name rest : Bytes} (isName : IsName name rest) :
    EndsInAscii (name ++ rest) name.length := by
  rcases List.eq_nil_or_concat name with none | ⟨front, b, rfl⟩
  · exact absurd none isName.filled
  · have last := isName.plain b (by simp)
    exact ⟨front.length, b, by simp, by simp, ascii_of_isNameByte last⟩

theorem Spells.endsInAscii {name text : Bytes} {size : Nat} (spells : Spells name text size) :
    EndsInAscii text size := by
  cases spells with
  | bare isName => exact isName.endsInAscii
  | unclosed isName =>
      obtain ⟨n, b, last, found, small⟩ := isName.endsInAscii
      exact ⟨n + 1, b, by rw [last], found, small⟩
  | closed isName => exact ⟨_, Byte.closeBrace, rfl, by simp, by decide⟩

/-- A reference is read at a dollar sign if what follows the sign spells one. -/
theorem read_eq_some_iff {index size : Nat} {text : Bytes} {r : Reference} :
    read index text = some (r, size) ↔ ∃ back n, text = Byte.dollar :: back ∧
      Spells r.name back n ∧ size = n + 1 ∧ r.start = index ∧ r.stop = index + (n + 1) := by
  cases text with
  | nil => exact ⟨nofun, nofun⟩
  | cons b back =>
      by_cases dollar : b = Byte.dollar
      · subst dollar
        rw [read, if_pos (beq_self_eq_true _), Option.map_eq_some_iff]
        constructor
        · rintro ⟨⟨name, n⟩, named, same⟩
          cases same
          exact ⟨back, n, rfl, named?_eq_some_iff.mp named, rfl, rfl, rfl⟩
        · rintro ⟨_, n, same, spells, rfl, start, stop⟩
          cases same
          refine ⟨(r.name, n), named?_eq_some_iff.mpr spells, ?_⟩
          dsimp only
          rw [← stop, ← start]
      · simp [read, dollar]

/-- A reference starts with a dollar sign, ends with an ASCII byte and says where. -/
theorem read_eq_some {index size : Nat} {text : Bytes} {r : Reference}
    (found : read index text = some (r, size)) :
    r.start = index ∧ r.stop = index + size ∧ text.head? = some Byte.dollar ∧
      EndsInAscii text size := by
  obtain ⟨back, n, rfl, spells, rfl, start, stop⟩ := read_eq_some_iff.mp found
  obtain ⟨m, b, rfl, byte, small⟩ := spells.endsInAscii
  exact ⟨start, stop, rfl, m + 1, b, rfl, byte, small⟩

/-- The reference covers indexes of a text, from a dollar sign to an ASCII byte. -/
structure StandsIn (text : Bytes) (r : Reference) : Prop where
  filled : r.start < r.stop
  bound : r.stop ≤ text.length
  dollar : text[r.start]? = some Byte.dollar
  last : ∃ n b, r.stop = n + 1 ∧ text[n]? = some b ∧ b < 0x80

theorem standsIn_of_read {text : Bytes} {n size : Nat} {r : Reference}
    (found : read n (text.drop n) = some (r, size)) : r.StandsIn text := by
  obtain ⟨start, stop, dollar, m, b, rfl, byte, small⟩ := read_eq_some found
  rw [List.getElem?_drop] at byte
  obtain ⟨inside, -⟩ := List.getElem?_eq_some_iff.mp byte
  refine ⟨by omega, by omega, ?_, n + m, b, by omega, byte, small⟩
  rw [start, ← dollar, List.head?_drop]

theorem all_standsIn (text : Bytes) :
    (∀ r ∈ all text, r.StandsIn text) ∧ (all text).Pairwise fun a b => a.stop ≤ b.start := by
  have scanned : (∀ r ∈ all text, r.StandsIn text ∧ 0 ≤ r.start) ∧
      (all text).Pairwise fun a b => a.stop ≤ b.start := by
    refine Tokens.scan_induction read text
      (motive := fun n found => (∀ r ∈ found, r.StandsIn text ∧ n ≤ r.start) ∧
        found.Pairwise fun a b => a.stop ≤ b.start) ?_ ?_ ?_ ?_ 0
    · intro n rest r size found
      obtain ⟨-, -, -, m, b, rfl, -, -⟩ := read_eq_some found
      exact Nat.succ_pos m
    · intro n _
      exact ⟨nofun, List.Pairwise.nil⟩
    · intro n found _ _ ih
      exact ⟨fun r member => ⟨(ih.1 r member).1, Nat.le_of_succ_le (ih.1 r member).2⟩, ih.2⟩
    · intro n r size found _ taken ih
      obtain ⟨start, stop, -, -⟩ := read_eq_some taken
      constructor
      · intro other member
        rcases List.mem_cons.mp member with rfl | later
        · exact ⟨standsIn_of_read taken, Nat.le_of_eq start.symm⟩
        · exact ⟨(ih.1 other later).1, Nat.le_trans (Nat.le_add_right _ _) (ih.1 other later).2⟩
      · refine List.Pairwise.cons ?_ ih.2
        intro other later
        rw [stop]
        exact (ih.1 other later).2
  exact ⟨fun r member => (scanned.1 r member).1, scanned.2⟩

theorem StandsIn.isLoose_start {text : Bytes} {r : Reference} (stands : r.StandsIn text) :
    text.IsLoose r.start :=
  Or.inr (Or.inr (Or.inl ⟨_, stands.dollar, by decide⟩))

theorem StandsIn.isLoose_stop {text : Bytes} {r : Reference} (stands : r.StandsIn text) :
    text.IsLoose r.stop :=
  Or.inr (Or.inr (Or.inr stands.last))

def Covers (r : Reference) (i : Int) : Prop :=
  r.start ≤ i ∧ i < r.stop

theorem covers_natCast {r : Reference} {i : Nat} : r.Covers i ↔ r.start ≤ i ∧ i < r.stop := by
  rw [Covers, Int.ofNat_le, Int.ofNat_lt]

/-- The search by index finds the reference that covers the index. -/
theorem at?_eq_some_iff_covers {text : Bytes} {i : Int} {r : Reference} :
    at? text i = some r ↔ r ∈ all text ∧ r.Covers i := by
  obtain ⟨stand, order⟩ := all_standsIn text
  have ordered : (all text).Pairwise fun a b =>
      decide ((b.start : Int) ≤ i) = true → decide ((a.start : Int) ≤ i) = true := by
    refine List.Pairwise.imp_of_mem ?_ order
    intro a b member _ apart
    have filled := (stand a member).filled
    simp only [decide_eq_true_iff]
    omega
  have apart : (all text).Pairwise fun a b =>
      decide ((a.start : Int) ≤ i) = true ∧ decide (i < a.stop) = true →
        ¬ (decide ((b.start : Int) ≤ i) = true ∧ decide (i < b.stop) = true) := by
    refine order.imp ?_
    intro a b apart
    simp only [decide_eq_true_iff]
    omega
  rw [at?, Tokens.find?_takeWhile_eq_some_iff ordered apart, decide_eq_true_iff,
    decide_eq_true_iff, Covers]

theorem at?_eq_some_iff {text : Bytes} {i : Nat} {r : Reference} :
    at? text i = some r ↔ r ∈ all text ∧ r.start ≤ i ∧ i < r.stop := by
  rw [at?_eq_some_iff_covers, covers_natCast]

theorem eq_of_covers {text : Bytes} {a b : Reference} {i : Int} (first : a ∈ all text)
    (second : b ∈ all text) (covers : a.Covers i) (covers' : b.Covers i) : a = b := by
  have found := at?_eq_some_iff_covers.mpr ⟨first, covers⟩
  rw [at?_eq_some_iff_covers.mpr ⟨second, covers'⟩] at found
  exact (Option.some.inj found).symm

/-- Inside a reference no other one starts. -/
theorem read_eq_none_of_inside {text : Bytes} {n size : Nat} {r : Reference}
    (found : read n (text.drop n) = some (r, size)) {m : Nat} (after : n < m)
    (before : m < n + size) : read m (text.drop m) = none := by
  obtain ⟨back, k, split, spells, rfl, -⟩ := read_eq_some_iff.mp found
  cases inner : read m (text.drop m) with
  | none => rfl
  | some entry =>
      obtain ⟨other, -, split', -⟩ := read_eq_some_iff.mp inner
      -- the byte at the inner index is one of those that spell the outer reference
      have cut : text.drop m = back.drop (m - (n + 1)) := by
        rw [show m = n + 1 + (m - (n + 1)) by omega, ← List.drop_drop, ← List.drop_drop, split]
        simp
      have dollar : (back.take k)[m - (n + 1)]? = some Byte.dollar := by
        rw [List.getElem?_take_of_lt (by omega), ← List.head?_drop, ← cut, split']
        rfl
      exact absurd (List.mem_of_getElem? dollar) spells.dollar_not_mem

/-- Every dollar sign that starts a reference gives one, in the order of the text. -/
theorem all_eq_filterMap (text : Bytes) : all text =
    (List.range text.length).filterMap fun n => (read n (text.drop n)).map Prod.fst := by
  refine Tokens.tokens_eq_filterMap ?_ ?_ ?_
  · intro n rest r size found
    obtain ⟨-, -, -, m, b, rfl, -, -⟩ := read_eq_some found
    exact Nat.succ_pos m
  · intro n r size found
    have bound := (standsIn_of_read found).bound
    rwa [(read_eq_some found).2.1] at bound
  · intro n r size found m after before
    exact read_eq_none_of_inside found after before

/-- The reference is written in a text: a dollar sign at its start, followed by what spells it. -/
def IsWritten (text : Bytes) (r : Reference) : Prop :=
  ∃ front back size, text = front ++ Byte.dollar :: back ∧ Spells r.name back size ∧
    r.start = front.length ∧ r.stop = front.length + (size + 1)

theorem mem_all_iff {text : Bytes} {r : Reference} : r ∈ all text ↔ r.IsWritten text := by
  rw [all_eq_filterMap, List.mem_filterMap]
  constructor
  · rintro ⟨n, listed, found⟩
    obtain ⟨⟨_, size⟩, read, rfl⟩ := Option.map_eq_some_iff.mp found
    obtain ⟨back, k, split, spells, -, start, stop⟩ := read_eq_some_iff.mp read
    have length : (text.take n).length = n :=
      List.length_take_of_le (Nat.le_of_lt (List.mem_range.mp listed))
    refine ⟨text.take n, back, k, ?_, spells, ?_, ?_⟩
    · rw [← split, List.take_append_drop]
    · rw [length, start]
    · rw [length, stop]
  · rintro ⟨front, back, size, rfl, spells, start, stop⟩
    refine ⟨front.length, List.mem_range.mpr (by simp), ?_⟩
    rw [List.drop_left, read_eq_some_iff.mpr ⟨back, size, rfl, spells, rfl, start, stop⟩]
    rfl

/-- Passing over a reference skips nothing: the references of a text are what is read at every
dollar sign, which is every place where one is written.  They follow one another, and the search by
index finds the one that covers the index, and fails only if there is none. -/
theorem all_skips_nothing (text : Bytes) :
    all text = ((List.range text.length).filter fun n => text[n]? == some Byte.dollar).filterMap
      (fun n => (read n (text.drop n)).map Prod.fst) ∧
    (∀ r, r ∈ all text ↔ r.IsWritten text) ∧
    ((∀ r ∈ all text, r.start < r.stop) ∧ (all text).Pairwise fun a b => a.stop ≤ b.start) ∧
    ∀ i : Int,
      (∀ r, at? text i = some r ↔ r ∈ all text ∧ r.Covers i) ∧
      (∀ a ∈ all text, ∀ b ∈ all text, a.Covers i → b.Covers i → a = b) ∧
      (at? text i = none ↔ ∀ r ∈ all text, ¬ r.Covers i) := by
  obtain ⟨stand, ordered⟩ := all_standsIn text
  refine ⟨?_, fun r => mem_all_iff, ⟨fun r member => (stand r member).filled, ordered⟩, ?_⟩
  · rw [all_eq_filterMap, List.filterMap_filter]
    congr 1
    funext n
    split
    · rfl
    · rename_i other
      cases found : read n (text.drop n) with
      | none => rfl
      | some entry =>
          have dollar := (standsIn_of_read found).dollar
          rw [(read_eq_some found).1] at dollar
          exact absurd (beq_iff_eq.mpr dollar) other
  · intro i
    refine ⟨fun r => at?_eq_some_iff_covers, fun a first b second => eq_of_covers first second, ?_⟩
    rw [Option.eq_none_iff_forall_ne_some]
    simp only [ne_eq, at?_eq_some_iff_covers, not_and]

-- A dollar sign may start no reference, and a brace may stay open.
example : all (utf8 "$$x $\x7bb:-c\x7d$\x7b $\x7bd\x7d") =
    [⟨utf8 "x", 1, 3⟩, ⟨utf8 "b", 4, 7⟩, ⟨utf8 "d", 14, 18⟩] := by decide

end Reference

end Dockerfile
