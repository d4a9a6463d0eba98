import Dockerfile.Keyword

/-!
# Keywords in any case

A word that spells a keyword in ASCII letters of any case is made of letters only, and it is looked
up as that keyword.
-/

namespace Dockerfile

namespace Byte

/-- A byte whose upper case is a letter is a letter. -/
theorem isLetter_of_isUpper_toUpper {b : UInt8} (upper : isUpper (toUpper b) = true) :
    isLetter b = true := by
  unfold toUpper at upper
  split at upper
  · rename_i lower
    simp [isLetter, lower]
  · simp [isLetter, upper]

/-- A letter is an ASCII byte, and none that means anything between words or lines. -/
theorem of_isLetter {b : UInt8} (letter : isLetter b = true) :
    b < 0x80 ∧ isBlank b = false ∧ b ≠ lineFeed ∧ b ≠ hash := by
  have bounds : (0x41 ≤ b.toNat ∧ b.toNat ≤ 0x5a) ∨ (0x61 ≤ b.toNat ∧ b.toNat ≤ 0x7a) := by
    simpa [isLetter, isUpper, isLower, UInt8.le_iff_toNat_le] using letter
  have apart {c : UInt8} (low : c.toNat < 0x41) : b ≠ c := by
    rintro rfl
    omega
  refine ⟨UInt8.lt_iff_toNat_lt.mpr (Nat.lt_of_le_of_lt (show b.toNat ≤ 0x7a by omega) (by decide)),
    ?_, apart (by decide), apart (by decide)⟩
  simp [isBlank, apart (show space.toNat < 0x41 by decide), apart (show tab.toNat < 0x41 by decide)]

end Byte

namespace Keyword

theorem isUpper_spelling (k : Keyword) :
    k.spelling ≠ [] ∧ k.spelling.all Byte.isUpper = true := by
  cases k <;> decide

/-- A word is looked up as the keyword that its upper case is. -/
theorem ofWord?_eq_some_iff {word : Bytes} {k : Keyword} :
    ofWord? word = some k ↔ word.toUpper = k.spelling := by
  constructor
  · intro found
    rw [ofWord?] at found
    have same := List.find?_some found
    exact (beq_iff_eq.mp same).symm
  · intro spelled
    rw [ofWord?, spelled]
    cases k <;> rfl

variable {word : Bytes} {k : Keyword} (spelled : word.map Byte.toUpper = k.spelling)
include spelled

theorem isLetter_of_spelled : ∀ b ∈ word, Byte.isLetter b = true := by
  intro b member
  apply Byte.isLetter_of_isUpper_toUpper
  apply List.all_eq_true.mp k.isUpper_spelling.2
  rw [← spelled]
  exact List.mem_map_of_mem member

theorem toUpper_of_spelled : word.toUpper = k.spelling := by
  have ascii : word.isAscii = true := by
    rw [Bytes.isAscii, List.all_eq_true]
    intro b member
    exact decide_eq_true (Byte.of_isLetter (isLetter_of_spelled spelled b member)).1
  rw [Bytes.toUpper, if_pos ascii, spelled]

theorem ofWord?_of_spelled : ofWord? word = some k :=
  ofWord?_eq_some_iff.mpr (toUpper_of_spelled spelled)

end Keyword

end Dockerfile
