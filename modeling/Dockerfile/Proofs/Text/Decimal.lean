import Dockerfile.Text.Decimal
import Mathlib.Data.List.Induction
import Mathlib.Data.Nat.Digits.Defs

/-!
# The grammar of numerals

A numeral is a run of decimal digits, of any length and with any number of zeros in front, and may
have a sign.  The readers accept exactly these texts and give their value; the decimal spelling of
a number is one of them.
-/

namespace Dockerfile

namespace Numeral

/-- One or more decimal digits. -/
structure AreDigits (text : Bytes) : Prop where
  filled : text ≠ []
  digits : ∀ b ∈ text, 0x30 ≤ b ∧ b ≤ 0x39

/-- The number that decimal digits stand for, the most significant first. -/
def valueOf (text : Bytes) : Nat :=
  Nat.ofDigits 10 (text.reverse.map fun b => b.toNat - 0x30)

/-- The text is a numeral of the number: digits without a sign, or after a plus or a minus sign. -/
inductive Spells : Bytes → Int → Prop where
  | unsigned {text : Bytes} (digits : AreDigits text) : Spells text (valueOf text)
  | plus {text : Bytes} (digits : AreDigits text) : Spells (Byte.plus :: text) (valueOf text)
  | minus {text : Bytes} (digits : AreDigits text) : Spells (Byte.minus :: text) (-(valueOf text))

theorem isDigit_iff {b : UInt8} : Byte.isDigit b = true ↔ 0x30 ≤ b ∧ b ≤ 0x39 := by
  rw [Byte.isDigit, Bool.and_eq_true, decide_eq_true_iff, decide_eq_true_iff]

theorem valueOf_concat (text : Bytes) (b : UInt8) :
    valueOf (text ++ [b]) = valueOf text * 10 + (b.toNat - 0x30) := by
  rw [valueOf, valueOf, List.reverse_concat, List.map_cons, Nat.ofDigits_cons]
  omega

theorem foldl_eq_valueOf (text : Bytes) :
    text.foldl (fun n b => n * 10 + (b.toNat - 0x30)) 0 = valueOf text := by
  induction text using List.reverseRecOn with
  | nil => rfl
  | append_singleton text b ih =>
      rw [List.foldl_append, ih, valueOf_concat]
      rfl

theorem natural?_eq_some_iff {text : Bytes} {n : Nat} :
    natural? text = some n ↔ AreDigits text ∧ n = valueOf text := by
  have digits : (∀ b ∈ text, Byte.isDigit b = true) ↔ ∀ b ∈ text, 0x30 ≤ b ∧ b ≤ 0x39 :=
    forall₂_congr fun b _ => isDigit_iff
  unfold natural?
  rw [foldl_eq_valueOf]
  split
  · rename_i other
    refine ⟨nofun, ?_⟩
    rintro ⟨⟨filled, plain⟩, -⟩
    rw [← digits] at plain
    simp [filled, List.all_eq_true.mpr plain] at other
  · rename_i good
    simp only [Bool.or_eq_true, List.isEmpty_iff, Bool.not_eq_true', not_or,
      Bool.not_eq_false, List.all_eq_true] at good
    rw [digits] at good
    constructor
    · intro same
      exact ⟨⟨good.1, good.2⟩, (Option.some.inj same).symm⟩
    · rintro ⟨-, rfl⟩
      rfl

theorem natural?_bind_eq_some_iff {text : Bytes} {n : Int} :
    ((natural? text).bind fun m => some (m : Int)) = some n ↔
      AreDigits text ∧ n = valueOf text := by
  rw [Option.bind_eq_some_iff]
  constructor
  · rintro ⟨m, digits, same⟩
    obtain ⟨good, rfl⟩ := natural?_eq_some_iff.mp digits
    exact ⟨good, (Option.some.inj same).symm⟩
  · rintro ⟨good, rfl⟩
    exact ⟨valueOf text, natural?_eq_some_iff.mpr ⟨good, rfl⟩, rfl⟩

/-- A sign is no digit. -/
theorem AreDigits.head_ne {b : UInt8} {text : Bytes} (digits : AreDigits (b :: text)) :
    b ≠ Byte.minus ∧ b ≠ Byte.plus := by
  obtain ⟨low, -⟩ := digits.digits b List.mem_cons_self
  constructor <;> rintro rfl <;> revert low <;> decide

theorem integer?_eq_some_iff {text : Bytes} {n : Int} :
    integer? text = some n ↔ Spells text n := by
  constructor
  · intro read
    cases text with
    | nil => cases read
    | cons b rest =>
        rw [integer?] at read
        split at read
        · rename_i sign
          obtain ⟨m, digits, rfl⟩ := Option.map_eq_some_iff.mp read
          obtain ⟨good, rfl⟩ := natural?_bind_eq_some_iff.mp digits
          obtain rfl := beq_iff_eq.mp sign
          exact .minus good
        · split at read
          · rename_i sign
            obtain ⟨m, digits, rfl⟩ := Option.map_eq_some_iff.mp read
            obtain ⟨good, rfl⟩ := natural?_bind_eq_some_iff.mp digits
            obtain rfl := beq_iff_eq.mp sign
            exact .plus good
          · obtain ⟨m, digits, rfl⟩ := Option.map_eq_some_iff.mp read
            obtain ⟨good, rfl⟩ := natural?_bind_eq_some_iff.mp digits
            exact .unsigned good
  · intro spells
    cases spells with
    | plus digits =>
        rw [integer?, if_neg (by decide), if_pos (by decide),
          natural?_eq_some_iff.mpr ⟨digits, rfl⟩]
        rfl
    | minus digits =>
        rw [integer?, if_pos (by decide), natural?_eq_some_iff.mpr ⟨digits, rfl⟩]
        rfl
    | unsigned digits =>
        cases text with
        | nil => exact absurd rfl digits.filled
        | cons b rest =>
            obtain ⟨minus, plus⟩ := digits.head_ne
            rw [integer?, if_neg (by simpa using minus), if_neg (by simpa using plus),
              natural?_eq_some_iff.mpr ⟨digits, rfl⟩]
            rfl

/-- A text spells one number at most. -/
theorem Spells.unique {text : Bytes} {m n : Int} (first : Spells text m) (second : Spells text n) :
    m = n := by
  rw [← integer?_eq_some_iff] at first second
  exact Option.some.inj (first.symm.trans second)

theorem word64?_eq_some_iff {text : Bytes} {n : Int} :
    word64? text = some n ↔
      Spells text n ∧ -0x8000000000000000 ≤ n ∧ n < 0x8000000000000000 := by
  rw [← integer?_eq_some_iff]
  unfold word64?
  cases integer? text with
  | none => exact ⟨nofun, fun both => nomatch both.1⟩
  | some m =>
      dsimp only
      split
      · rename_i fits
        constructor
        · intro same
          exact ⟨same, Option.some.inj same ▸ fits⟩
        · exact And.left
      · rename_i wide
        refine ⟨nofun, ?_⟩
        rintro ⟨same, fits⟩
        exact absurd (Option.some.inj same ▸ fits) wide

/-! ## The spelling of a number -/

theorem digitChar_byte {d : Nat} (small : d < 10) :
    (Nat.digitChar d).toNat.toUInt8 = UInt8.ofNat (0x30 + d) := by
  revert small
  revert d
  decide

/-- The last digit of a number after the digits of its tenth. -/
theorem decimal_eq (n : Nat) :
    decimal n = (if n < 10 then [] else decimal (n / 10)) ++ [UInt8.ofNat (0x30 + n % 10)] := by
  have last := digitChar_byte (Nat.mod_lt n (show 0 < 10 by decide))
  rw [decimal, Nat.toDigits_eq_if (by decide)]
  split
  · rename_i small
    rw [Nat.mod_eq_of_lt small] at last ⊢
    exact congrArg (fun b => [b]) last
  · rw [List.map_append, List.map_singleton, last]
    rfl

theorem digit_byte {d : Nat} (small : d < 10) :
    ((0x30 : UInt8) ≤ UInt8.ofNat (0x30 + d) ∧ UInt8.ofNat (0x30 + d) ≤ 0x39) ∧
      (UInt8.ofNat (0x30 + d)).toNat - 0x30 = d := by
  revert small
  revert d
  decide

/-- A number is spelled by its decimal digits. -/
theorem spelled_decimal (n : Nat) : AreDigits (decimal n) ∧ valueOf (decimal n) = n := by
  induction n using Nat.strongRecOn with
  | ind n ih =>
      obtain ⟨digit, value⟩ := digit_byte (Nat.mod_lt n (show 0 < 10 by decide))
      have last : ∀ b ∈ [UInt8.ofNat (0x30 + n % 10)], (0x30 : UInt8) ≤ b ∧ b ≤ 0x39 :=
        List.forall_mem_singleton.mpr digit
      rw [decimal_eq, valueOf_concat, value]
      split
      · rename_i small
        refine ⟨⟨List.cons_ne_nil _ _, last⟩, ?_⟩
        change 0 * 10 + n % 10 = n
        omega
      · obtain ⟨digits, front⟩ := ih (n / 10) (by omega)
        refine ⟨⟨List.append_ne_nil_of_left_ne_nil digits.filled _, ?_⟩, ?_⟩
        · exact List.forall_mem_append.mpr ⟨digits.digits, last⟩
        · rw [front]
          omega

theorem spells_decimal (n : Nat) : Spells (decimal n) n := by
  obtain ⟨digits, value⟩ := spelled_decimal n
  have spells := Spells.unsigned digits
  rwa [value] at spells

end Numeral

end Dockerfile
