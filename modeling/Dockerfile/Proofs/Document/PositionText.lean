import Dockerfile.CommandLine.Command
import Dockerfile.Proofs.Text.Bytes
import Dockerfile.Proofs.Text.Decimal

/-!
# Positions read back

A position is read from two numerals with a colon between them, and only from such a text.  The
numbers are read at full width before they are narrowed, so that none wraps around; whatever is
out of range is refused.
-/

namespace Dockerfile

namespace PositionText

/-- The text is a line and a character in writing: two numerals, divided by the first colon. -/
def IsWritten (raw : Bytes) (line character : Int) : Prop :=
  ∃ first second, raw = first ++ Byte.colon :: second ∧ Byte.colon ∉ first ∧
    Numeral.Spells first line ∧ Numeral.Spells second character

def InRange (n : Int) : Prop :=
  0 ≤ n ∧ n ≤ 2 ^ 32 - 1

theorem toNat_ofNat_of_inRange {n : Int} (fits : InRange n) :
    ((UInt32.ofNat n.toNat).toNat : Int) = n := by
  unfold InRange at fits
  have small : n.toNat < UInt32.size := by
    rw [UInt32.size]
    omega
  rw [UInt32.toNat_ofNat_of_lt' small]
  omega

theorem inRange_toNat (n : UInt32) : InRange n.toNat := by
  have bound := n.toNat_lt
  unfold InRange
  omega

theorem divided_iff {raw first second : Bytes} :
    (raw = first ++ Byte.colon :: second ∧ Byte.colon ∉ first) ↔
      raw.takeWhile (· != Byte.colon) = first ∧
        raw.dropWhile (· != Byte.colon) = Byte.colon :: second := by
  constructor
  · rintro ⟨rfl, plain⟩
    have inside : ∀ b ∈ first, (b != Byte.colon) = true := by
      intro b member
      simpa using ne_of_mem_of_not_mem member plain
    have front : (first ++ Byte.colon :: second).takeWhile (· != Byte.colon) = first := by
      refine Bytes.takeWhile_append_eq inside ?_
      intro b found
      rw [← Option.some.inj found]
      rfl
    refine ⟨front, ?_⟩
    rw [← Bytes.drop_length_takeWhile, front, List.drop_left]
  · rintro ⟨rfl, back⟩
    refine ⟨by rw [← back, List.takeWhile_append_dropWhile], ?_⟩
    intro member
    have kept := List.all_eq_true.mp List.all_takeWhile _ member
    simp at kept

theorem head_dropWhile {raw rest : Bytes} {b : UInt8}
    (back : raw.dropWhile (· != Byte.colon) = b :: rest) : b = Byte.colon := by
  have stops := List.head?_dropWhile_not (· != Byte.colon) raw
  rw [back] at stops
  simpa using stops

theorem ofNumbers_eq_ok_iff {line character : Int} {p : Position} :
    ofNumbers line character = .ok p ↔
      line = p.line.toNat ∧ character = p.character.toNat := by
  have first := p.line.toNat_lt
  have second := p.character.toNat_lt
  unfold ofNumbers
  constructor
  · intro read
    split at read
    · cases read
    · split at read
      · cases read
      · rename_i natural small
        obtain rfl := Except.ok.inj read
        have fits (n : Int) (low : ¬ n < 0) (high : ¬ 0x100000000 ≤ n) :
            n = (UInt32.ofNat n.toNat).toNat :=
          (toNat_ofNat_of_inRange ⟨by omega, by omega⟩).symm
        exact ⟨fits line (by tauto) (by tauto), fits character (by tauto) (by tauto)⟩
  · rintro ⟨rfl, rfl⟩
    rw [if_neg (by omega), if_neg (by omega)]
    simp

/-- A position is read exactly from the texts in which it is written. -/
theorem parse_eq_ok_iff {raw : Bytes} {p : Position} :
    parse raw = .ok p ↔ IsWritten raw p.line.toNat p.character.toNat := by
  have first := p.line.toNat_lt
  have second := p.character.toNat_lt
  constructor
  · intro read
    rw [parse] at read
    split at read
    · cases read
    · rename_i b rest back
      obtain rfl := head_dropWhile back
      obtain ⟨whole, plain⟩ := divided_iff.mpr ⟨rfl, back⟩
      split at read
      · cases read
      · rename_i line spelled
        split at read
        · cases read
        · rename_i character spelled'
          obtain ⟨rfl, rfl⟩ := ofNumbers_eq_ok_iff.mp read
          exact ⟨_, rest, whole, plain, (Numeral.word64?_eq_some_iff.mp spelled).1,
            (Numeral.word64?_eq_some_iff.mp spelled').1⟩
  · rintro ⟨front, back, whole, plain, spells, spells'⟩
    obtain ⟨taken, dropped⟩ := divided_iff.mp ⟨whole, plain⟩
    rw [parse, dropped]
    dsimp only
    rw [taken, Numeral.word64?_eq_some_iff.mpr ⟨spells, by omega, by omega⟩]
    dsimp only
    rw [Numeral.word64?_eq_some_iff.mpr ⟨spells', by omega, by omega⟩]
    exact ofNumbers_eq_ok_iff.mpr ⟨rfl, rfl⟩

theorem exists_position {line character : Int} (first : InRange line) (second : InRange character) :
    ∃ p : Position, (p.line.toNat : Int) = line ∧ (p.character.toNat : Int) = character :=
  ⟨⟨UInt32.ofNat line.toNat, UInt32.ofNat character.toNat⟩, toNat_ofNat_of_inRange first,
    toNat_ofNat_of_inRange second⟩

theorem colon_not_mem_decimal (n : Nat) : Byte.colon ∉ decimal n := by
  intro member
  obtain ⟨-, high⟩ := (Numeral.spelled_decimal n).1.digits _ member
  revert high
  decide

theorem isWritten_render (p : Position) :
    IsWritten p.render p.line.toNat p.character.toNat :=
  ⟨_, _, rfl, colon_not_mem_decimal _, Numeral.spells_decimal _, Numeral.spells_decimal _⟩

/-- A position is read from a text exactly if the text is two numerals in range with a colon
between them, and then these two numbers are its line and character.  Any other text is refused by
the command as an invalid position, with exit status 1.  What a position is written as is read back
as the position. -/
theorem parse_exact (raw : Bytes) :
    ((∃ p, parse raw = .ok p) ↔
      ∃ line character, IsWritten raw line character ∧ InRange line ∧ InRange character) ∧
    (∀ p line character, parse raw = .ok p → IsWritten raw line character →
      (p.line.toNat : Int) = line ∧ (p.character.toNat : Int) = character) ∧
    (∀ e, parse raw = .error e →
      let fault := Fault.invalidPosition raw e.reason
      fault.hasKind .invalidPosition = true ∧ Fault.exitStatus fault = 1 ∧
      ∀ s : CommandLine.Settings, s.help = false →
        CommandLine.requestOf .definition s [raw] = .error fault) ∧
    ∀ p : Position, parse p.render = .ok p := by
  refine ⟨⟨?_, ?_⟩, ?_, ?_, fun p => parse_eq_ok_iff.mpr (isWritten_render p)⟩
  · rintro ⟨p, read⟩
    exact ⟨_, _, parse_eq_ok_iff.mp read, inRange_toNat _, inRange_toNat _⟩
  · rintro ⟨line, character, written, first, second⟩
    obtain ⟨p, rfl, rfl⟩ := exists_position first second
    exact ⟨p, parse_eq_ok_iff.mpr written⟩
  · rintro p line character read ⟨front, back, whole, plain, spells, spells'⟩
    obtain ⟨front', back', whole', plain', first, second⟩ := parse_eq_ok_iff.mp read
    -- the first colon stands at one place only
    obtain ⟨taken, dropped⟩ := divided_iff.mp ⟨whole, plain⟩
    obtain ⟨taken', dropped'⟩ := divided_iff.mp ⟨whole', plain'⟩
    obtain rfl := taken.symm.trans taken'
    obtain ⟨-, rfl⟩ := List.cons.inj (dropped.symm.trans dropped')
    exact ⟨first.unique spells, second.unique spells'⟩
  · intro e refused
    refine ⟨rfl, rfl, ?_⟩
    intro s plain
    simp [CommandLine.requestOf, plain, refused]

example : parse (utf8 "+007:-0") = .ok ⟨7, 0⟩ := by
  decide +kernel

end PositionText

end Dockerfile
