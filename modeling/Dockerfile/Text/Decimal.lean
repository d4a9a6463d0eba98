import Dockerfile.Text.Bytes

/-!
# Numbers in text

Decimal and hexadecimal spellings of numbers, and the reading of a signed decimal numeral into a
64-bit word.
-/

namespace Dockerfile

def decimal (n : Nat) : Bytes :=
  (Nat.toDigits 10 n).map fun c => c.toNat.toUInt8

def signedDecimal : Int → Bytes
  | .ofNat n => decimal n
  | .negSucc n => Byte.minus :: decimal (n + 1)

/-- The last `width` hexadecimal digits of a number, in lower case. -/
def hexDigits : (width n : Nat) → Bytes
  | 0, _ => []
  | width + 1, n => hexDigits width (n / 16) ++ [(Nat.digitChar (n % 16)).toNat.toUInt8]

namespace Numeral

/-- The value of a run of decimal digits; no value if it is empty or holds another byte. -/
def natural? (text : Bytes) : Option Nat :=
  if text.isEmpty || !text.all Byte.isDigit then none
  else some (text.foldl (fun n b => n * 10 + (b.toNat - 0x30)) 0)

def integer? : Bytes → Option Int
  | [] => none
  | b :: rest =>
      if b == Byte.minus then (natural? rest).map fun n => -(n : Int)
      else if b == Byte.plus then (natural? rest).map fun n => (n : Int)
      else (natural? (b :: rest)).map fun n => (n : Int)

def word64? (text : Bytes) : Option Int :=
  match integer? text with
  | some n => if -0x8000000000000000 ≤ n ∧ n < 0x8000000000000000 then some n else none
  | none => none

end Numeral

end Dockerfile
