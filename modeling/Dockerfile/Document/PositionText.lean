import Dockerfile.Document.Span

/-!
# Positions in writing

A position is written as a line and a character with a colon between them, both counted from zero.
-/

namespace Dockerfile

inductive PositionText.Error where
  | noColon
  | lineNotNumber
  | characterNotNumber
  | negative
  | outOfRange
  deriving DecidableEq, Repr

namespace PositionText

def Error.reason : Error → Bytes
  | .noColon => utf8 "expected LINE:CHARACTER"
  | .lineNotNumber => utf8 "line is not a number"
  | .characterNotNumber => utf8 "character is not a number"
  | .negative => utf8 "line and character must not be negative"
  | .outOfRange => utf8 "out of range"

def ofNumbers (line character : Int) : Except Error Position :=
  if line < 0 ∨ character < 0 then .error .negative
  else if 0x100000000 ≤ line ∨ 0x100000000 ≤ character then .error .outOfRange
  else .ok ⟨UInt32.ofNat line.toNat, UInt32.ofNat character.toNat⟩

def parse (raw : Bytes) : Except Error Position :=
  match raw.dropWhile (· != Byte.colon) with
  | [] => .error .noColon
  | _ :: character =>
      match Numeral.word64? (raw.takeWhile (· != Byte.colon)) with
      | none => .error .lineNotNumber
      | some line =>
          match Numeral.word64? character with
          | none => .error .characterNotNumber
          | some character => ofNumbers line character

end PositionText

end Dockerfile
