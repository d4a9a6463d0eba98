import Dockerfile.Text.CaseTable
import Dockerfile.Text.Piece

/-!
# Upper and lower case of texts

The case of a text is changed character by character with the one-to-one mappings, so that the
number of characters stays; `ß` has no one-character upper case and stays as it is.  A text of
ASCII bytes is mapped byte by byte.  In any other text a stray byte becomes the replacement
character.
-/

namespace Dockerfile

namespace CaseRun

/-- The image of a code point under the first run that has one; it stays if none has. -/
def map (runs : List CaseRun) (n : Nat) : Nat :=
  (runs.findSome? (·.image? n)).getD n

end CaseRun

def upperChar (c : Char) : Char :=
  Char.ofNat (CaseRun.map CaseRun.upper c.toNat)

def lowerChar (c : Char) : Char :=
  Char.ofNat (CaseRun.map CaseRun.lower c.toNat)

namespace Bytes

def toUpper (text : Bytes) : Bytes :=
  if text.isAscii then text.map Byte.toUpper
  else ofChars (text.chars.map upperChar)

def toLower (text : Bytes) : Bytes :=
  if text.isAscii then text.map Byte.toLower
  else ofChars (text.chars.map lowerChar)

/-- The text spells `as` when case is ignored; the long `ſ` is a form of `s`. -/
def spellsAs (text : Bytes) : Bool :=
  match text.chars with
  | [a, s] => (a == 'A' || a == 'a') && (s == 'S' || s == 's' || s.toNat == 0x17f)
  | _ => false

end Bytes

end Dockerfile
