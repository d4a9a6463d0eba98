import Dockerfile.Text.Decimal
import Dockerfile.Text.Piece
import Dockerfile.Text.Printable

/-!
# Double-quoted texts

A quoted text shows printable characters as they are, puts a backslash before a double quote or a
backslash, and writes every other character and every stray byte as an escape.
-/

namespace Dockerfile

namespace Quoted

def shortEscape? (n : Nat) : Option UInt8 :=
  match n with
  | 0x07 => some 0x61
  | 0x08 => some 0x62
  | 0x09 => some 0x74
  | 0x0a => some 0x6e
  | 0x0b => some 0x76
  | 0x0c => some 0x66
  | 0x0d => some 0x72
  | _ => none

/-- An escape with the code point in hexadecimal, as short as its size allows. -/
def longEscape (n : Nat) : Bytes :=
  if n < 0x80 then utf8 "\\x" ++ hexDigits 2 n
  else if n < 0x10000 then utf8 "\\u" ++ hexDigits 4 n
  else utf8 "\\U" ++ hexDigits 8 n

def piece : Piece → Bytes
  | .stray b => utf8 "\\x" ++ hexDigits 2 b.toNat
  | .scalar c =>
      if c.toNat == 0x22 || c.toNat == 0x5c then Byte.backslash :: String.utf8EncodeChar c
      else if isPrintable c then String.utf8EncodeChar c
      else
        match shortEscape? c.toNat with
        | some letter => [Byte.backslash, letter]
        | none => longEscape c.toNat

end Quoted

namespace Bytes

def quoted (text : Bytes) : Bytes :=
  Byte.doubleQuote :: text.pieces.flatMap Quoted.piece ++ [Byte.doubleQuote]

end Bytes

end Dockerfile
