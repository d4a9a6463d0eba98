import Dockerfile.Text.Tokens

/-!
# Variable references

A reference is a dollar sign followed by a name, or by a name in braces.  The closing brace belongs
to the reference only if it directly follows the name; a name whose brace is not closed is a
reference all the same.
-/

namespace Dockerfile

/-- A reference with the logical indexes it covers, sign and braces included. -/
structure Reference where
  name : Bytes
  start : Nat
  stop : Nat
  deriving DecidableEq, Repr

namespace Reference

def isNameByte (b : UInt8) : Bool :=
  b == 0x5f || Byte.isLetter b || Byte.isDigit b

/-- The name in braces after a dollar sign, with the number of bytes after the sign. -/
def braced? (text : Bytes) : Option (Bytes × Nat) :=
  let name := text.takeWhile isNameByte
  if name.isEmpty then none
  else if (text.drop name.length).head? == some Byte.closeBrace then some (name, name.length + 2)
  else some (name, name.length + 1)

def named? (text : Bytes) : Option (Bytes × Nat) :=
  match text with
  | [] => none
  | b :: rest =>
      if b == Byte.openBrace then braced? rest
      else
        let name := text.takeWhile isNameByte
        if name.isEmpty then none else some (name, name.length)

def read (index : Nat) : Bytes → Option (Reference × Nat)
  | [] => none
  | b :: rest =>
      if b == Byte.dollar then
        (named? rest).map fun (name, size) => (⟨name, index, index + (size + 1)⟩, size + 1)
      else none

def all (text : Bytes) : List Reference :=
  tokens read text

def at? (text : Bytes) (i : Int) : Option Reference :=
  ((all text).takeWhile fun r => r.start ≤ i).find? fun r => i < r.stop

end Reference

end Dockerfile
