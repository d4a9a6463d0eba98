/-!
# Byte strings

Every text of the library is a list of bytes: a build file may hold any bytes, and whatever is
reported about it has to carry them unchanged.  This module fixes the carrier, the bytes of a
literal, and the few cuts that the other modules share.
-/

namespace Dockerfile

/-- A text as it is stored: bytes, of which no encoding is assumed. -/
abbrev Bytes := List UInt8

namespace Bytes

def ofChars (chars : List Char) : Bytes :=
  chars.flatMap String.utf8EncodeChar

/-- The bytes from `start` up to, not including, `stop`. -/
def slice (text : Bytes) (start stop : Nat) : Bytes :=
  (text.drop start).take (stop - start)

def join (separator : Bytes) (texts : List Bytes) : Bytes :=
  separator.intercalate texts

theorem join_cons_cons (separator first second : Bytes) (rest : List Bytes) :
    join separator (first :: second :: rest) =
      first ++ separator ++ join separator (second :: rest) := by
  simp [join, List.intercalate]

theorem join_cons_head (separator : Bytes) (b : UInt8) (first : Bytes) (rest : List Bytes) :
    join separator ((b :: first) :: rest) = b :: join separator (first :: rest) := by
  cases rest with
  | nil => simp [join, List.intercalate]
  | cons second rest =>
      rw [join_cons_cons, join_cons_cons]
      rfl

end Bytes

def utf8 (s : String) : Bytes :=
  Bytes.ofChars s.toList

namespace Byte

def tab : UInt8 := 0x09
def lineFeed : UInt8 := 0x0a
def carriageReturn : UInt8 := 0x0d
def space : UInt8 := 0x20
def doubleQuote : UInt8 := 0x22
def hash : UInt8 := 0x23
def dollar : UInt8 := 0x24
def singleQuote : UInt8 := 0x27
def plus : UInt8 := 0x2b
def minus : UInt8 := 0x2d
def slash : UInt8 := 0x2f
def colon : UInt8 := 0x3a
def equals : UInt8 := 0x3d
def backslash : UInt8 := 0x5c
def backtick : UInt8 := 0x60
def openBrace : UInt8 := 0x7b
def closeBrace : UInt8 := 0x7d

/-- The two bytes that separate words on a line. -/
def isBlank (b : UInt8) : Bool :=
  b == space || b == tab

def isDigit (b : UInt8) : Bool :=
  0x30 ≤ b && b ≤ 0x39

def isUpper (b : UInt8) : Bool :=
  0x41 ≤ b && b ≤ 0x5a

def isLower (b : UInt8) : Bool :=
  0x61 ≤ b && b ≤ 0x7a

def isLetter (b : UInt8) : Bool :=
  isUpper b || isLower b

/-- ASCII lower case; every other byte stays. -/
def toLower (b : UInt8) : UInt8 :=
  if isUpper b then b + 0x20 else b

/-- ASCII upper case; every other byte stays. -/
def toUpper (b : UInt8) : UInt8 :=
  if isLower b then b - 0x20 else b

end Byte

namespace Bytes

def trimLeft (text : Bytes) : Bytes :=
  text.dropWhile Byte.isBlank

def trimRight (text : Bytes) : Bytes :=
  (text.reverse.dropWhile Byte.isBlank).reverse

def trim (text : Bytes) : Bytes :=
  text.trimLeft.trimRight

def indent (text : Bytes) : Nat :=
  (text.takeWhile Byte.isBlank).length

def isAscii (text : Bytes) : Bool :=
  text.all (· < 0x80)

end Bytes

end Dockerfile
