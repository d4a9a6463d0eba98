import Dockerfile.Text.Tokens

/-!
# Texts as characters and stray bytes

Reading a byte string as UTF-8 splits it into pieces: a well-formed sequence is a character, and
each byte that starts no well-formed sequence is a piece of its own.  Nothing is lost, so the
pieces of a text write it back.
-/

namespace Dockerfile

/-- One step of reading UTF-8: a character, or a byte that starts none. -/
inductive Piece where
  | scalar (c : Char)
  | stray (b : UInt8)
  deriving DecidableEq, Repr

namespace Piece

def encode : Piece → Bytes
  | scalar c => String.utf8EncodeChar c
  | stray b => [b]

def size : Piece → Nat
  | scalar c => c.utf8Size
  | stray _ => 1

/-- How many UTF-16 units the piece takes; a stray byte counts as one. -/
def units : Piece → Nat
  | scalar c => if 0x10000 ≤ c.toNat then 2 else 1
  | stray _ => 1

theorem length_encode (piece : Piece) : piece.encode.length = piece.size := by
  cases piece with
  | scalar c => exact String.length_utf8EncodeChar c
  | stray b => rfl

theorem size_pos (piece : Piece) : 0 < piece.size := by
  cases piece with
  | scalar c => exact Char.utf8Size_pos c
  | stray b => exact Nat.zero_lt_one

theorem units_pos (piece : Piece) : 0 < piece.units := by
  cases piece with
  | scalar c =>
      change 0 < if 0x10000 ≤ c.toNat then 2 else 1
      split <;> decide
  | stray b => exact Nat.zero_lt_one

def replacement : Char := Char.ofNat 0xfffd

/-- The piece as a character, a stray byte read as the replacement character. -/
def toChar : Piece → Char
  | scalar c => c
  | stray _ => replacement

def within (low high b : UInt8) : Bool :=
  low ≤ b && b ≤ high

def isTail (b : UInt8) : Bool :=
  within 0x80 0xbf b

/-- The bounds of the second byte after a given first byte of three or four. -/
def secondBounds (b : UInt8) : UInt8 × UInt8 :=
  if b == 0xe0 then (0xa0, 0xbf)
  else if b == 0xed then (0x80, 0x9f)
  else if b == 0xf0 then (0x90, 0xbf)
  else if b == 0xf4 then (0x80, 0x8f)
  else (0x80, 0xbf)

/-- The number of the character that is written with these bits, most significant first. -/
def assemble (lead : Nat) (tails : List UInt8) : Nat :=
  tails.foldl (fun n b => n * 0x40 + (b.toNat - 0x80)) lead

/-- The character whose well-formed sequence starts with `b` and goes on in `rest`. -/
def scalar? (b : UInt8) (rest : Bytes) : Option Char :=
  if b < 0x80 then some (Char.ofNat b.toNat)
  else if within 0xc2 0xdf b then
    match rest with
    | b1 :: _ =>
        if isTail b1 then some (Char.ofNat (assemble (b.toNat - 0xc0) [b1])) else none
    | _ => none
  else if within 0xe0 0xef b then
    match rest with
    | b1 :: b2 :: _ =>
        if within (secondBounds b).1 (secondBounds b).2 b1 && isTail b2 then
          some (Char.ofNat (assemble (b.toNat - 0xe0) [b1, b2]))
        else none
    | _ => none
  else if within 0xf0 0xf4 b then
    match rest with
    | b1 :: b2 :: b3 :: _ =>
        if within (secondBounds b).1 (secondBounds b).2 b1 && isTail b2 && isTail b3 then
          some (Char.ofNat (assemble (b.toNat - 0xf0) [b1, b2, b3]))
        else none
    | _ => none
  else none

def first (b : UInt8) (rest : Bytes) : Piece :=
  match scalar? b rest with
  | some c => scalar c
  | none => stray b

def read (_ : Nat) : Bytes → Option (Piece × Nat)
  | [] => none
  | b :: rest => some (first b rest, (first b rest).size)

end Piece

namespace Bytes

def pieces (text : Bytes) : List Piece :=
  tokens Piece.read text

def chars (text : Bytes) : List Char :=
  text.pieces.map Piece.toChar

def units (text : Bytes) : Nat :=
  text.pieces.foldr (fun piece total => piece.units + total) 0

def isUtf8 (text : Bytes) : Bool :=
  text.pieces.all fun
    | .scalar _ => true
    | .stray _ => false

def ofPieces (pieces : List Piece) : Bytes :=
  pieces.flatMap Piece.encode

end Bytes

end Dockerfile
