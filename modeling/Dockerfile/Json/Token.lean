import Dockerfile.Text.Piece

/-!
# Tokens of JSON

A text is cut into punctuation, string literals, number literals and the three names.  White space
between tokens is passed over.  A string literal may write a character raw, unless it is a control
character, as a short escape, or by UTF-16 units of four hexadecimal digits; two units that form a
surrogate pair are one character, and a unit of a pair that stands alone is read as the replacement
character.
-/

namespace Dockerfile

namespace Json

inductive Token where
  | openArray
  | closeArray
  | openObject
  | closeObject
  | comma
  | colon
  | null
  | boolean (value : Bool)
  | number (literal : List Char)
  | string (value : List Char)
  deriving DecidableEq, Repr

/-- A part of a string literal: a character, or a unit written with four hexadecimal digits. -/
inductive Part where
  | char (c : Char)
  | unit (n : Nat)
  deriving DecidableEq, Repr

def isHighSurrogate (n : Nat) : Bool :=
  0xd800 ≤ n && n < 0xdc00

def isLowSurrogate (n : Nat) : Bool :=
  0xdc00 ≤ n && n < 0xe000

/-- The character of a unit that belongs to no pair. -/
def loneUnit (n : Nat) : Char :=
  if isHighSurrogate n || isLowSurrogate n then Piece.replacement else Char.ofNat n

def joinParts : List Part → List Char
  | [] => []
  | .char c :: rest => c :: joinParts rest
  | .unit high :: .unit low :: rest =>
      if isHighSurrogate high && isLowSurrogate low then
        Char.ofNat (0x10000 + (high - 0xd800) * 0x400 + (low - 0xdc00)) :: joinParts rest
      else loneUnit high :: joinParts (.unit low :: rest)
  | .unit n :: rest => loneUnit n :: joinParts rest

def hexValue? (c : Char) : Option Nat :=
  let n := c.toNat
  if 0x30 ≤ n ∧ n ≤ 0x39 then some (n - 0x30)
  else if 0x41 ≤ n ∧ n ≤ 0x46 then some (n - 0x41 + 10)
  else if 0x61 ≤ n ∧ n ≤ 0x66 then some (n - 0x61 + 10)
  else none

def unit? (a b c d : Char) : Option Nat :=
  match hexValue? a, hexValue? b, hexValue? c, hexValue? d with
  | some a, some b, some c, some d => some (((a * 16 + b) * 16 + c) * 16 + d)
  | _, _, _, _ => none

def shortEscape? (c : Char) : Option Char :=
  match c with
  | '\x22' => some '\x22'
  | '\x5c' => some '\x5c'
  | '/' => some '/'
  | 'b' => some '\x08'
  | 'f' => some '\x0c'
  | 'n' => some '\n'
  | 'r' => some '\r'
  | 't' => some '\t'
  | _ => none

/-- Read the parts of a string literal after its opening quote, up to and including the closing
one, and count the characters taken. -/
def readParts : List Char → Option (List Part × Nat)
  | [] => none
  | '\x22' :: _ => some ([], 1)
  | '\x5c' :: 'u' :: a :: b :: c :: d :: rest =>
      match unit? a b c d, readParts rest with
      | some n, some (parts, size) => some (.unit n :: parts, size + 6)
      | _, _ => none
  | '\x5c' :: e :: rest =>
      match shortEscape? e, readParts rest with
      | some c, some (parts, size) => some (.char c :: parts, size + 2)
      | _, _ => none
  | c :: rest =>
      if c == '\x5c' || c.toNat < 0x20 then none
      else
        match readParts rest with
        | some (parts, size) => some (.char c :: parts, size + 1)
        | none => none

namespace Number

def digits? (text : List Char) : Option (List Char × List Char) :=
  match text.takeWhile Char.isDigit with
  | [] => none
  | run => some (run, text.dropWhile Char.isDigit)

/-- The whole part: a single zero, or digits that start with another one. -/
def whole? : List Char → Option (List Char × List Char)
  | '0' :: rest => some (['0'], rest)
  | text => digits? text

def fraction? : List Char → Option (List Char × List Char)
  | '.' :: rest => (digits? rest).map fun (run, rest) => ('.' :: run, rest)
  | text => some ([], text)

def sign : List Char → List Char × List Char
  | '+' :: rest => (['+'], rest)
  | '-' :: rest => (['-'], rest)
  | text => ([], text)

def exponent? : List Char → Option (List Char × List Char)
  | [] => some ([], [])
  | c :: rest =>
      if c == 'e' || c == 'E' then
        (digits? (sign rest).2).map fun (run, rest') => (c :: (sign rest).1 ++ run, rest')
      else some ([], c :: rest)

def unsigned? (text : List Char) : Option (List Char × List Char) := do
  let (whole, text) ← whole? text
  let (fraction, text) ← fraction? text
  let (exponent, text) ← exponent? text
  some (whole ++ fraction ++ exponent, text)

def read? : List Char → Option (List Char)
  | '-' :: rest => (unsigned? rest).map fun (literal, _) => '-' :: literal
  | text => (unsigned? text).map fun (literal, _) => literal

end Number

def isSpace (c : Char) : Bool :=
  c == ' ' || c == '\t' || c == '\n' || c == '\r'

def readToken : List Char → Option (Token × Nat)
  | '[' :: _ => some (.openArray, 1)
  | ']' :: _ => some (.closeArray, 1)
  | '\x7b' :: _ => some (.openObject, 1)
  | '\x7d' :: _ => some (.closeObject, 1)
  | ',' :: _ => some (.comma, 1)
  | ':' :: _ => some (.colon, 1)
  | 'n' :: 'u' :: 'l' :: 'l' :: _ => some (.null, 4)
  | 't' :: 'r' :: 'u' :: 'e' :: _ => some (.boolean true, 4)
  | 'f' :: 'a' :: 'l' :: 's' :: 'e' :: _ => some (.boolean false, 5)
  | '\x22' :: rest => (readParts rest).map fun (parts, size) => (.string (joinParts parts), size + 1)
  | text => (Number.read? text).map fun literal => (.number literal, literal.length)

/-- Cut a text into tokens after passing over `skip` characters of the last one. -/
def lexFrom : (skip : Nat) → List Char → Option (List Token)
  | _, [] => some []
  | skip + 1, _ :: rest => lexFrom skip rest
  | 0, c :: rest =>
      if isSpace c then lexFrom 0 rest
      else
        match readToken (c :: rest) with
        | none => none
        | some (token, size) => (lexFrom (size - 1) rest).map (token :: ·)

def lex (text : List Char) : Option (List Token) :=
  lexFrom 0 text

end Json

end Dockerfile
