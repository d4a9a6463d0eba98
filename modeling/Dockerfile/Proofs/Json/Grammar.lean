import Dockerfile.Json.Token

/-!
# The grammar of JSON

What a JSON text is, told without a reader: white space, string literals with their escapes,
numbers, the three names, and arrays and objects of values.  Arrays are told by what their items are,
so that one definition serves arrays of any values and arrays of strings.  How a given string may be
written is told apart: every character raw, by a short escape, by the unit of its number or by a
surrogate pair, each as it likes.
-/

namespace Dockerfile

namespace Json

/-- White space between tokens: spaces, tabs, line feeds and carriage returns. -/
def IsGap (text : List Char) : Prop :=
  ∀ c ∈ text, c = ' ' ∨ c = '\t' ∨ c = '\n' ∨ c = '\r'

/-! ## String literals -/

def lowerDigits : List Char :=
  ['0', '1', '2', '3', '4', '5', '6', '7', '8', '9', 'a', 'b', 'c', 'd', 'e', 'f']

def upperDigits : List Char :=
  ['0', '1', '2', '3', '4', '5', '6', '7', '8', '9', 'A', 'B', 'C', 'D', 'E', 'F']

def IsHexDigit (c : Char) (value : Nat) : Prop :=
  lowerDigits[value]? = some c ∨ upperDigits[value]? = some c

/-- The four characters are the hexadecimal digits of a number. -/
def IsUnit (n : Nat) (a b c d : Char) : Prop :=
  ∃ i j k l, IsHexDigit a i ∧ IsHexDigit b j ∧ IsHexDigit c k ∧ IsHexDigit d l ∧
    n = ((i * 16 + j) * 16 + k) * 16 + l

/-- What may follow a backslash, with the character that it stands for. -/
def shortEscapes : List (Char × Char) :=
  [('\x22', '\x22'), ('\x5c', '\x5c'), ('/', '/'), ('b', '\x08'), ('f', '\x0c'), ('n', '\n'),
    ('r', '\r'), ('t', '\t')]

namespace Part

/-- How a part of a string literal is written: a character raw, unless it is a control character, a
quote or a backslash, or by a short escape; a unit by its four digits. -/
inductive IsWritten : Part → List Char → Prop
  | raw {c : Char} (visible : 0x20 ≤ c.toNat) (noQuote : c ≠ '\x22') (noEscape : c ≠ '\x5c') :
      IsWritten (.char c) [c]
  | short {e c : Char} (listed : (e, c) ∈ shortEscapes) : IsWritten (.char c) ['\x5c', e]
  | unit {n : Nat} {a b c d : Char} (digits : IsUnit n a b c d) :
      IsWritten (.unit n) ['\x5c', 'u', a, b, c, d]

inductive AreWritten : List Part → List Char → Prop
  | nil : AreWritten [] []
  | cons {part : Part} {parts : List Part} {text more : List Char} (first : IsWritten part text)
      (later : AreWritten parts more) : AreWritten (part :: parts) (text ++ more)

end Part

inductive IsLiteral (parts : List Part) : List Char → Prop
  | intro {body : List Char} (written : Part.AreWritten parts body) :
      IsLiteral parts ('\x22' :: (body ++ ['\x22']))

/-! ## Arrays -/

section

variable {α : Type} (item : α → List Char → Prop)

/-- One item or more, with commas between them and white space around each. -/
inductive Items : List α → List Char → Prop
  | last {a : α} {front text back : List Char} (before : IsGap front) (written : item a text)
      (after : IsGap back) : Items [a] (front ++ (text ++ back))
  | cons {a : α} {rest : List α} {front text back more : List Char} (before : IsGap front)
      (written : item a text) (after : IsGap back) (later : Items rest more) :
      Items (a :: rest) (front ++ (text ++ (back ++ ',' :: more)))

/-- Any number of items between two brackets. -/
inductive Enclosed (left right : Char) : List α → List Char → Prop
  | empty {gap : List Char} (between : IsGap gap) :
      Enclosed left right [] (left :: (gap ++ [right]))
  | filled {items : List α} {text : List Char} (written : Items item items text) :
      Enclosed left right items (left :: (text ++ [right]))

end

/-! ## Values -/

def IsDigits (text : List Char) : Prop :=
  text ≠ [] ∧ ∀ c ∈ text, c.isDigit = true

/-- A number: an optional minus, a whole part without a leading zero, and an optional fraction and
exponent. -/
inductive IsNumber : List Char → Prop
  | intro {sign whole fraction exponent : List Char} (signed : sign = [] ∨ sign = ['-'])
      (counted : whole = ['0'] ∨ IsDigits whole ∧ whole.head? ≠ some '0')
      (parted : fraction = [] ∨ ∃ run, fraction = '.' :: run ∧ IsDigits run)
      (raised : exponent = [] ∨ ∃ e mark run, exponent = e :: (mark ++ run) ∧
        (e = 'e' ∨ e = 'E') ∧ (mark = [] ∨ mark = ['+'] ∨ mark = ['-']) ∧ IsDigits run) :
      IsNumber (sign ++ (whole ++ (fraction ++ exponent)))

inductive Kind where
  | null
  | boolean
  | number
  | string
  | array
  | object
  deriving DecidableEq

mutual

inductive Value : Kind → List Char → Prop
  | null : Value .null ['n', 'u', 'l', 'l']
  | yes : Value .boolean ['t', 'r', 'u', 'e']
  | no : Value .boolean ['f', 'a', 'l', 's', 'e']
  | number {text : List Char} (written : IsNumber text) : Value .number text
  | string {parts : List Part} {text : List Char} (written : IsLiteral parts text) :
      Value .string text
  | array {kinds : List Kind} {text : List Char} (written : Enclosed Value '[' ']' kinds text) :
      Value .array text
  | object {kinds : List Kind} {text : List Char}
      (written : Enclosed Member '\x7b' '\x7d' kinds text) : Value .object text

/-- A member of an object: a name, a colon and a value, with white space around the colon. -/
inductive Member : Kind → List Char → Prop
  | intro {kind : Kind} {parts : List Part} {name front back text : List Char}
      (named : IsLiteral parts name) (before : IsGap front) (after : IsGap back)
      (written : Value kind text) : Member kind (name ++ (front ++ ':' :: (back ++ text)))

end

/-! ## Ways to write a string -/

/-- A character as it may be written in a string literal: raw or by a short escape, by the unit of
its number, or by the two units of a surrogate pair. -/
inductive Spells (c : Char) : List Char → Prop
  | char {text : List Char} (written : Part.IsWritten (.char c) text) : Spells c text
  | unit {text : List Char} (written : Part.IsWritten (.unit c.toNat) text) : Spells c text
  | pair {high low : Nat} {first second : List Char} (isHigh : 0xd800 ≤ high ∧ high < 0xdc00)
      (isLow : 0xdc00 ≤ low ∧ low < 0xe000)
      (number : c.toNat = 0x10000 + (high - 0xd800) * 0x400 + (low - 0xdc00))
      (one : Part.IsWritten (.unit high) first) (two : Part.IsWritten (.unit low) second) :
      Spells c (first ++ second)

inductive SpellsAll : List Char → List Char → Prop
  | nil : SpellsAll [] []
  | cons {c : Char} {rest text more : List Char} (first : Spells c text)
      (later : SpellsAll rest more) : SpellsAll (c :: rest) (text ++ more)

inductive Renders (value : String) : List Char → Prop
  | intro {body : List Char} (spelled : SpellsAll value.toList body) :
      Renders value ('\x22' :: (body ++ ['\x22']))

end Json

end Dockerfile
