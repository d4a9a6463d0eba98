import Dockerfile.Json.Token
import Dockerfile.Text.Printable

/-!
# Arrays of strings

The exec form of an instruction is a JSON array of strings.  `null` in place of an element is the
empty string; any other element makes the text no array of strings.
-/

namespace Dockerfile

namespace StringArray

def element? : Json.Token → Option (List Char)
  | .string value => some value
  | .null => some []
  | _ => none

/-- The elements after the opening bracket, each followed by a comma but the last by the closing
bracket, which ends the text. -/
def elements? : List Json.Token → Option (List (List Char))
  | [token, .closeArray] => (element? token).map ([·])
  | token :: .comma :: rest =>
      match element? token, elements? rest with
      | some value, some values => some (value :: values)
      | _, _ => none
  | _ => none

def ofTokens? : List Json.Token → Option (List (List Char))
  | [.openArray, .closeArray] => some []
  | .openArray :: rest => elements? rest
  | _ => none

def strip (text : List Char) : List Char :=
  ((text.dropWhile isWhiteSpace).reverse.dropWhile isWhiteSpace).reverse

def read? (text : Bytes) : Option (List Bytes) :=
  match Json.lex (strip text.chars) with
  | some tokens => (ofTokens? tokens).map fun values => values.map Bytes.ofChars
  | none => none

end StringArray

end Dockerfile
