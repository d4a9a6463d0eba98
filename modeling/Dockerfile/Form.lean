import Dockerfile.Json.StringArray
import Dockerfile.Keyword

/-!
# Argument forms

An instruction that runs a command takes it as an array of strings or as plain text.  Flags in
front of the command are not part of it.
-/

namespace Dockerfile

inductive Form where
  | plain
  | array
  deriving DecidableEq, Repr

namespace Form

def name : Form → Bytes
  | .plain => utf8 "plain"
  | .array => utf8 "array"

/-- What follows the blanks and the words of two hyphens in front; `inFlag` says that such a word
has begun. -/
def dropFlags : (inFlag : Bool) → Bytes → Bytes
  | _, [] => []
  | true, b :: rest => dropFlags (!Byte.isBlank b) rest
  | false, b :: rest =>
      if Byte.isBlank b then dropFlags false rest
      else if b == Byte.minus && rest.head? == some Byte.minus then dropFlags true rest
      else b :: rest

def classify (word text : Bytes) : Form :=
  if (Keyword.ofWord? word).any Keyword.hasArrayForm &&
      (StringArray.read? (dropFlags false text)).isSome then .array
  else .plain

end Form

end Dockerfile
