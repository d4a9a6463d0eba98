import Dockerfile.Quote
import Dockerfile.Text.Tokens

/-!
# Words and flags

An argument is a sequence of words with blanks between them; a quoted run stays in one word.  The
words that start with two hyphens and precede all others are flags, the rest are operands.
-/

namespace Dockerfile

/-- A piece of an argument with the logical indexes it covers. -/
structure Word where
  text : Bytes
  start : Nat
  stop : Nat
  deriving DecidableEq, Repr

namespace Word

/-- The number of bytes before the word ends. -/
def length : Option Quote → Bytes → Nat
  | _, [] => 0
  | state, b :: rest =>
      match Quote.next state b with
      | none => 0
      | some state => length state rest + 1

theorem length_le (state : Option Quote) (text : Bytes) : length state text ≤ text.length := by
  induction text generalizing state with
  | nil => exact Nat.le_refl _
  | cons b rest ih =>
      unfold length
      split
      · exact Nat.zero_le _
      · exact Nat.succ_le_succ (ih _)

def read (index : Nat) (text : Bytes) : Option (Word × Nat) :=
  match length none text with
  | 0 => none
  | n + 1 => some (⟨text.take (n + 1), index, index + (n + 1)⟩, n + 1)

def all (text : Bytes) : List Word :=
  tokens read text

def isFlag (word : Word) : Bool :=
  (utf8 "--").isPrefixOf word.text

def operands (words : List Word) : List Word :=
  words.dropWhile isFlag

end Word

structure Flag where
  name : Word
  value : Option Word
  deriving DecidableEq, Repr

namespace Flag

def ofWord (word : Word) : Flag :=
  let body := word.text.drop 2
  let name := body.takeWhile (· != Byte.equals)
  let start := word.start + 2
  { name := ⟨name, start, start + name.length⟩
    value :=
      match body.dropWhile (· != Byte.equals) with
      | [] => none
      | _ :: value => some ⟨value, start + name.length + 1, word.stop⟩ }

def leading (words : List Word) : List Flag :=
  (words.takeWhile Word.isFlag).map ofWord

end Flag

end Dockerfile
