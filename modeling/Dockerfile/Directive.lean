import Dockerfile.Document.Line

/-!
# Directives

A build file may open with a block of directives, comments of the form `# name=value` whose name is
known.  The first line that is none ends the block.  The first directive that is named `escape`
settles the byte that continues lines: a backtick if that is its value, and a backslash otherwise.
-/

namespace Dockerfile

structure Directive where
  name : Bytes
  value : Bytes
  line : Nat
  span : Span
  deriving DecidableEq, Repr

namespace Directive

def isNameByte (b : UInt8) : Bool :=
  Byte.isLetter b || Byte.isDigit b

/-- A name and its value written as `# name=value`, with blanks anywhere between the parts; the
name starts with a letter and is given in lower case. -/
def parse? (content : Bytes) : Option (Bytes × Bytes) :=
  match content.trimLeft with
  | [] => none
  | mark :: rest =>
      let body := Bytes.trimLeft rest
      let name := body.takeWhile isNameByte
      let tail := Bytes.trimLeft (body.dropWhile isNameByte)
      if mark == Byte.hash && name.head?.any Byte.isLetter && tail.head? == some Byte.equals then
        some (name.map Byte.toLower, Bytes.trim (tail.drop 1))
      else none

def isKnown (name : Bytes) : Bool :=
  name == utf8 "escape" || name == utf8 "syntax" || name == utf8 "check"

def ofLine? (line : Line) : Option Directive :=
  match parse? line.content with
  | some (name, value) => if isKnown name then some ⟨name, value, line.number, line.span⟩ else none
  | none => none

def block : List Line → List Directive
  | [] => []
  | line :: rest =>
      match ofLine? line with
      | some d => d :: block rest
      | none => []

theorem length_block_le (lines : List Line) : (block lines).length ≤ lines.length := by
  induction lines with
  | nil => exact Nat.le_refl _
  | cons line rest ih =>
      unfold block
      split
      · exact Nat.succ_le_succ ih
      · exact Nat.zero_le _

def escape? (directives : List Directive) : Option Directive :=
  directives.find? (·.name == utf8 "escape")

def escapeByte? (d : Directive) : Option UInt8 :=
  if d.value == [Byte.backslash] then some Byte.backslash
  else if d.value == [Byte.backtick] then some Byte.backtick
  else none

def escape (directives : List Directive) : UInt8 :=
  ((escape? directives).bind escapeByte?).getD Byte.backslash

end Directive

end Dockerfile
