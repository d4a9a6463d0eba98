import Dockerfile.Argument
import Dockerfile.Document.Line

/-!
# Statements

A statement is a keyword and its argument as they are laid out on physical lines.  A line whose
usable part is followed by the escape byte is continued; blank lines and comments do not count,
neither between statements nor inside one.  Every line of the file belongs to one statement at most.
-/

namespace Dockerfile

namespace Line

/-- The line has nothing on it or only a comment. -/
def isIgnored (line : Line) : Bool :=
  match line.content.trimLeft with
  | [] => true
  | b :: _ => b == Byte.hash

def escapeRun (escape : UInt8) (text : Bytes) : Nat :=
  (text.reverse.takeWhile (· == escape)).length

/-- The line goes on: blanks apart, it ends in an odd number of escape bytes. -/
def isContinued (escape : UInt8) (line : Line) : Bool :=
  escapeRun escape line.content.trimRight % 2 == 1

/-- What a line contributes: its content up to the blanks at its end, and up to the escape byte if
it is continued. -/
def usable (escape : UInt8) (line : Line) : Bytes :=
  if line.isContinued escape then line.content.trimRight.dropLast else line.content.trimRight

end Line

/-- Where a keyword and its argument stand: the first line's number, the keyword and its span, the
stretches of the argument and the offset where it ends, and the span of the whole. -/
structure Statement where
  line : Nat
  word : Bytes
  keyword : Span
  stretches : List Stretch
  stop : Int
  raw : Span
  deriving DecidableEq, Repr

namespace Statement

/-- The stretch from `start` to `stop`, if it holds anything. -/
def stretch (line : Nat) (start stop : Nat) : List Stretch :=
  if start < stop then [⟨line, ⟨start, stop⟩⟩] else []

def first (escape : UInt8) (line : Line) : Statement :=
  let usable := line.usable escape
  let indent := line.content.indent
  let word := (usable.drop indent).takeWhile (!Byte.isBlank ·)
  let start := line.start + indent
  let wordStop := start + word.length
  let argument := wordStop + Bytes.indent (usable.drop (indent + word.length))
  let stop := line.start + usable.length
  { line := line.number
    word := word
    keyword := ⟨start, wordStop⟩
    stretches := stretch line.number argument stop
    stop := if argument = stop then wordStop else stop
    raw := ⟨start, line.stop⟩ }

def extend (escape : UInt8) (s : Statement) (line : Line) : Statement :=
  let stop := line.start + (line.usable escape).length
  { s with
    stretches := s.stretches ++ stretch line.number line.start stop
    stop := if line.start < stop then stop else s.stop
    raw := ⟨s.raw.start, line.stop⟩ }

/-- Read statements off the lines; `pending` is one that goes on with them. -/
def scan (escape : UInt8) : (pending : Option Statement) → List Line → List Statement
  | none, [] => []
  | some s, [] => [s]
  | pending, line :: rest =>
      if line.isIgnored then scan escape pending rest
      else
        let s := match pending with
          | none => first escape line
          | some s => s.extend escape line
        if line.isContinued escape then scan escape (some s) rest
        else s :: scan escape none rest

def ofLines (escape : UInt8) (lines : List Line) : List Statement :=
  scan escape none lines

end Statement

end Dockerfile
