import Dockerfile.Form
import Dockerfile.Statement

/-!
# Instructions

An instruction is a statement with its keyword looked up, its argument put together and the form of
the argument settled.
-/

namespace Dockerfile

structure Instruction where
  name : Bytes
  keyword : Option Keyword
  keywordSpan : Span
  argument : Argument
  form : Form
  raw : Span
  deriving DecidableEq, Repr

namespace Instruction

def ofStatement (text : Bytes) (escape : UInt8) (s : Statement) : Instruction :=
  let argument := Argument.ofStretches text escape s.stretches s.stop
  { name := s.word.toUpper
    keyword := Keyword.ofWord? s.word
    keywordSpan := s.keyword
    argument := argument
    form := Form.classify s.word.toUpper argument.text
    raw := s.raw }

def isKnown (i : Instruction) : Bool :=
  i.keyword.isSome

def isNamed (i : Instruction) (name : Bytes) : Bool :=
  i.isKnown && i.name == name

/-- From the first to the last byte of the argument; empty at the keyword's end without one. -/
def argumentSpan (i : Instruction) : Span :=
  match i.argument.segments with
  | [] => Span.empty i.keywordSpan.stop
  | s :: _ => ⟨s.span.start, i.argument.stop⟩

def declaresVariables (i : Instruction) : Bool :=
  i.keyword.any Keyword.declaresVariables

def opensStage (i : Instruction) : Bool :=
  i.keyword.any Keyword.opensStage

def refersToStage (i : Instruction) : Bool :=
  i.keyword.any Keyword.refersToStage

def at? (instructions : List Instruction) (offset : Int) : Option Instruction :=
  (instructions.takeWhile (·.raw.start ≤ offset)).find? (·.raw.contains offset)

end Instruction

end Dockerfile
