import Dockerfile.Instruction
import Dockerfile.Word

/-!
# Build stages

`FROM image AS name` opens a build stage and names it.  The name's span is the part of it that
stands on the line where it starts.
-/

namespace Dockerfile

/-- A named stage; `index` counts the stages before it, named or not. -/
structure Stage where
  name : Bytes
  nameSpan : Span
  line : Int
  index : Nat
  deriving DecidableEq, Repr

namespace Stage

def alias? (argument : Argument) : Option Word :=
  match Word.operands (Word.all argument.text) with
  | _ :: middle :: name :: _ => if middle.text.spellsAs then some name else none
  | _ => none

def ofArgument? (index : Nat) (argument : Argument) : Option Stage :=
  (alias? argument).map fun word =>
    { name := word.text
      nameSpan := argument.lineSpan word.start word.stop
      line := ((argument.segmentAt? word.start).map (·.line)).getD 0
      index := index }

/-- The named stages of the instructions, `index` stages having been opened before them. -/
def collect : (index : Nat) → List Instruction → List Stage
  | _, [] => []
  | index, i :: rest =>
      if i.opensStage then (ofArgument? index i.argument).toList ++ collect (index + 1) rest
      else collect index rest

def all (instructions : List Instruction) : List Stage :=
  collect 0 instructions

def find? (stages : List Stage) (name : Bytes) : Option Stage :=
  List.find? (·.name == name) stages

def at? (stages : List Stage) (offset : Int) : Option Stage :=
  List.find? (·.nameSpan.contains offset) stages

end Stage

end Dockerfile
