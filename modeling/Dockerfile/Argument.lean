import Dockerfile.Contract
import Dockerfile.Document.Span

/-!
# Arguments

The argument of an instruction may be written on several physical lines.  It is read as one logical
text, the stretches of the lines put one after the other, and every logical index has a way back to
the byte it came from.
-/

namespace Dockerfile

structure Stretch where
  line : Int
  span : Span
  deriving DecidableEq, Repr

/-- A stretch together with the logical index of its first byte. -/
structure Segment extends Stretch where
  logical : Nat
  deriving DecidableEq, Repr

namespace Segment

def logicalStop (s : Segment) : Int :=
  s.logical + (s.span.stop - s.span.start)

def holds (s : Segment) (i : Int) : Bool :=
  s.logical ≤ i && i < s.logicalStop

end Segment

/-- A logical text with the segments it was put together from; `stop` is the offset just past its
last byte, and `escape` the byte that continues lines in its document. -/
structure Argument where
  text : Bytes
  escape : UInt8
  segments : List Segment
  stop : Int
  deriving DecidableEq, Repr

namespace Argument

/-- Lay stretches end to end from a logical index on. -/
def place : (logical : Nat) → List Stretch → List Segment
  | _, [] => []
  | logical, s :: rest =>
      ⟨s, logical⟩ :: place (logical + (s.span.stop - s.span.start).toNat) rest

def bytesOf (text : Bytes) (s : Stretch) : Bytes :=
  text.slice s.span.start.toNat s.span.stop.toNat

def ofStretches (text : Bytes) (escape : UInt8) (stretches : List Stretch) (stop : Int) :
    Argument where
  text := stretches.flatMap (bytesOf text)
  escape := escape
  segments := place 0 stretches
  stop := stop

def checkStretch (length : Nat) (s : Stretch) : Except Contract.Violation Unit := do
  Contract.inRange s.span.start 0 s.span.stop (utf8 "segment start")
  Contract.inRange s.span.stop s.span.start length (utf8 "segment end")

/-- Put stretches of a text together, refusing one that does not lie in it. -/
def assemble (text : Bytes) (escape : UInt8) (stretches : List Stretch) (stop : Int) :
    Except Contract.Violation Argument := do
  stretches.forM (checkStretch text.length)
  return ofStretches text escape stretches stop

def isEmpty (a : Argument) : Bool :=
  a.text.isEmpty

def segmentAt? (a : Argument) (i : Int) : Option Segment :=
  a.segments.find? (·.holds i)

/-- The offset of a logical index.  An index before the text counts as its first, and one after it
goes to the end of the argument. -/
def source (a : Argument) (i : Int) : Int :=
  match a.segmentAt? (max i 0) with
  | some s => s.span.start + (max i 0 - s.logical)
  | none => a.stop

/-- The offset just past the byte of a logical index.  Past the end of the argument it is a signed
64-bit word. -/
def sourceAfter (a : Argument) (i : Int) : Int :=
  match a.segmentAt? (max i 0) with
  | some s => s.span.start + (max i 0 - s.logical) + 1
  | none => (a.stop + 1).bmod 0x10000000000000000

/-- The offsets of the logical indexes from `start` up to `stop`.  The end is the offset after the
last byte included, so that a span that ends at a line's end leaves the escape byte out. -/
def sourceSpan (a : Argument) (start stop : Int) : Span :=
  if stop ≤ start then Span.empty (a.source start)
  else ⟨a.source start, a.sourceAfter (stop - 1)⟩

/-- The part of a source span that stands on the physical line of its start. -/
def lineSpan (a : Argument) (start stop : Int) : Span :=
  let span := a.sourceSpan start stop
  match a.segmentAt? start with
  | some s => ⟨span.start, min span.stop s.span.stop⟩
  | none => span

/-- Halve the indexes from `low` up to `high` until the first one that satisfies a property which
holds from some index on. -/
def bisect (holds : Nat → Bool) : (rounds low high : Nat) → Nat
  | 0, low, _ => low
  | rounds + 1, low, high =>
      if low < high then
        if holds ((low + high) / 2) then bisect holds rounds low ((low + high) / 2)
        else bisect holds rounds ((low + high) / 2 + 1) high
      else low

/-- The number of the first segment that ends after an offset. -/
def segmentAfter (a : Argument) (offset : Int) : Nat :=
  bisect (fun i => (a.segments[i]?).any fun s => offset < s.span.stop)
    a.segments.length 0 a.segments.length

def logical? (a : Argument) (offset : Int) : Option Nat :=
  match a.segments[a.segmentAfter offset]? with
  | some s =>
      if s.span.contains offset then some (s.logical + (offset - s.span.start).toNat) else none
  | none => none

end Argument

end Dockerfile
