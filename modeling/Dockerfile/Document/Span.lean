import Dockerfile.Text.Decimal

/-!
# Spans, positions and ranges

A span is a half-open stretch of byte offsets; a range is a half-open stretch of editor positions.
A position counts lines from zero and characters in UTF-16 units; positions are ordered by line
first.
-/

namespace Dockerfile

/-- The byte offsets from `start` up to, not including, `stop`. -/
structure Span where
  start : Int
  stop : Int
  deriving DecidableEq, Repr, Inhabited

namespace Span

/-- The number of bytes covered, as a signed 64-bit word. -/
def length (span : Span) : Int :=
  (span.stop - span.start).bmod 0x10000000000000000

def contains (span : Span) (offset : Int) : Bool :=
  span.start ≤ offset && offset < span.stop

def empty (offset : Int) : Span :=
  ⟨offset, offset⟩

end Span

/-- A place in a document: a line and a number of UTF-16 units into it, both from zero. -/
structure Position where
  line : UInt32
  character : UInt32
  deriving DecidableEq, Repr, Inhabited

namespace Position

/-- Strictly before: on an earlier line, or earlier on the same line. -/
def before (p q : Position) : Bool :=
  if p.line ≠ q.line then p.line < q.line else p.character < q.character

def render (p : Position) : Bytes :=
  decimal p.line.toNat ++ Byte.colon :: decimal p.character.toNat

end Position

structure Range where
  start : Position
  stop : Position
  deriving DecidableEq, Repr, Inhabited

namespace Range

def contains (range : Range) (p : Position) : Bool :=
  !p.before range.start && p.before range.stop

def render (range : Range) : Bytes :=
  range.start.render ++ Byte.minus :: range.stop.render

end Range

structure Location where
  uri : Bytes
  range : Range
  deriving DecidableEq, Repr

end Dockerfile
