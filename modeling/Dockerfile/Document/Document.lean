import Dockerfile.Document.Line
import Dockerfile.Text.Piece

/-!
# Documents

A document is a named text together with its lines.  Offsets are turned into editor positions and
back.  The way to a position clamps: an offset outside the text, or inside a line terminator, is
taken to the nearest end of a line's content.  The way back does not: a position past the end of
its line has no offset, and one between the two units of a surrogate pair has the offset of the
character they belong to.
-/

namespace Dockerfile

structure Document where
  uri : Bytes
  text : Bytes
  lines : List Line
  lines_eq : lines = Line.split text

namespace Document

def ofText (uri text : Bytes) : Document :=
  ⟨uri, text, Line.split text, rfl⟩

/-- The number of lines; an empty line after the last line feed counts. -/
def lineCount (doc : Document) : Nat :=
  doc.lines.length

def line? (doc : Document) (number : Int) : Option Line :=
  if number < 0 then none else doc.lines[number.toNat]?

def lineSpan? (doc : Document) (number : Int) : Option Span :=
  (doc.line? number).map Line.span

def lineContent (doc : Document) (number : Int) : Bytes :=
  ((doc.line? number).map Line.content).getD []

/-- The number of the line that holds an offset: the last line that does not start after it. -/
def lineOf (doc : Document) (offset : Int) : Nat :=
  doc.lines.countP (fun line => line.start ≤ offset.toNat) - 1

def positionAt (doc : Document) (offset : Int) : Position :=
  let offset := min offset.toNat doc.text.length
  let number := doc.lineOf offset
  match doc.lines[number]? with
  | some line =>
      ⟨UInt32.ofNat number, UInt32.ofNat (Bytes.units (line.content.take (offset - line.start)))⟩
  | none => ⟨UInt32.ofNat number, 0⟩

/-- How many bytes of the pieces stand before the given number of UTF-16 units. -/
def bytesBefore : List Piece → Nat → Option Nat
  | _, 0 => some 0
  | [], _ + 1 => none
  | piece :: rest, need + 1 =>
      if need + 1 < piece.units then some 0
      else (bytesBefore rest (need + 1 - piece.units)).map (piece.size + ·)

def offsetAt? (doc : Document) (p : Position) : Option Nat :=
  match doc.lines[p.line.toNat]? with
  | some line =>
      (bytesBefore line.content.pieces p.character.toNat).map (line.start + ·)
  | none => none

def rangeOf (doc : Document) (span : Span) : Range :=
  ⟨doc.positionAt span.start, doc.positionAt span.stop⟩

def locationOf (doc : Document) (span : Span) : Location :=
  ⟨doc.uri, doc.rangeOf span⟩

end Document

end Dockerfile
