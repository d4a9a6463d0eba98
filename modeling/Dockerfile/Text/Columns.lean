import Dockerfile.Text.Piece

/-!
# Aligned columns

Rows of cells are laid out so that the cells of a column start at the same place.  A tab ends a
cell and a line feed ends a row.  A vertical tab acts as a tab.  A form feed ends a row as a line
feed does and closes the block: alignment starts afresh after it.  The byte 0xff opens and closes a
stretch in which all these bytes are plain text; it is kept, and takes no room.

The last cell of a row belongs to no column.  A column reaches over consecutive rows that have it;
its cells are as wide as the widest of them and two blanks.
-/

namespace Dockerfile

namespace Columns

/-- The cells of a row, the last of which stands in no column. -/
abbrev Row := List Bytes

abbrev Block := List Row

/-- How far the text has been split: finished blocks, rows and cells are kept in reverse. -/
structure Split where
  blocks : List Block
  rows : List Row
  cells : List Bytes
  cell : Bytes
  escaped : Bool

namespace Split

def start : Split := ⟨[], [], [], [], false⟩

def endCell (s : Split) : Split :=
  { s with cells := s.cell.reverse :: s.cells, cell := [] }

def endRow (s : Split) : Split :=
  { s with rows := s.cells.reverse :: s.rows, cells := [] }

def endBlock (s : Split) : Split :=
  { s with blocks := s.rows.reverse :: s.blocks, rows := [] }

def add (s : Split) (b : UInt8) : Split :=
  { s with cell := b :: s.cell }

def step (s : Split) (b : UInt8) : Split :=
  if b == 0xff then { s.add b with escaped := !s.escaped }
  else if s.escaped then s.add b
  else if b == 0x09 || b == 0x0b then s.endCell
  else if b == 0x0a then s.endCell.endRow
  else if b == 0x0c then s.endCell.endRow.endBlock
  else s.add b

def finish (s : Split) : List Block :=
  (if s.cell.isEmpty then s else s.endCell).endRow.endBlock.blocks.reverse

end Split

def blocks (text : Bytes) : List Block :=
  (text.foldl Split.step Split.start).finish

/-- The room that a cell takes: its characters and stray bytes, escape marks apart. -/
def width (cell : Bytes) : Nat :=
  (cell.pieces.filter (· ≠ .stray 0xff)).length

def reaches (column : Nat) (row : Row) : Bool :=
  column + 1 < row.length

def pad (column wide : Nat) (row : Row) : Row :=
  row.modify column fun cell => cell ++ List.replicate (wide - width cell) Byte.space

/-- Align a column over consecutive rows that all have it. -/
def alignRun (column : Nat) (rows : List Row) : List Row :=
  let wide := (rows.map fun row => width (row.getD column []) + 2).foldl max 0
  rows.map (pad column wide)

def alignColumn (block : Block) (column : Nat) : Block :=
  (block.splitBy fun a b => reaches column a == reaches column b).flatMap fun rows =>
    if rows.any (reaches column) then alignRun column rows else rows

def alignBlock (block : Block) : Block :=
  (List.range ((block.map List.length).foldl max 0)).foldl alignColumn block

end Columns

def alignColumns (text : Bytes) : Bytes :=
  Bytes.join [Byte.lineFeed] (((Columns.blocks text).flatMap Columns.alignBlock).map List.flatten)

end Dockerfile
