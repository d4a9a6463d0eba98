import Dockerfile.Text.Case

/-!
# Folding in blocks

A text that is compared without regard to case is folded first: each of its characters goes to its
lower case.  Folding reads a block of 128 bytes at a time and writes into a room of limited size.

- A character that does not fit into the room left ends the pass over its block and is lost.
- A block may end inside a character, whose bytes then count as stray ones.
- The replacement character counts as one byte read, so that the bytes after its first are read
  again as stray ones.

As long as the blocks come out as they went in, each has a room of its own.  From the first block on
that is changed, what is written shares one room, which grows when a pass has written nothing.
-/

namespace Dockerfile

namespace Folding

/-- How many bytes are read at a time; also the size of the first room. -/
def blockSize : Nat := 128

def width (c : Char) : Nat :=
  if c = Piece.replacement then 1 else c.utf8Size

theorem width_pos (c : Char) : 0 < width c := by
  unfold width
  split
  · exact Nat.zero_lt_one
  · exact Char.utf8Size_pos c

/-- What a pass over a block has written, how many bytes it has read, and whether it ended for want
of room. -/
structure Pass where
  written : Bytes
  taken : Nat
  isFull : Bool
  deriving DecidableEq, Repr

namespace Pass

def fill : (room : Nat) → List Char → Pass
  | _, [] => ⟨[], 0, false⟩
  | room, c :: rest =>
      let folded := String.utf8EncodeChar (lowerChar c)
      if room < folded.length then ⟨[], width c, true⟩
      else
        let later := fill (room - folded.length) rest
        ⟨folded ++ later.written, width c + later.taken, later.isFull⟩

/-- A room that holds all of it takes the characters in lower case. -/
theorem written_fill_of_fits {room : Nat} {chars : List Char}
    (fits : (Bytes.ofChars (chars.map lowerChar)).length ≤ room) :
    (fill room chars).written = Bytes.ofChars (chars.map lowerChar) := by
  induction chars generalizing room with
  | nil => rfl
  | cons c rest ih =>
      change (String.utf8EncodeChar (lowerChar c) ++
        Bytes.ofChars (rest.map lowerChar)).length ≤ room at fits
      rw [List.length_append] at fits
      unfold fill
      dsimp only
      rw [if_neg (by omega), ih (by omega)]
      rfl

theorem taken_fill_cons (room : Nat) (c : Char) (rest : List Char) :
    0 < (fill room (c :: rest)).taken := by
  have positive := width_pos c
  unfold fill
  dsimp only
  split
  · exact positive
  · exact Nat.add_pos_left positive _

def first (room : Nat) (text : Bytes) : Pass :=
  fill room (Bytes.chars (text.take blockSize))

theorem taken_first_pos (room : Nat) (b : UInt8) (rest : Bytes) :
    0 < (first room (b :: rest)).taken :=
  taken_fill_cons room _ _

end Pass

/-- The size of a room that a character did not fit into, once it has grown. -/
def grow (room : Nat) : Nat :=
  if room ≤ 256 then room * 2 else room + room / 2

/-- Fold a text into the room that it shares with what is written. -/
def shared (room : Nat) (written : Bytes) : Bytes → Bytes
  | [] => written
  | b :: rest =>
      let pass := Pass.first (room - written.length) (b :: rest)
      shared (if pass.isFull && pass.written.isEmpty then grow room else room)
        (written ++ pass.written) ((b :: rest).drop pass.taken)
termination_by text => text.length
decreasing_by
  have progress := Pass.taken_first_pos (room - written.length) b rest
  simp only [List.length_drop, List.length_cons]
  omega

/-- Fold a text block by block, each into a room of its own, up to the first block that is changed;
`total` is the length of the whole text, of which what is written is a part. -/
def apart (total : Nat) (written : Bytes) : Bytes → Bytes
  | [] => written
  | b :: rest =>
      let pass := Pass.first blockSize (b :: rest)
      let remaining := (b :: rest).drop pass.taken
      if !pass.isFull && pass.written == (b :: rest).take pass.taken then
        apart total (written ++ pass.written) remaining
      else if (written ++ pass.written).length ≤ blockSize then
        shared blockSize (written ++ pass.written) remaining
      else
        shared (total + pass.written.length - pass.taken) (written ++ pass.written) remaining
termination_by text => text.length
decreasing_by
  have progress := Pass.taken_first_pos blockSize b rest
  simp only [List.length_drop, List.length_cons]
  omega

end Folding

/-- The text in lower case, as far as folding in blocks keeps it. -/
def Bytes.fold (text : Bytes) : Bytes :=
  Folding.apart text.length [] text

end Dockerfile
