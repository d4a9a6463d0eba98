/-!
# Edit distance

The least number of insertions, deletions and substitutions that turn one list into another,
computed row by row.
-/

namespace Dockerfile

namespace Distance

variable {α : Type} [BEq α]

/-- One row of the table from the row above: `left` is the entry just written, `corner` the entry
above it. -/
def row (a : α) (left corner : Nat) : List α → List Nat → List Nat
  | b :: target, above :: rest =>
      let entry := if a == b then corner else min (min above left) corner + 1
      entry :: row a entry above target rest
  | _, _ => []

def nextRow (target : List α) (above : List Nat) (a : α) : List Nat :=
  match above with
  | [] => []
  | corner :: rest => (corner + 1) :: row a (corner + 1) corner target rest

end Distance

def editDistance {α : Type} [BEq α] (source target : List α) : Nat :=
  (source.foldl (Distance.nextRow target) (List.range (target.length + 1))).getLastD 0

end Dockerfile
