import Dockerfile.Text.Distance
import Dockerfile.Text.Folding

/-!
# Suggestions

Names similar to one that was not found.  A name matches another if its characters, case ignored,
occur in the other in the same order.  First come the candidates that the name matches, nearest
first, then those that match the name.
-/

namespace Dockerfile

namespace Suggestion

/-- The characters of the first text occur in the second in their order, both folded, and the second
is no shorter. -/
def isMatch (name other : Bytes) : Bool :=
  name.fold.length ≤ other.fold.length && name.fold.chars.isSublist other.fold.chars

/-- The edit distance of two texts by characters, in which case counts. -/
def distance (name other : Bytes) : Nat :=
  editDistance name.chars other.chars

/-- The candidates that the name matches, nearest first; equally near ones keep their order. -/
def nearest (name : Bytes) (candidates : List Bytes) : List Bytes :=
  (candidates.filter (isMatch name)).mergeSort fun a b => distance name a ≤ distance name b

/-- The candidates other than the name that match it or are matched by it, each once. -/
def closest (name : Bytes) (candidates : List Bytes) : List Bytes :=
  if name.isEmpty then []
  else
    ((nearest name candidates ++ candidates.filter (isMatch · name)).filter (· != name)).eraseDups

end Suggestion

end Dockerfile
