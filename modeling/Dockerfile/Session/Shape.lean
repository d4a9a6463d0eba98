import Dockerfile.Json.Value

/-!
# Shapes of parameters

A request's parameters are JSON of an agreed shape.  A member that is missing or `null` has the
value zero, members that are not mentioned are passed over, and names are compared without regard
to case.  Anything else of another kind makes the parameters useless as a whole.

An object may hold several spellings of one name.  They are taken in the order of the spellings:
objects under them are put together, and of other values the last counts.
-/

namespace Dockerfile

/-- What a value has to be, unless it is `null`.  In a `record` every value under a name has the
shape of the name; `last` looks only at the value that counts, which stands last under the last name
of a path. -/
inductive Shape where
  | anything
  | truth
  | text
  | integer32
  | natural32
  | either (first second : Shape)
  | both (first second : Shape)
  | list (item : Shape)
  | record (shapes : List (String × Shape))
  | last (path : List String) (shape : Shape)

namespace Shape

/-- The name without regard to case; two characters outside ASCII have an ASCII letter as their
other case. -/
def foldName (name : Bytes) : List Char :=
  name.chars.map fun c =>
    if c.toNat == 0x17f then 'S'
    else if c.toNat == 0x212a then 'K'
    else c.toUpper

def names (member : String) (name : Bytes) : Bool :=
  foldName name == foldName (utf8 member)

def isInteger32 (literal : Bytes) : Bool :=
  (Numeral.integer? literal).any fun n => -0x80000000 ≤ n && n < 0x80000000

def isNatural32 (literal : Bytes) : Bool :=
  (Numeral.natural? literal).any (· < 0x100000000)

end Shape

namespace Json

/-- The members of an object in the order of their names; the last of equal names counts. -/
def sortedMembers : Json → List (Bytes × Json)
  | .object members =>
      (members.reverse.eraseDupsBy fun a b => a.1 == b.1).mergeSort fun a b => a.1 ≤ b.1
  | _ => []

def valuesUnder (name : String) (members : List (Bytes × Json)) : List Json :=
  members.filterMap fun (key, value) => if Shape.names name key then some value else none

/-- The members of all objects that stand under a name. -/
def inside (name : String) (members : List (Bytes × Json)) : List (Bytes × Json) :=
  (valuesUnder name members).flatMap sortedMembers

def lastUnder (name : String) (members : List (Bytes × Json)) : Json :=
  (valuesUnder name members).getLastD .null

/-- The last value under the last name of a path, in the objects under the names before it. -/
def lastAt : (path : List String) → List (Bytes × Json) → Json
  | [], members => .object members
  | [name], members => lastUnder name members
  | name :: path, members => lastAt path (inside name members)

def isNull : Json → Bool
  | .null => true
  | _ => false

/-- The last value under a name that is not `null`. -/
def under (name : String) (members : List (Bytes × Json)) : Json :=
  ((valuesUnder name members).filter (!·.isNull)).getLastD .null

/-- The members of the objects under a name that may be absent: `null` takes back all that came
before it. -/
def inside? (name : String) (members : List (Bytes × Json)) : Option (List (Bytes × Json)) :=
  let values := ((valuesUnder name members).reverse.takeWhile (!·.isNull)).reverse
  if values.isEmpty then none else some (values.flatMap sortedMembers)

def textUnder (name : String) (members : List (Bytes × Json)) : Bytes :=
  match under name members with
  | .string s => s
  | _ => []

def integerUnder (name : String) (members : List (Bytes × Json)) : Int :=
  match under name members with
  | .number literal => (Numeral.integer? literal).getD 0
  | _ => 0

/-- The items of the last list under a name; `null` is a list without items. -/
def itemsUnder (name : String) (members : List (Bytes × Json)) : List Json :=
  match lastUnder name members with
  | .array items => items
  | _ => []

end Json

namespace Shape

mutual

def accepts : Shape → Json → Bool
  | _, .null => true
  | .anything, _ => true
  | .truth, .boolean _ => true
  | .text, .string _ => true
  | .integer32, .number literal => isInteger32 literal
  | .natural32, .number literal => isNatural32 literal
  | .either first second, value => first.accepts value || second.accepts value
  | .both first second, value => first.accepts value && second.accepts value
  | .list item, .array items => items.all item.accepts
  | .record shapes, .object members => acceptsAll shapes (Json.object members).sortedMembers
  | .last path shape, .object members =>
      shape.accepts (Json.lastAt path (Json.object members).sortedMembers)
  | _, _ => false

def acceptsAll : List (String × Shape) → List (Bytes × Json) → Bool
  | [], _ => true
  | (name, shape) :: rest, members =>
      (Json.valuesUnder name members).all shape.accepts && acceptsAll rest members

end

end Shape

end Dockerfile
