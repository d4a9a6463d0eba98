import Dockerfile.Text.Bytes

/-!
# Quoting

Inside an argument single and double quotes keep blanks from ending a word.  The state between two
bytes is the quote that is open, if any.
-/

namespace Dockerfile

inductive Quote where
  | single
  | double
  deriving DecidableEq, Repr

namespace Quote

def byte : Quote → UInt8
  | .single => Byte.singleQuote
  | .double => Byte.doubleQuote

def ofByte? (b : UInt8) : Option Quote :=
  if b == Byte.singleQuote then some .single
  else if b == Byte.doubleQuote then some .double
  else none

theorem ofByte?_byte (q : Quote) : ofByte? q.byte = some q := by
  cases q <;> rfl

/-- The state after one more byte; none at a blank outside quotes, which ends the word. -/
def next (state : Option Quote) (b : UInt8) : Option (Option Quote) :=
  match state with
  | some q => if b == q.byte then some none else some (some q)
  | none => if Byte.isBlank b then none else some (ofByte? b)

end Quote

end Dockerfile
