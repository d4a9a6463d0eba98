import Dockerfile.Json.Token
import Dockerfile.Text.Decimal

/-!
# JSON values

Values keep the order of an object's members and the spelling of a number.  Reading is a machine
that takes the tokens one by one and keeps the open arrays and objects on a stack.
-/

namespace Dockerfile

inductive Json where
  | null
  | boolean (value : Bool)
  | number (literal : Bytes)
  | string (value : Bytes)
  | array (items : List Json)
  | object (members : List (Bytes × Json))

namespace Json

def ofInt (n : Int) : Json :=
  .number (signedDecimal n)

def ofNat (n : Nat) : Json :=
  .number (decimal n)

def ofString (s : String) : Json :=
  .string (utf8 s)

/-- The value of a member; the last of equal names counts. -/
def member? (name : String) : Json → Option Json
  | .object members => (members.reverse.find? (·.1 == utf8 name)).map (·.2)
  | _ => none

/-- An array or object that is still open, its contents in reverse. -/
inductive Frame where
  | array (items : List Json)
  | object (members : List (Bytes × Json)) (name : Bytes)

inductive Expect where
  | value
  | valueOrClose
  | name
  | nameOrClose
  | colon
  | commaOrClose
  | nothing
  deriving DecidableEq

structure Machine where
  stack : List Frame
  expect : Expect
  result : Option Json

namespace Machine

def start : Machine := ⟨[], .value, none⟩

def deliver (value : Json) : List Frame → Machine
  | [] => ⟨[], .nothing, some value⟩
  | .array items :: stack => ⟨.array (value :: items) :: stack, .commaOrClose, none⟩
  | .object members name :: stack =>
      ⟨.object ((name, value) :: members) [] :: stack, .commaOrClose, none⟩

def takeValue (m : Machine) : Token → Option Machine
  | .openArray => some ⟨.array [] :: m.stack, .valueOrClose, none⟩
  | .openObject => some ⟨.object [] [] :: m.stack, .nameOrClose, none⟩
  | .null => some (deliver .null m.stack)
  | .boolean b => some (deliver (.boolean b) m.stack)
  | .number literal => some (deliver (.number (Bytes.ofChars literal)) m.stack)
  | .string s => some (deliver (.string (Bytes.ofChars s)) m.stack)
  | _ => none

def takeName (m : Machine) : Token → Option Machine
  | .string s =>
      match m.stack with
      | .object members _ :: stack =>
          some ⟨.object members (Bytes.ofChars s) :: stack, .colon, none⟩
      | _ => none
  | _ => none

def close (m : Machine) : Token → Option Machine
  | .closeArray =>
      match m.stack with
      | .array items :: stack => some (deliver (.array items.reverse) stack)
      | _ => none
  | .closeObject =>
      match m.stack with
      | .object members _ :: stack => some (deliver (.object members.reverse) stack)
      | _ => none
  | _ => none

def next (m : Machine) (token : Token) : Option Machine :=
  match token, m.stack with
  | .comma, .array _ :: _ => some { m with expect := .value }
  | .comma, .object _ _ :: _ => some { m with expect := .name }
  | _, _ => m.close token

def step (m : Machine) (token : Token) : Option Machine :=
  match m.expect with
  | .value => m.takeValue token
  | .valueOrClose => (m.close token).or (m.takeValue token)
  | .name => m.takeName token
  | .nameOrClose => (m.close token).or (m.takeName token)
  | .colon => if token = .colon then some { m with expect := .value } else none
  | .commaOrClose => m.next token
  | .nothing => none

end Machine

def read? (text : Bytes) : Option Json :=
  match lex text.chars with
  | some tokens => (tokens.foldlM Machine.step Machine.start).bind (·.result)
  | none => none

end Json

end Dockerfile
