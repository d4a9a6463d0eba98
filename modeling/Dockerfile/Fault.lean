import Dockerfile.Text.Bytes

/-!
# Faults

What goes wrong at the edges: reading input, reading a position, and asking about a document that
is not open.  A fault may have a cause.  Its kind decides the exit status, and a fault that only
adds a note to its cause has the kind of the cause.
-/

namespace Dockerfile

namespace Fault

inductive Kind where
  | inputRead
  | fileNotFound
  | invalidPosition
  | unknownDocument
  | noDefinition
  | other (label : Bytes)
  deriving DecidableEq, Repr

namespace Kind

/-- The kinds with a name of their own. -/
def named : List Kind :=
  [.inputRead, .fileNotFound, .invalidPosition, .unknownDocument, .noDefinition]

def label : Kind → Bytes
  | .inputRead => utf8 "INPUT_READ_ERROR"
  | .fileNotFound => utf8 "FILE_NOT_FOUND"
  | .invalidPosition => utf8 "INVALID_POSITION"
  | .unknownDocument => utf8 "UNKNOWN_DOCUMENT"
  | .noDefinition => utf8 "NO_DEFINITION"
  | .other label => label

def ofLabel (text : Bytes) : Kind :=
  (named.find? (·.label == text)).getD (.other text)

end Kind

inductive Detail where
  | text (value : Bytes)
  | names (values : List Bytes)
  deriving DecidableEq, Repr

/-- Details under their keys; a later one hides an earlier one of the same key. -/
abbrev Context := List (Bytes × Detail)

end Fault

/-- A message alone, a note on another fault, or a fault of a kind with its details. -/
inductive Fault where
  | plain (message : Bytes)
  | note (message : Bytes) (cause : Option Fault)
  | typed (kind : Fault.Kind) (message : Bytes) (cause : Option Fault) (context : Fault.Context)

namespace Fault

/-- The whole text of a fault, causes included. -/
def text : Fault → Bytes
  | .plain message => message
  | .note message none => message ++ utf8 ": %!w(<nil>)"
  | .note message (some cause) => message ++ utf8 ": " ++ cause.text
  | .typed kind message none _ => kind.label ++ utf8 ": " ++ message
  | .typed kind message (some cause) _ =>
      kind.label ++ utf8 ": " ++ message ++ utf8 " (caused by: " ++ cause.text ++ utf8 ")"

def cause? : Fault → Option Fault
  | .plain _ => none
  | .note _ cause => cause
  | .typed _ _ cause _ => cause

/-- Kind and details of the outermost fault that has a kind. -/
def outermost? : Fault → Option (Kind × Context)
  | .plain _ => none
  | .note _ none => none
  | .note _ (some cause) => cause.outermost?
  | .typed kind _ _ context => some (kind, context)

def hasKind (fault : Fault) (kind : Kind) : Bool :=
  fault.outermost?.any (·.1 == kind)

def Context.get? (context : Context) (key : Bytes) : Option Detail :=
  (context.reverse.find? (·.1 == key)).map (·.2)

/-- The fault with one more detail, if it is of a kind. -/
def withDetail (fault : Fault) (key : Bytes) (detail : Detail) : Fault :=
  match fault with
  | .typed kind message cause context => .typed kind message cause (context ++ [(key, detail)])
  | other => other

def inputRead (name : Bytes) (cause : Option Fault) : Fault :=
  .typed .inputRead (utf8 "cannot read '" ++ name ++ utf8 "'") cause [(utf8 "path", .text name)]

def fileNotFound (name : Bytes) (cause : Fault) : Fault :=
  .typed .fileNotFound (utf8 "no such file '" ++ name ++ utf8 "'") (some cause)
    [(utf8 "path", .text name)]

def invalidPosition (raw reason : Bytes) : Fault :=
  .typed .invalidPosition (utf8 "invalid position '" ++ raw ++ utf8 "': " ++ reason) none
    [(utf8 "position", .text raw)]

def unknownDocument (uri : Bytes) : Fault :=
  .typed .unknownDocument (utf8 "document '" ++ uri ++ utf8 "' is not open") none
    [(utf8 "uri", .text uri)]

/-- A symbol, or with an empty name no symbol at all, has no definition. -/
def noDefinition (name : Bytes) (suggestions : List Bytes) : Fault :=
  let message :=
    if name.isEmpty then utf8 "no definition found"
    else utf8 "no definition found for '" ++ name ++ utf8 "'"
  .typed .noDefinition message none
    [(utf8 "symbol", .text name), (utf8 "suggestions", .names suggestions)]

/-- The exit status of a program that ends with a fault, or without saying which. -/
def exitStatus (fault : Option Fault) : Nat :=
  match fault with
  | some f =>
      if f.hasKind .inputRead || f.hasKind .fileNotFound then 2
      else if f.hasKind .noDefinition then 3
      else 1
  | none => 1

def hint (fault : Option Fault) : Bytes :=
  match fault.bind outermost? with
  | some (_, context) =>
      match context.get? (utf8 "suggestions") with
      | some (.names (first :: rest)) =>
          utf8 "Did you mean: " ++ Bytes.join (utf8 ", ") (first :: rest) ++ utf8 "?"
      | _ => []
  | none => []

end Fault

end Dockerfile
