import Dockerfile.Fault
import Dockerfile.Json.Location
import Dockerfile.Session.Parameters
import Dockerfile.Snapshot

/-!
# Language server sessions

A session takes messages one by one.  It keeps the snapshots of the open documents and answers
requests for definitions from them.  Only whole texts are taken in: of the changes in a message the
last whole text counts, and changes of a range are passed over.  Before the session has been
opened, and after it has been shut down, every other request is refused.
-/

namespace Dockerfile

/-- What a request is known by: an unsigned 64-bit number, or a text. -/
inductive Identifier where
  | number (value : UInt64)
  | text (value : Bytes)
  deriving DecidableEq, Repr

namespace Identifier

/-- The identifier that a value is.  A negative number counts modulo 2 ^ 64. -/
def ofJson? : Json → Option Identifier
  | .number literal => (Numeral.word64? literal).map fun n => .number (UInt64.ofInt n)
  | .string value => some (.text value)
  | _ => none

def toJson : Identifier → Json
  | .number value => .ofNat value.toNat
  | .text value => .string value

end Identifier

/-- A message: a request if it has an identifier, otherwise a notification. -/
structure Message where
  id : Option Identifier
  method : Bytes
  parameters : Option Json

inductive Reply where
  | result (value : Json)
  | refusal (code : Int) (message : Option Bytes)

namespace Reply

def notOpen : Reply :=
  .refusal (-32600) (some (utf8 "server not initialized"))

def unknownMethod (method : Bytes) : Reply :=
  .refusal (-32601) (some (utf8 "method not supported: " ++ method))

def uselessParameters : Reply :=
  .refusal (-32602) none

def ofFault (fault : Fault) : Reply :=
  .refusal (-32600) (some fault.text)

def nothing : Reply :=
  .result .null

end Reply

structure Session where
  isOpen : Bool
  store : Snapshot.Store

namespace Session

def serverName : Bytes := utf8 "dockerdef"

def serverVersion : Bytes := utf8 "dev"

def start : Session := ⟨false, .empty⟩

def greeting : Json :=
  .object
    [(utf8 "capabilities", .object
        [(utf8 "textDocumentSync", .ofNat 1), (utf8 "definitionProvider", .boolean true)]),
      (utf8 "serverInfo", .object
        [(utf8 "name", .string serverName), (utf8 "version", .string serverVersion)])]

def update (s : Session) (uri : Bytes) (version : Int) (text : Bytes) : Session × List Event :=
  let (store, _, events) := s.store.update uri version text
  ({ s with store := store }, events)

/-- Take in changes, the last first, up to the first whole text. -/
def applyChanges (s : Session) (uri : Bytes) (version : Int) :
    List Parameters.Change → Session × List Event
  | [] => (s, [])
  | .whole text :: _ => s.update uri version text
  | .ranged :: rest =>
      let (s, events) := applyChanges s uri version rest
      (s, .rangedChange uri :: events)

def define (s : Session) (uri : Bytes) (p : Position) : Reply × List Event :=
  match s.store.get? uri with
  | none => (.ofFault (.unknownDocument uri), [])
  | some snapshot =>
      match snapshot.analysis.definition? p with
      | some location => (.result (.ofLocation location), [])
      | none => (.nothing, [.noDefinition uri p])

/-- What is done with the parameters of a method, once they have the right shape. -/
abbrev Handler := Session → List (Bytes × Json) → Session × Reply × List Event

def onConnect : Handler := fun s members =>
  ({ s with isOpen := true }, .result greeting,
    (Parameters.client? members).toList.map Event.connected)

def onNothing : Handler := fun s _ =>
  (s, .nothing, [])

def onOpen : Handler := fun s members =>
  let (s, events) := s.update (Parameters.uri members) (Parameters.version members)
    (Parameters.text members)
  (s, .nothing, events)

def onChange : Handler := fun s members =>
  let (s, events) := s.applyChanges (Parameters.uri members) (Parameters.version members)
    (Parameters.changes members).reverse
  (s, .nothing, events)

def onClose : Handler := fun s members =>
  ({ s with store := s.store.close (Parameters.uri members) }, .nothing, [])

def onDefinition : Handler := fun s members =>
  let (reply, events) := s.define (Parameters.uri members) (Parameters.position members)
  (s, reply, events)

def methods : List (String × Shape × Handler) :=
  [("initialize", Parameters.connectShape, onConnect),
    ("initialized", .record [], onNothing),
    ("$/setTrace", Parameters.traceShape, onNothing),
    ("textDocument/didOpen", Parameters.openShape, onOpen),
    ("textDocument/didChange", Parameters.changeShape, onChange),
    ("textDocument/didClose", Parameters.closeShape, onClose),
    ("textDocument/definition", Parameters.definitionShape, onDefinition)]

def handle (s : Session) (m : Message) : Session × Reply × List Event :=
  if !s.isOpen && m.method != utf8 "initialize" then (s, .notOpen, [])
  else if m.method == utf8 "shutdown" then ({ s with isOpen := false }, .nothing, [])
  else
    match methods.find? fun entry => utf8 entry.1 == m.method with
    | none => (s, .unknownMethod m.method, [])
    | some (_, shape, handler) =>
        match Parameters.members? shape m.parameters with
        | some members => handler s members
        | none => (s, .uselessParameters, [])

def isExit (m : Message) : Bool :=
  m.method == utf8 "exit"

/-- Answer messages one after the other until the session ends: the replies to requests, and what
is reported. -/
def run : Session → List Message → List (Identifier × Reply) × List Event
  | _, [] => ([], [])
  | s, m :: rest =>
      if isExit m then ([], [])
      else
        let (s, reply, events) := s.handle m
        let (replies, laterEvents) := run s rest
        ((m.id.toList.map fun id => (id, reply)) ++ replies, events ++ laterEvents)

def opening : Event :=
  .serving serverName serverVersion

end Session

end Dockerfile
