import Dockerfile.Analysis
import Dockerfile.Text.Quoted

/-!
# Log events

What the library reports about its own work, one line for each event: a message and attributes,
written as `key=value`.  A text is quoted if it is empty or holds a character that would blur where
it ends.
-/

namespace Dockerfile

inductive Event where
  | serving (name version : Bytes)
  | unknownDirective (name : Bytes) (line : Nat)
  | invalidEscape (value : Bytes) (line : Nat)
  | instruction (name : Bytes) (known : Bool) (line lines : Nat) (argument : Bytes)
  | connected (client : Bytes)
  | snapshotStored (uri : Bytes) (version : Int) (instructions : Nat)
  | snapshotUnchanged (uri : Bytes) (version cached : Int)
  | rangedChange (uri : Bytes)
  | noDefinition (uri : Bytes) (position : Position)
  deriving DecidableEq

namespace Event

inductive Value where
  | text (value : Bytes)
  | number (value : Int)
  | truth (value : Bool)

/-- The piece keeps a text from being written without quotes. -/
def blurs : Piece → Bool
  | .stray _ => true
  | .scalar c =>
      let n := c.toNat
      if n < 0x80 then n ≤ 0x20 || n == 0x22 || n == 0x3d
      else n == 0xfffd || isWhiteSpace c || !isPrintable c

def writeText (text : Bytes) : Bytes :=
  if text.isEmpty || text.pieces.any blurs then text.quoted else text

def writeValue : Value → Bytes
  | .text value => writeText value
  | .number value => signedDecimal value
  | .truth true => utf8 "true"
  | .truth false => utf8 "false"

def message : Event → Bytes
  | .serving .. => utf8 "starting language server"
  | .unknownDirective .. => utf8 "unknown directive ends the directive block"
  | .invalidEscape .. => utf8 "ignoring invalid escape directive"
  | .instruction .. => utf8 "instruction"
  | .connected .. => utf8 "initialize"
  | .snapshotStored .. => utf8 "snapshot stored"
  | .snapshotUnchanged .. => utf8 "snapshot unchanged"
  | .rangedChange .. => utf8 "ignoring incremental change"
  | .noDefinition .. => utf8 "no definition"

def attributes : Event → List (Bytes × Value)
  | .serving name version => [(utf8 "name", .text name), (utf8 "version", .text version)]
  | .unknownDirective name line => [(utf8 "name", .text name), (utf8 "line", .number line)]
  | .invalidEscape value line => [(utf8 "value", .text value), (utf8 "line", .number line)]
  | .instruction name known line lines argument =>
      [(utf8 "keyword", .text name), (utf8 "known", .truth known), (utf8 "line", .number line),
        (utf8 "lines", .number lines), (utf8 "args", .text argument)]
  | .connected client => [(utf8 "client", .text client)]
  | .snapshotStored uri version instructions =>
      [(utf8 "uri", .text uri), (utf8 "version", .number version),
        (utf8 "instructions", .number instructions)]
  | .snapshotUnchanged uri version cached =>
      [(utf8 "uri", .text uri), (utf8 "version", .number version), (utf8 "cached", .number cached)]
  | .rangedChange uri => [(utf8 "uri", .text uri)]
  | .noDefinition uri p => [(utf8 "uri", .text uri), (utf8 "position", .text p.render)]

def isDetail : Event → Bool
  | .serving .. => false
  | _ => true

def render (event : Event) : Bytes :=
  Bytes.join [Byte.space]
    (((utf8 "msg", Value.text event.message) :: event.attributes).map fun (key, value) =>
      key ++ Byte.equals :: writeValue value)

def log (detailed : Bool) (events : List Event) : List Bytes :=
  (events.filter fun event => detailed || !event.isDetail).map render

end Event

namespace Document

def escapeEvents (directives : List Directive) : List Event :=
  match Directive.escape? directives with
  | some d => if d.escapeByte?.isSome then [] else [.invalidEscape d.value d.line]
  | none => []

/-- A comment of a directive's form, but with another name, that ends the block. -/
def blockEndEvents (lines : List Line) : List Event :=
  match lines with
  | line :: _ =>
      match Directive.parse? line.content with
      | some (name, _) => [.unknownDirective name line.number]
      | none => []
  | [] => []

def events (doc : Document) : List Event :=
  let directives := Directive.block doc.lines
  escapeEvents directives ++ blockEndEvents (doc.lines.drop directives.length) ++
    (doc.statements.zip doc.instructions).map fun (s, i) =>
      .instruction i.name i.isKnown s.line i.argument.segments.length i.argument.text

end Document

end Dockerfile
