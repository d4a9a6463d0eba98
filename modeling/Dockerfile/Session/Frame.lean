import Dockerfile.Json.Writer
import Dockerfile.Session.Session

/-!
# Frames of messages

Messages travel as JSON in frames: header lines, one of which gives the number of bytes that
follow, an empty line, and the bytes themselves.
-/

namespace Dockerfile

namespace Frame

def announced? (header : Bytes) : Option Nat :=
  let name := header.takeWhile (· != Byte.colon)
  if name.map Byte.toLower == utf8 "content-length" then
    Numeral.natural? ((header.drop (name.length + 1)).filter fun b => 0x20 < b)
  else none

def endsHeader (header : Bytes) : Bool :=
  header.all (· ≤ 0x20)

def write (value : Json) : Bytes :=
  let body := value.compact
  utf8 "Content-Length: " ++ decimal body.length ++ utf8 "\r\n\r\n" ++ body

end Frame

def Message.ofJson? (value : Json) : Option Message :=
  match value.member? "method" with
  | some (.string method) =>
      some ⟨(value.member? "id").bind Identifier.ofJson?, method, value.member? "params"⟩
  | _ => none

def Reply.toJson (id : Identifier) : Reply → Json
  | .result value =>
      .object [(utf8 "id", id.toJson), (utf8 "result", value), (utf8 "jsonrpc", .ofString "2.0")]
  | .refusal code message =>
      .object
        [(utf8 "id", id.toJson),
          (utf8 "error", .object
            [(utf8 "code", .ofInt code), (utf8 "message", .string (message.getD []))]),
          (utf8 "jsonrpc", .ofString "2.0")]

end Dockerfile
