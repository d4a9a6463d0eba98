import Dockerfile.Document.Span
import Dockerfile.Session.Capabilities

/-!
# Parameters of the language server's methods

For each method, the shape of its parameters and the part of them that it uses.
-/

namespace Dockerfile

namespace Parameters

def positionShape : Shape :=
  .record [("line", .natural32), ("character", .natural32)]

def rangeShape : Shape :=
  .record [("start", positionShape), ("end", positionShape)]

def documentShape : Shape :=
  .record [("uri", .text)]

def versionedDocumentShape : Shape :=
  .record [("uri", .text), ("version", .integer32)]

def tokenShape : Shape :=
  .either .integer32 .text

def connectShape : Shape :=
  .record
    [("workDoneToken", tokenShape),
      ("processId", .integer32),
      ("clientInfo", .record [("name", .text), ("version", .text)]),
      ("locale", .text),
      ("rootPath", .text),
      ("rootUri", .text),
      ("initializationOptions", .anything),
      ("capabilities", Capabilities.shape),
      ("trace", .text),
      ("workspaceFolders", .list (.record [("uri", .text), ("name", .text)]))]

def traceShape : Shape :=
  .record [("value", .text)]

def openShape : Shape :=
  .record
    [("textDocument", .record
      [("uri", .text), ("languageId", .text), ("version", .integer32), ("text", .text)])]

def contentChangeShape : Shape :=
  .record [("range", rangeShape), ("rangeLength", .natural32), ("text", .text)]

def changeShape : Shape :=
  .both
    (.record [("textDocument", versionedDocumentShape), ("contentChanges", .list .anything)])
    (.last ["contentChanges"] (.list contentChangeShape))

def closeShape : Shape :=
  .record [("textDocument", documentShape)]

def definitionShape : Shape :=
  .record
    [("textDocument", documentShape),
      ("position", positionShape),
      ("workDoneToken", tokenShape),
      ("partialResultToken", tokenShape)]

def members? (shape : Shape) (parameters : Option Json) : Option (List (Bytes × Json)) :=
  match parameters with
  | some value => if shape.accepts value then some value.sortedMembers else none
  | none => none

def client? (members : List (Bytes × Json)) : Option Bytes :=
  (Json.inside? "clientInfo" members).map (Json.textUnder "name")

def uri (members : List (Bytes × Json)) : Bytes :=
  Json.textUnder "uri" (Json.inside "textDocument" members)

def version (members : List (Bytes × Json)) : Int :=
  Json.integerUnder "version" (Json.inside "textDocument" members)

def text (members : List (Bytes × Json)) : Bytes :=
  Json.textUnder "text" (Json.inside "textDocument" members)

def position (members : List (Bytes × Json)) : Position :=
  let inner := Json.inside "position" members
  ⟨UInt32.ofNat (Json.integerUnder "line" inner).toNat,
    UInt32.ofNat (Json.integerUnder "character" inner).toNat⟩

inductive Change where
  | whole (text : Bytes)
  | ranged
  deriving DecidableEq, Repr

def change (value : Json) : Change :=
  if (Json.inside? "range" value.sortedMembers).isSome then .ranged
  else .whole (Json.textUnder "text" value.sortedMembers)

def changes (members : List (Bytes × Json)) : List Change :=
  (Json.itemsUnder "contentChanges" members).map change

end Parameters

end Dockerfile
