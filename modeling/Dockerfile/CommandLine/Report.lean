import Dockerfile.Analysis
import Dockerfile.Fault
import Dockerfile.Json.Location
import Dockerfile.Json.Writer
import Dockerfile.Suggestion
import Dockerfile.Text.Columns
import Dockerfile.Text.Quoted

/-!
# Reports

How an analysis answers a question on the command line: as aligned text, or as JSON.
-/

namespace Dockerfile

namespace Report

def row (cells : List Bytes) : Bytes :=
  Bytes.join [Byte.tab] cells ++ [Byte.lineFeed]

def instructionRow (doc : Document) (i : Instruction) : Bytes :=
  row [(doc.rangeOf i.raw).render, if i.isKnown then i.name else i.name ++ utf8 "?", i.form.name,
    i.argument.text.quoted]

def instructionJson (doc : Document) (i : Instruction) : Json :=
  .object
    [(utf8 "keyword", .string i.name),
      (utf8 "known", .boolean i.isKnown),
      (utf8 "form", .string i.form.name),
      (utf8 "keywordRange", .ofRange (doc.rangeOf i.keywordSpan)),
      (utf8 "argumentRange", .ofRange (doc.rangeOf i.argumentSpan)),
      (utf8 "range", .ofRange (doc.rangeOf i.raw)),
      (utf8 "arguments", .string i.argument.text)]

def instructions (a : Analysis) (asJson : Bool) : Bytes :=
  if asJson then Json.pretty (.array (a.instructions.map (instructionJson a.document)))
  else alignColumns (a.instructions.flatMap (instructionRow a.document))

structure Declaration where
  kind : Bytes
  name : Bytes
  span : Span
  valueSpan : Option Span

def declarations (a : Analysis) : List Declaration :=
  (a.declared.map fun v => ⟨v.keyword.spelling, v.name, v.nameSpan, v.valueSpan⟩) ++
    a.stages.map fun stage => ⟨utf8 "STAGE", stage.name, stage.nameSpan, none⟩

def declarationRow (doc : Document) (d : Declaration) : Bytes :=
  row [(doc.rangeOf d.span).render, d.kind, d.name]

def declarationJson (doc : Document) (d : Declaration) : Json :=
  .object
    ([(utf8 "kind", .string d.kind),
      (utf8 "name", .string d.name),
      (utf8 "range", .ofRange (doc.rangeOf d.span))] ++
      d.valueSpan.toList.map fun span => (utf8 "valueRange", .ofRange (doc.rangeOf span)))

def symbols (a : Analysis) (asJson : Bool) : Bytes :=
  if asJson then Json.pretty (.array ((declarations a).map (declarationJson a.document)))
  else alignColumns ((declarations a).flatMap (declarationRow a.document))

def location (l : Location) (asJson : Bool) : Bytes :=
  if asJson then Json.pretty (.ofLocation l)
  else l.uri ++ Byte.colon :: l.range.render ++ [Byte.lineFeed]

def similarNames (a : Analysis) (symbol : Symbol) : List Bytes :=
  match symbol.kind with
  | .stageReference => Suggestion.closest symbol.name (a.stages.map Stage.name)
  | .variableReference => Suggestion.closest symbol.name (a.declared.map Variable.name)
  | .stageAlias => []

/-- The fault of a position whose symbol, if there is one, has no definition. -/
def undefined (a : Analysis) (p : Position) : Fault :=
  match a.symbolAt? p with
  | some symbol => .noDefinition symbol.name (similarNames a symbol)
  | none => .noDefinition [] []

end Report

end Dockerfile
