import Dockerfile.Directive
import Dockerfile.Document.Document
import Dockerfile.Reference
import Dockerfile.Stage
import Dockerfile.Variable

/-!
# Analysis of a document

Everything that is known about a document: its directives and instructions, and the variables and
stages they declare.  From it, the symbol under a position and the place where that symbol is
defined: a stage's name at its first declaration, a variable at its last declaration before the
reference.
-/

namespace Dockerfile

structure Analysis where
  document : Document
  escape : UInt8
  directives : List Directive
  instructions : List Instruction
  declared : List Variable
  stages : List Stage

inductive Symbol.Kind where
  | stageAlias
  | stageReference
  | variableReference
  deriving DecidableEq, Repr

def Symbol.Kind.name : Symbol.Kind → Bytes
  | .stageAlias => utf8 "stage-alias"
  | .stageReference => utf8 "stage-reference"
  | .variableReference => utf8 "variable-reference"

structure Symbol where
  kind : Symbol.Kind
  name : Bytes
  span : Span
  deriving DecidableEq, Repr

namespace Document

def statements (doc : Document) : List Statement :=
  let directives := Directive.block doc.lines
  Statement.ofLines (Directive.escape directives) (doc.lines.drop directives.length)

def instructions (doc : Document) : List Instruction :=
  doc.statements.map
    (Instruction.ofStatement doc.text (Directive.escape (Directive.block doc.lines)))

end Document

namespace Analysis

def ofDocument (doc : Document) : Analysis where
  document := doc
  escape := Directive.escape (Directive.block doc.lines)
  directives := Directive.block doc.lines
  instructions := doc.instructions
  declared := Variable.all doc.instructions
  stages := Stage.all doc.instructions

def stageReferenceAt? (i : Instruction) (offset : Int) : Option Symbol :=
  (Flag.leading (Word.all i.argument.text)).findSome? fun flag =>
    match flag.value with
    | some value =>
        let span := i.argument.lineSpan value.start value.stop
        if flag.name.text == utf8 "from" && span.contains offset then
          some ⟨.stageReference, value.text, span⟩
        else none
    | none => none

def variableReferenceAt? (i : Instruction) (offset : Int) : Option Symbol := do
  let index ← i.argument.logical? offset
  let reference ← Reference.at? i.argument.text index
  some ⟨.variableReference, reference.name,
    i.argument.sourceSpan reference.start reference.stop⟩

def stageAliasAt? (a : Analysis) (offset : Int) : Option Symbol :=
  (Stage.at? a.stages offset).map fun stage => ⟨.stageAlias, stage.name, stage.nameSpan⟩

def symbolIn? (a : Analysis) (i : Instruction) (offset : Int) : Option Symbol :=
  ((if i.opensStage then a.stageAliasAt? offset else none).or
    (if i.refersToStage then stageReferenceAt? i offset else none)).or
      (variableReferenceAt? i offset)

def symbolAt? (a : Analysis) (p : Position) : Option Symbol := do
  let offset ← a.document.offsetAt? p
  let i ← Instruction.at? a.instructions offset
  a.symbolIn? i offset

def resolve? (a : Analysis) (symbol : Symbol) : Option Span :=
  match symbol.kind with
  | .stageAlias => some symbol.span
  | .stageReference => (Stage.find? a.stages symbol.name).map Stage.nameSpan
  | .variableReference =>
      (Variable.lastBefore? a.declared symbol.name symbol.span.start).map Variable.nameSpan

def definition? (a : Analysis) (p : Position) : Option Location := do
  let symbol ← a.symbolAt? p
  let span ← a.resolve? symbol
  some (a.document.locationOf span)

end Analysis

def Document.definition? (doc : Document) (p : Position) : Option Location :=
  (Analysis.ofDocument doc).definition? p

end Dockerfile
