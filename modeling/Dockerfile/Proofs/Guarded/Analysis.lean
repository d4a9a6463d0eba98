import Dockerfile.Analysis
import Dockerfile.Proofs.Guarded.Instruction
import Dockerfile.Proofs.Guarded.Variable
import Dockerfile.Proofs.Guarded.Word

/-!
# The guarded analysis

The whole analysis of a document with every access guarded, and the two questions about a position
that an editor asks.  On every text and at every position the guarded run ends without a failure:
no contract is broken, no index or cut is out of range and no loop runs on; and what it returns is
the analysis, the symbol and the definition.
-/

namespace Dockerfile

namespace Guarded

def analyse (doc : Document) : Run Analysis := do
  let starts ← lineStarts doc.text
  let (line, directives, escape) ← readDirectives doc.text starts
  let instructions ← readInstructions doc.text starts escape line
  let declared ← declarations [] instructions
  let stages ← stages 0 instructions
  return ⟨doc, escape, directives, instructions, declared, stages⟩

def searchFlags (argument : Argument) (offset : Int) : List Flag → Run (Option Symbol)
  | [] => return none
  | flag :: rest =>
      match flag.value with
      | some value =>
          if flag.name.text == utf8 "from" then do
            let span ← spanOnLine argument value.start value.stop
            if span.contains offset then return some ⟨.stageReference, value.text, span⟩
            else searchFlags argument offset rest
          else searchFlags argument offset rest
      | none => searchFlags argument offset rest

def stageReferenceAt (i : Instruction) (offset : Int) : Run (Option Symbol) :=
  if i.refersToStage then do
    let flags ← leadingFlags (← words i.argument.text)
    searchFlags i.argument offset flags
  else return none

def variableReferenceAt (i : Instruction) (offset : Int) : Run (Option Symbol) := do
  match ← logical i.argument offset with
  | some index =>
      let found ← references i.argument.text
      match (found.takeWhile fun r => (r.start : Int) ≤ index).find? fun r =>
          (index : Int) < r.stop with
      | some r =>
          let span ← sourceSpan i.argument r.start r.stop
          return some ⟨.variableReference, r.name, span⟩
      | none => return none
  | none => return none

def symbolIn (a : Analysis) (i : Instruction) (offset : Int) : Run (Option Symbol) :=
  match if i.opensStage then a.stageAliasAt? offset else none with
  | some symbol => return some symbol
  | none => do
      match ← stageReferenceAt i offset with
      | some symbol => return some symbol
      | none => variableReferenceAt i offset

def symbolAt (a : Analysis) (p : Position) : Run (Option Symbol) := do
  let starts ← lineStarts a.document.text
  match ← offsetAt a.document.text starts p with
  | some offset =>
      match Instruction.at? a.instructions offset with
      | some i => symbolIn a i offset
      | none => return none
  | none => return none

def definition (a : Analysis) (p : Position) : Run (Option Location) := do
  match ← symbolAt a p with
  | some symbol =>
      match a.resolve? symbol with
      | some span =>
          let starts ← lineStarts a.document.text
          let start ← positionAt a.document.text starts span.start
          let stop ← positionAt a.document.text starts span.stop
          return some ⟨a.document.uri, ⟨start, stop⟩⟩
      | none => return none
  | none => return none

theorem lineStarts_text (doc : Document) : lineStarts doc.text = .ok (starts doc) := by
  rw [lineStarts_eq, starts, doc.lines_eq]

theorem assembled_of_mem_instructions {doc : Document} {i : Instruction}
    (member : i ∈ doc.instructions) : Assembled doc.text i.argument := by
  rw [Document.instructions_eq] at member
  obtain ⟨g, inside, rfl⟩ := List.mem_map.mp member
  exact ⟨_, _, _, Document.laid_stretches inside, rfl⟩

theorem analyse_eq (doc : Document) : analyse doc = .ok (Analysis.ofDocument doc) := by
  have built (i : Instruction) (member : i ∈ doc.instructions) : Assembled doc.text i.argument :=
    assembled_of_mem_instructions member
  rw [analyse, lineStarts_text, ok_bind, readDirectives_eq, ok_bind]
  dsimp only
  rw [← Document.escape, readInstructions_eq, ok_bind,
    declarations_eq (fun i member => (built i member).sound), ok_bind, stages_eq 0 built]
  rfl

theorem searchFlags_eq {text : Bytes} {argument : Argument} (built : Assembled text argument)
    (offset : Int) {flags : List Flag}
    (bound : ∀ flag ∈ flags, ∀ value, flag.value = some value →
      value.stop ≤ argument.text.length) :
    searchFlags argument offset flags = .ok (flags.findSome? fun flag =>
      match flag.value with
      | some value =>
          let span := argument.lineSpan value.start value.stop
          if flag.name.text == utf8 "from" && span.contains offset then
            some ⟨.stageReference, value.text, span⟩
          else none
      | none => none) := by
  induction flags with
  | nil => rfl
  | cons flag rest ih =>
      obtain ⟨here, later⟩ := List.forall_mem_cons.mp bound
      rw [searchFlags, List.findSome?_cons]
      cases value : flag.value with
      | none => exact ih later
      | some word =>
          dsimp only
          cases named : flag.name.text == utf8 "from" with
          | false => exact ih later
          | true =>
              rw [if_pos rfl, built.spanOnLine_eq (here word value), ok_bind, Bool.true_and]
              cases (argument.lineSpan word.start word.stop).contains offset with
              | true => rfl
              | false => exact ih later

theorem stageReferenceAt_eq {text : Bytes} {i : Instruction} (built : Assembled text i.argument)
    (offset : Int) : stageReferenceAt i offset =
      .ok (if i.refersToStage then Analysis.stageReferenceAt? i offset else none) := by
  obtain ⟨stand, -⟩ := Word.all_standsIn i.argument.text
  have bound : ∀ flag ∈ Flag.leading (Word.all i.argument.text), ∀ value,
      flag.value = some value → value.stop ≤ i.argument.text.length := by
    intro flag member value found
    obtain ⟨word, inside, leads, rfl⟩ := Flag.exists_word_of_mem_leading member
    obtain ⟨-, stop, -⟩ := Flag.value_ofWord (stand word inside) leads found
    rw [stop]
    exact (stand word inside).bound
  rw [stageReferenceAt]
  by_cases refers : i.refersToStage = true
  · rw [if_pos refers, if_pos refers, words_eq, ok_bind, leadingFlags_eq stand, ok_bind,
      searchFlags_eq built offset bound]
    rfl
  · rw [if_neg refers, if_neg refers]
    rfl

theorem variableReferenceAt_eq {text : Bytes} {i : Instruction}
    (built : Assembled text i.argument) (offset : Int) :
    variableReferenceAt i offset = .ok (Analysis.variableReferenceAt? i offset) := by
  rw [variableReferenceAt, Analysis.variableReferenceAt?, logical_eq, ok_bind]
  cases i.argument.logical? offset with
  | none => rfl
  | some index =>
      dsimp only
      rw [references_eq, ok_bind]
      change (match Reference.at? i.argument.text index with
        | some r => _
        | none => _) = Except.ok ((Reference.at? i.argument.text index).bind _)
      cases found : Reference.at? i.argument.text index with
      | none => rfl
      | some r =>
          obtain ⟨member, -⟩ := Reference.at?_eq_some_iff.mp found
          have stands := (Reference.all_standsIn i.argument.text).1 r member
          dsimp only
          rw [built.sourceSpan_eq stands.bound]
          rfl

theorem symbolIn_eq (a : Analysis) {text : Bytes} {i : Instruction}
    (built : Assembled text i.argument) (offset : Int) :
    symbolIn a i offset = .ok (a.symbolIn? i offset) := by
  rw [symbolIn, Analysis.symbolIn?, stageReferenceAt_eq built, ok_bind,
    variableReferenceAt_eq built]
  cases if i.opensStage then a.stageAliasAt? offset else none with
  | some symbol => rfl
  | none =>
      cases if i.refersToStage then Analysis.stageReferenceAt? i offset else none <;> rfl

theorem symbolAt_eq (doc : Document) (p : Position) :
    symbolAt (Analysis.ofDocument doc) p = .ok ((Analysis.ofDocument doc).symbolAt? p) := by
  have table := lineStarts_text doc
  have offset := offsetAt_eq doc p
  rw [symbolAt, Analysis.symbolAt?]
  change (lineStarts doc.text >>= _) = Except.ok (doc.offsetAt? p >>= _)
  rw [table, ok_bind]
  change (offsetAt doc.text (starts doc) p >>= _) = _
  rw [offset, ok_bind]
  cases doc.offsetAt? p with
  | none => rfl
  | some offset =>
      change (match Instruction.at? doc.instructions offset with
        | some i => _
        | none => _) = Except.ok ((Instruction.at? doc.instructions offset).bind _)
      cases found : Instruction.at? doc.instructions offset with
      | none => rfl
      | some i =>
          have member : i ∈ doc.instructions :=
            (List.takeWhile_sublist _).subset (List.mem_of_find?_eq_some found)
          exact symbolIn_eq _ (assembled_of_mem_instructions member) offset

theorem definition_eq (doc : Document) (p : Position) :
    definition (Analysis.ofDocument doc) p = .ok ((Analysis.ofDocument doc).definition? p) := by
  rw [definition, Analysis.definition?, symbolAt_eq, ok_bind]
  cases (Analysis.ofDocument doc).symbolAt? p with
  | none => rfl
  | some symbol =>
      change (match (Analysis.ofDocument doc).resolve? symbol with
        | some span => _
        | none => _) = Except.ok (((Analysis.ofDocument doc).resolve? symbol).bind _)
      cases (Analysis.ofDocument doc).resolve? symbol with
      | none => rfl
      | some span =>
          change (lineStarts doc.text >>= fun starts => positionAt doc.text starts span.start >>=
            fun start => positionAt doc.text starts span.stop >>= _) = _
          rw [lineStarts_text, ok_bind, positionAt_eq, ok_bind, positionAt_eq]
          rfl

/-- On every text and at every position the guarded analysis, and the guarded questions after the
symbol and the definition, return without a failure what the analysis gives; and the argument of
every statement is put together without a refusal. -/
theorem runs_without_failure (uri text : Bytes) (p : Position) :
    let doc := Document.ofText uri text
    analyse doc = .ok (Analysis.ofDocument doc) ∧
      (analyse doc >>= (symbolAt · p)) = .ok ((Analysis.ofDocument doc).symbolAt? p) ∧
      (analyse doc >>= (definition · p)) = .ok (doc.definition? p) ∧
      ∀ s ∈ doc.statements, Argument.assemble text doc.escape s.stretches s.stop =
        .ok (Argument.ofStretches text doc.escape s.stretches s.stop) := by
  dsimp only
  rw [analyse_eq]
  refine ⟨rfl, symbolAt_eq _ p, definition_eq _ p, ?_⟩
  intro s member
  exact argument_assemble_eq (laid_of_mem_statements member).inside _ _

end Guarded

end Dockerfile
