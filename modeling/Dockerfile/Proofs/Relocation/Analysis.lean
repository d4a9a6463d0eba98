import Dockerfile.Proofs.Relocation.Variable
import Dockerfile.Proofs.StageDefinition

/-!
# Moved answers

A document whose lines stand at new places gives the same answers at new places.  Stages and
declarations are those of the other document, moved; a position on a moved line shows the moved
symbol; and since the order of offsets is kept, both documents resolve it to the same declaration.
-/

namespace Dockerfile

def Stage.move (r : Relocation) (stage : Stage) : Stage :=
  { stage with nameSpan := stage.nameSpan.move r, line := r.line stage.line }

namespace Stage

variable {r : Relocation}

@[simp] theorem name_move {stage : Stage} : (stage.move r).name = stage.name := rfl

@[simp] theorem nameSpan_move {stage : Stage} :
    (stage.move r).nameSpan = stage.nameSpan.move r := rfl

@[simp] theorem line_move {stage : Stage} : (stage.move r).line = r.line stage.line := rfl

@[simp] theorem index_move {stage : Stage} : (stage.move r).index = stage.index := rfl

theorem ofArgument?_move {text : Bytes} {a : Argument} (sound : a.Sound text)
    (keeps : ∀ s ∈ a.segments, r.Keeps s.span) (index : Nat) :
    ofArgument? index (a.move r) = (ofArgument? index a).map (Stage.move r) := by
  unfold ofArgument?
  change Option.map _ (alias? a) = _
  cases named : alias? a with
  | none => rfl
  | some word =>
      have stands := (Word.all_standsIn _).1 word (alias?_mem named)
      have filled := stands.filled
      have bound := stands.bound
      obtain ⟨s, member, holds⟩ := sound.covered word.start (by omega)
      have found := sound.segmentAt?_eq_some_iff.mpr ⟨member, holds⟩
      simp [Stage.move, Argument.lineSpan_move keeps sound filled bound,
        Argument.segmentAt?_move keeps, found]

theorem collect_move (index : Nat) {instructions : List Instruction}
    (moves : ∀ i ∈ instructions, ∀ n,
      ofArgument? n (i.argument.move r) = (ofArgument? n i.argument).map (Stage.move r)) :
    collect index (instructions.map (Instruction.move r)) =
      (collect index instructions).map (Stage.move r) := by
  induction instructions generalizing index with
  | nil => rfl
  | cons i rest ih =>
      have later := fun n => ih n fun j member => moves j (List.mem_cons_of_mem _ member)
      simp only [List.map_cons, collect, Instruction.opensStage_move, Instruction.argument_move,
        moves i List.mem_cons_self, later]
      split
      · simp [Option.toList_map]
      · rfl

theorem find?_move (stages : List Stage) (name : Bytes) :
    find? (stages.map (Stage.move r)) name = (find? stages name).map (Stage.move r) :=
  List.find?_map

theorem at?_move (stages : List Stage) (offset : Int) :
    at? (stages.map (Stage.move r)) (r.byte offset) = (at? stages offset).map (Stage.move r) := by
  simp [at?, List.find?_map, Function.comp_def]

end Stage

theorem Instruction.at?_move {r : Relocation} (instructions : List Instruction) (offset : Int) :
    at? (instructions.map (Instruction.move r)) (r.byte offset) =
      (at? instructions offset).map (Instruction.move r) := by
  simp [at?, List.takeWhile_map, List.find?_map, Function.comp_def]

theorem Variable.lastBefore?_move {r : Relocation} (declared : List Variable) (name : Bytes)
    (offset : Int) :
    lastBefore? (declared.map (Variable.move r)) name (r.byte offset) =
      (lastBefore? declared name offset).map (Variable.move r) := by
  simp [lastBefore?, List.takeWhile_map, List.filter_map, Function.comp_def]

def Symbol.move (r : Relocation) (symbol : Symbol) : Symbol :=
  { symbol with span := symbol.span.move r }

namespace Relocation.Takes

variable {r : Relocation} {doc doc' : Document} (takes : r.Takes doc doc')
include takes

theorem stages_eq :
    Stage.all doc'.instructions = (Stage.all doc.instructions).map (Stage.move r) := by
  rw [takes.instructions_eq]
  refine Stage.collect_move 0 ?_
  intro i listed n
  rw [Document.instructions_eq] at listed
  obtain ⟨g, member, rfl⟩ := List.mem_map.mp listed
  exact Stage.ofArgument?_move (Document.sound_argument member) (takes.keeps_segments member) n

/-- The same character on a moved line has the moved offset. -/
theorem offsetAt?_eq {p q : Position} (line : q.line.toNat = r.number p.line.toNat)
    (character : q.character = p.character) :
    doc'.offsetAt? q = (doc.offsetAt? p).map r.offset := by
  unfold Document.offsetAt?
  rw [line, takes.lines, character]
  cases found : doc.lines[p.line.toNat]? with
  | none => rfl
  | some line =>
      cases taken : Document.bytesBefore line.content.pieces p.character.toNat with
      | none => simp [taken]
      | some size =>
          have short := Document.bytesBefore_le taken
          rw [Bytes.ofPieces_pieces] at short
          have moved := Line.offset_add (takes.keeps line (List.mem_of_getElem? found)) short
          simp [taken, moved]

theorem stageAliasAt?_eq (offset : Int) :
    (Analysis.ofDocument doc').stageAliasAt? (r.byte offset) =
      ((Analysis.ofDocument doc).stageAliasAt? offset).map (Symbol.move r) := by
  change (Stage.at? (Stage.all doc'.instructions) _).map _ =
    ((Stage.at? (Stage.all doc.instructions) offset).map _).map _
  rw [takes.stages_eq, Stage.at?_move]
  simp [Function.comp_def, Symbol.move]

section Offset

variable {g : Statement.Group} (member : g ∈ doc.groups)
include member

/-- What a flag contributes moves along with the argument.  An empty value contributes nothing in
either place, and its span need not move. -/
theorem ofFlag?_eq (offset : Int) {flag : Flag}
    (leads : flag ∈ Flag.leading (Word.all (doc.ofGroup g).argument.text)) :
    Symbol.ofFlag? ((doc.ofGroup g).move r) (r.byte offset) flag =
      (Symbol.ofFlag? (doc.ofGroup g) offset flag).map (Symbol.move r) := by
  unfold Symbol.ofFlag?
  cases valued : flag.value with
  | none => rfl
  | some value =>
      obtain ⟨order, bound, -⟩ := Document.standsIn_value leads valued
      rcases Nat.eq_or_lt_of_le order with empty | filled
      · simp [empty, Argument.not_contains_lineSpan_self]
      · have span := Argument.lineSpan_move (takes.keeps_segments member)
          (Document.sound_argument member) filled bound
        simp only [Instruction.argument_move, span, Span.contains_move]
        split <;> rfl

theorem stageReferenceAt?_eq (offset : Int) :
    Analysis.stageReferenceAt? ((doc.ofGroup g).move r) (r.byte offset) =
      (Analysis.stageReferenceAt? (doc.ofGroup g) offset).map (Symbol.move r) :=
  Tokens.findSome?_map_of_mem fun _ leads => takes.ofFlag?_eq member offset leads

theorem variableReferenceAt?_eq (offset : Int) :
    Analysis.variableReferenceAt? ((doc.ofGroup g).move r) (r.byte offset) =
      (Analysis.variableReferenceAt? (doc.ofGroup g) offset).map (Symbol.move r) := by
  have keeps := takes.keeps_segments member
  unfold Analysis.variableReferenceAt?
  rw [Instruction.argument_move, Argument.logical?_move keeps]
  cases (doc.ofGroup g).argument.logical? offset with
  | none => rfl
  | some k =>
      cases found : Reference.at? (doc.ofGroup g).argument.text k with
      | none => simp [found]
      | some reference =>
          have stands := (Reference.all_standsIn _).1 reference
            (Reference.at?_eq_some_iff.mp found).1
          have span := Argument.sourceSpan_move keeps (Document.sound_argument member)
            stands.filled stands.bound
          simp [found, span, Symbol.move]

/-- What an instruction shows at an offset it shows at the new place. -/
theorem symbolIn?_eq (offset : Int) :
    (Analysis.ofDocument doc').symbolIn? ((doc.ofGroup g).move r) (r.byte offset) =
      ((Analysis.ofDocument doc).symbolIn? (doc.ofGroup g) offset).map (Symbol.move r) := by
  simp only [Analysis.symbolIn?, Instruction.opensStage_move, Instruction.refersToStage_move,
    takes.stageAliasAt?_eq, takes.stageReferenceAt?_eq member,
    takes.variableReferenceAt?_eq member, Option.map_or, apply_ite (Option.map (Symbol.move r)),
    Option.map_none]

end Offset

/-- A position on a moved line shows the moved symbol. -/
theorem symbolAt?_eq {p q : Position} (line : q.line.toNat = r.number p.line.toNat)
    (character : q.character = p.character) :
    (Analysis.ofDocument doc').symbolAt? q =
      ((Analysis.ofDocument doc).symbolAt? p).map (Symbol.move r) := by
  change (doc'.offsetAt? q).bind (fun o => (Instruction.at? doc'.instructions o).bind _) =
    ((doc.offsetAt? p).bind fun o => (Instruction.at? doc.instructions o).bind _).map _
  rw [takes.offsetAt?_eq line character]
  cases doc.offsetAt? p with
  | none => rfl
  | some o =>
      simp only [Option.map_some, Option.bind_some]
      rw [← r.byte_natCast, takes.instructions_eq, Instruction.at?_move]
      cases found : Instruction.at? doc.instructions o with
      | none => rfl
      | some i =>
          have listed := (Document.at?_instructions_eq_some_iff.mp found).1
          rw [Document.instructions_eq] at listed
          obtain ⟨g, member, rfl⟩ := List.mem_map.mp listed
          exact takes.symbolIn?_eq member o

/-- The moved symbol is resolved to the same declaration at its new place. -/
theorem resolve?_eq (symbol : Symbol) :
    (Analysis.ofDocument doc').resolve? (symbol.move r) =
      ((Analysis.ofDocument doc).resolve? symbol).map (Span.move r) := by
  obtain ⟨kind, name, span⟩ := symbol
  cases kind with
  | stageAlias => rfl
  | stageReference =>
      change (Stage.find? (Stage.all doc'.instructions) name).map _ =
        ((Stage.find? (Stage.all doc.instructions) name).map _).map _
      rw [takes.stages_eq, Stage.find?_move]
      simp [Function.comp_def]
  | variableReference =>
      change (Variable.lastBefore? (Variable.all doc'.instructions) name
          (r.byte span.start)).map _ =
        ((Variable.lastBefore? (Variable.all doc.instructions) name span.start).map _).map _
      rw [takes.declared_eq, Variable.lastBefore?_move]
      simp [Function.comp_def]

end Relocation.Takes

namespace Document

variable {doc : Document}

def InSegment (doc : Document) (span : Span) : Prop :=
  ∃ g ∈ doc.groups, ∃ s ∈ (doc.ofGroup g).argument.segments,
    s.span.start ≤ span.start ∧ span.start ≤ span.stop ∧ span.stop ≤ s.span.stop

theorem inSegment_of_alias {g : Statement.Group} (member : g ∈ doc.groups) {word : Word}
    (named : Stage.alias? (doc.ofGroup g).argument = some word) :
    doc.InSegment ((doc.ofGroup g).argument.lineSpan word.start word.stop) := by
  have stands := (Word.all_standsIn _).1 word (Stage.alias?_mem named)
  obtain ⟨s, inside, -, low, order, high⟩ :=
    (sound_argument member).lineSpan_inside stands.filled stands.bound
  exact ⟨g, member, s, inside, low, Int.le_of_lt order, high⟩

theorem inSegment_of_mem_stages {stage : Stage} (listed : stage ∈ Stage.all doc.instructions) :
    doc.InSegment stage.nameSpan := by
  obtain ⟨g, member, -, word, named, -, span⟩ := exists_alias_of_mem_stages listed
  rw [span]
  exact inSegment_of_alias member named

theorem inSegment_of_mem_declared {v : Variable} (listed : v ∈ Variable.all doc.instructions) :
    doc.InSegment v.nameSpan := by
  obtain ⟨g, member, here⟩ := exists_group_of_mem_declared listed
  obtain ⟨keyword, -, -, ⟨s, inside, index, named⟩, -⟩ := (ofInstruction_spec member).1 v here
  rw [named.span]
  exact ⟨g, member, s, inside,
    span_siteOf_within member inside keyword (Nat.le_add_right _ _) named.bound⟩

theorem inSegment_of_resolve? {p : Position} {symbol : Symbol} {span : Span}
    (shows : (Analysis.ofDocument doc).symbolAt? p = some symbol)
    (found : (Analysis.ofDocument doc).resolve? symbol = some span) : doc.InSegment span := by
  obtain ⟨kind, name, place⟩ := symbol
  cases kind with
  | stageAlias =>
      obtain rfl := Option.some.inj found
      obtain ⟨o, g, k, -, member, -, shown⟩ := exists_shown shows
      cases shown with
      | stageAlias here => exact inSegment_of_alias member here.2.1
  | stageReference =>
      obtain ⟨stage, first, rfl⟩ := Option.map_eq_some_iff.mp found
      exact inSegment_of_mem_stages (List.mem_of_find?_eq_some first)
  | variableReference =>
      obtain ⟨v, last, rfl⟩ := Option.map_eq_some_iff.mp found
      have ordered := doc.pairwise_start_declared
      exact inSegment_of_mem_declared (Variable.lastBefore?_eq_some ordered last).1.1

end Document

/-- The location with both ends of its range taken along a function. -/
def Location.along (shift : Position → Position) (location : Location) : Location :=
  ⟨location.uri, shift location.range.start, shift location.range.stop⟩

namespace Relocation.Takes

variable {r : Relocation} {doc doc' : Document} (takes : r.Takes doc doc')
  {shift : Position → Position}
  (shifts : ∀ n < doc.lines.length, ∀ c, shift ⟨UInt32.ofNat n, c⟩ = ⟨UInt32.ofNat (r.number n), c⟩)
include takes shifts

/-- An offset on a line, its end included, keeps its character on the moved line. -/
theorem positionAt_eq {n : Nat} {line : Line} (found : doc.lines[n]? = some line) {offset : Int}
    (low : (line.start : Int) ≤ offset) (high : offset ≤ line.stop) :
    doc'.positionAt (r.byte offset) = shift (doc.positionAt offset) := by
  obtain ⟨size, place⟩ := Int.eq_ofNat_of_zero_le (Int.sub_nonneg_of_le low)
  have fits : size ≤ line.content.length := by
    rw [Line.stop] at high
    omega
  have same : offset = ((line.start + size : Nat) : Int) := by omega
  have moved : r.offset (line.start + size) = (line.move r).start + size :=
    Line.offset_add (takes.keeps line (List.mem_of_getElem? found)) fits
  have there := takes.lines n
  rw [found, Option.map_some] at there
  rw [same, r.byte_natCast, moved,
    Document.positionAt_eq there (Nat.le_add_right _ _) (Nat.add_le_add_left fits _),
    Document.positionAt_eq found (Nat.le_add_right _ _) (Nat.add_le_add_left fits _),
    shifts n (List.getElem?_eq_some_iff.mp found).1]
  simp

theorem locationOf_eq {span : Span} (lies : doc.InSegment span) :
    doc'.locationOf (span.move r) = (doc.locationOf span).along shift := by
  obtain ⟨g, member, s, inside, low, order, high⟩ := lies
  obtain ⟨n, line, found, -, first, last⟩ := Document.exists_line_of_mem_segments member inside
  simp only [Document.locationOf, Document.rangeOf, Location.along, takes.uri, Span.start_move,
    Span.stop_move]
  rw [takes.positionAt_eq shifts found (by omega) (by omega),
    takes.positionAt_eq shifts found (by omega) (by omega)]

/-- The definition of what stands under a position is the same at its new place. -/
theorem definition?_eq {p q : Position} (line : q.line.toNat = r.number p.line.toNat)
    (character : q.character = p.character) :
    doc'.definition? q = (doc.definition? p).map (Location.along shift) := by
  change ((Analysis.ofDocument doc').symbolAt? q).bind (fun symbol =>
      ((Analysis.ofDocument doc').resolve? symbol).bind fun span => some (doc'.locationOf span)) =
    (((Analysis.ofDocument doc).symbolAt? p).bind fun symbol =>
      ((Analysis.ofDocument doc).resolve? symbol).bind fun span =>
        some (doc.locationOf span)).map _
  rw [takes.symbolAt?_eq line character]
  cases shows : (Analysis.ofDocument doc).symbolAt? p with
  | none => rfl
  | some symbol =>
      simp only [Option.map_some, Option.bind_some, takes.resolve?_eq]
      cases found : (Analysis.ofDocument doc).resolve? symbol with
      | none => rfl
      | some span =>
          simp [takes.locationOf_eq shifts (Document.inSegment_of_resolve? shows found)]

end Relocation.Takes

end Dockerfile
