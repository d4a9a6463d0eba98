import Dockerfile.Proofs.BackMap
import Dockerfile.Proofs.Declared
import Dockerfile.Proofs.StageDefinition
import Dockerfile.Text.Encoding
import Mathlib.Data.List.Forall2

/-!
# The index of stages

The instructions that open a stage are numbered in document order, and the stages are what those of
them record that have `AS` as their second operand.  A recorded name is a whole operand, also where
a continuation splits it; its span has the part of it that stands on the line where it starts.
-/

namespace Dockerfile

namespace Bytes

/-- The spellings of `AS` when case is ignored; the long `ſ` is a form of `s`. -/
def spellingsOfAs : List Bytes :=
  ['A', 'a'].flatMap fun a => ['S', 's', 'ſ'].map fun s => ofChars [a, s]

theorem spellsAs_iff {text : Bytes} : text.spellsAs = true ↔ text ∈ spellingsOfAs := by
  have letters (a s : Char) : ((a == 'A' || a == 'a') && (s == 'S' || s == 's' ||
      s.toNat == 0x17f)) = true ↔ a ∈ ['A', 'a'] ∧ s ∈ ['S', 's', 'ſ'] := by
    have long : s.toNat = 0x17f ↔ s = 'ſ' := Char.toNat_inj (d := 'ſ')
    simp [long, or_assoc]
  simp only [spellingsOfAs, List.mem_flatMap, List.mem_map]
  constructor
  · intro spells
    unfold spellsAs at spells
    split at spells
    · rename_i a s read
      obtain ⟨first, second⟩ := (letters a s).mp spells
      refine ⟨a, first, s, second, ?_⟩
      have clean : Piece.replacement ∉ text.chars := by
        rw [read, List.mem_cons, List.mem_singleton]
        rintro (rfl | rfl)
        · exact absurd first (by decide)
        · exact absurd second (by decide)
      rw [← read, ofChars_chars clean]
    · cases spells
  · rintro ⟨a, first, s, second, rfl⟩
    rw [spellsAs, chars_ofChars]
    exact (letters a s).mpr ⟨first, second⟩

end Bytes

namespace Instruction

/-- The words of an instruction's argument after its leading flags. -/
def operands (i : Instruction) : List Word :=
  Word.operands (Word.all i.argument.text)

/-- There are at least three operands, and the second spells `AS`. -/
def namesStage (i : Instruction) : Bool :=
  3 ≤ i.operands.length && (i.operands[1]?).any fun word =>
    Bytes.spellingsOfAs.contains word.text

end Instruction

namespace Stage

theorem alias?_eq_some_iff {i : Instruction} {word : Word} :
    alias? i.argument = some word ↔ i.namesStage = true ∧ i.operands[2]? = some word := by
  unfold alias? Instruction.namesStage Instruction.operands
  generalize Word.operands (Word.all i.argument.text) = words
  rcases words with _ | ⟨image, _ | ⟨middle, _ | ⟨name, rest⟩⟩⟩ <;> simp [Bytes.spellsAs_iff]

/-- An argument gives a stage exactly if its instruction names one. -/
theorem isSome_ofArgument? (index : Nat) (i : Instruction) :
    (ofArgument? index i.argument).isSome = i.namesStage := by
  rw [Bool.eq_iff_iff, ofArgument?, Option.isSome_map, Option.isSome_iff_exists]
  constructor
  · rintro ⟨word, found⟩
    exact (alias?_eq_some_iff.mp found).1
  · intro names
    have enough : 2 < i.operands.length := by
      rw [Instruction.namesStage, Bool.and_eq_true, decide_eq_true_iff] at names
      exact names.1
    exact ⟨_, alias?_eq_some_iff.mpr ⟨names, List.getElem?_eq_getElem enough⟩⟩

/-- The stages are what the numbered instructions that open a stage say about the stages they name,
in their order. -/
theorem forall₂_collect {rel : Instruction × Nat → Stage → Prop} (index : Nat)
    {instructions : List Instruction}
    (law : ∀ i ∈ instructions, ∀ n stage, ofArgument? n i.argument = some stage →
      rel (i, n) stage) :
    List.Forall₂ rel (((instructions.filter Instruction.opensStage).zipIdx index).filter
      (·.1.namesStage)) (collect index instructions) := by
  induction instructions generalizing index with
  | nil => exact List.Forall₂.nil
  | cons i rest ih =>
      obtain ⟨here, later⟩ := List.forall_mem_cons.mp law
      rw [collect, List.filter_cons]
      split
      · rw [List.zipIdx_cons, List.filter_cons, ← isSome_ofArgument? index i]
        cases found : ofArgument? index i.argument with
        | none => exact ih (index + 1) later
        | some stage => exact List.Forall₂.cons (here index stage found) (ih (index + 1) later)
      · exact ih index later

/-- Stages are numbered from the given index on, each by the stages opened before it. -/
theorem pairwise_index_collect (index : Nat) (instructions : List Instruction) :
    (∀ stage ∈ collect index instructions, index ≤ stage.index) ∧
      (collect index instructions).Pairwise fun s t => s.index < t.index := by
  induction instructions generalizing index with
  | nil => exact ⟨nofun, List.Pairwise.nil⟩
  | cons i rest ih =>
      rw [collect]
      split
      · obtain ⟨above, ordered⟩ := ih (index + 1)
        cases found : ofArgument? index i.argument with
        | none => exact ⟨fun stage later => Nat.le_of_succ_le (above stage later), ordered⟩
        | some stage =>
            obtain ⟨word, -, rfl⟩ := Option.map_eq_some_iff.mp found
            refine ⟨List.forall_mem_cons.mpr ⟨Nat.le_refl index, ?_⟩, ordered.cons above⟩
            exact fun stage later => Nat.le_of_succ_le (above stage later)
      · exact ih index

/-- What an instruction records of the stage it names, `source.2` stages having been opened before
it: the third operand, the part of it on the line where it starts, and the number of that line.  The
part is all of the name if one segment holds the whole operand. -/
structure Records (doc : Document) (source : Instruction × Nat) (stage : Stage) : Prop where
  index : stage.index = source.2
  within : source.1.raw.start ≤ stage.nameSpan.start ∧
    stage.nameSpan.start < stage.nameSpan.stop ∧ stage.nameSpan.stop ≤ source.1.raw.stop
  together : ∃ line ∈ doc.lines, (line.start : Int) ≤ stage.nameSpan.start ∧
    stage.nameSpan.stop ≤ line.stop
  line : stage.line = doc.lineOf stage.nameSpan.start
  named : ∃ word, source.1.operands[2]? = some word ∧ stage.name = word.text ∧
    doc.text.slice stage.nameSpan.start.toNat stage.nameSpan.stop.toNat <+: stage.name ∧
    (doc.text.slice stage.nameSpan.start.toNat stage.nameSpan.stop.toNat = stage.name ↔
      ∃ s ∈ source.1.argument.segments, s.logical ≤ word.start ∧ word.stop ≤ s.logicalStop)

end Stage

namespace Document

variable {doc : Document}

theorem records_of_ofArgument? {g : Statement.Group} (member : g ∈ doc.groups) {n : Nat}
    {stage : Stage} (found : Stage.ofArgument? n (doc.ofGroup g).argument = some stage) :
    stage.Records doc (doc.ofGroup g, n) := by
  obtain ⟨word, third, rfl⟩ := Option.map_eq_some_iff.mp found
  have stands := (Word.all_standsIn _).1 word (Stage.alias?_mem third)
  have sound := sound_argument member
  obtain ⟨s, inside, holds, low, filled, high⟩ := sound.lineSpan_inside stands.filled stands.bound
  have held := sound.segmentAt?_eq_some_iff.mpr ⟨inside, holds⟩
  obtain ⟨n, line, listed, -, first, last⟩ := exists_line_of_mem_segments member inside
  have bytes := sound.slice_lineSpan stands.filled stands.bound inside holds
  have raw := lineSpan_within_raw member stands.filled stands.bound
  refine ⟨rfl, ⟨raw.1, filled, raw.2⟩, ⟨line, List.mem_of_getElem? listed,
      Int.le_trans first low, Int.le_trans high last⟩, ?_,
    word, (Stage.alias?_eq_some_iff.mp third).2, rfl, ?_, ?_⟩
  · dsimp only
    rw [held]
    obtain ⟨offset, start⟩ := Int.eq_ofNat_of_zero_le
      (show 0 ≤ ((doc.ofGroup g).argument.lineSpan word.start word.stop).start by omega)
    rw [start]
    exact line_eq_lineOf member inside (by omega) (by omega)
  · dsimp only
    rw [bytes, stands.bytes]
    exact List.take_prefix_take_left (by omega)
  · dsimp only
    rw [bytes, stands.bytes, sound.slice_eq_iff stands.filled stands.bound held,
      sound.segmentAt?_last_iff stands.filled stands.bound]

/-- There is one stage for each `FROM` that has `AS` as the second of at least three operands.  It
records the third operand and the number of `FROM`s before it, and the stages are in order. -/
theorem stages_in_place (uri text : Bytes) :
    let doc := ofText uri text
    let a := Analysis.ofDocument doc
    List.Forall₂ (Stage.Records doc)
      ((a.instructions.filter fun i => i.keyword = some .fromImage).zipIdx.filter (·.1.namesStage))
      a.stages ∧
    a.stages.Pairwise fun s t => s.index < t.index ∧ s.nameSpan.stop < t.nameSpan.start := by
  intro doc a
  refine ⟨?_, (Stage.pairwise_index_collect 0 _).2.and doc.pairwise_stages⟩
  have opens : (a.instructions.filter fun i => i.keyword = some .fromImage) =
      a.instructions.filter Instruction.opensStage := by
    refine List.filter_congr fun i _ => ?_
    rw [Bool.eq_iff_iff, decide_eq_true_iff, Instruction.opensStage_iff]
  rw [opens]
  refine Stage.forall₂_collect 0 ?_
  intro i member n stage found
  change i ∈ doc.instructions at member
  rw [instructions_eq] at member
  obtain ⟨g, grouped, rfl⟩ := List.mem_map.mp member
  exact records_of_ofArgument? grouped found

-- The first `FROM` has no name but counts; a continuation splits the name of the second.
example : (Analysis.ofDocument (ofText [] (utf8 "FROM x\nFROM --flag y aS a\\\nb"))).stages =
    [⟨utf8 "ab", ⟨24, 25⟩, 1, 1⟩] := by decide +kernel

end Document

end Dockerfile
