import Dockerfile.Proofs.Statement.Layout
import Dockerfile.Proofs.Word

/-!
# Where stage names stand

Every stage comes from an instruction that opens one, and every name that such an instruction gives
is a stage.  The span of a stage's name, like that of any word on its first line, lies in a segment
of its instruction.
-/

namespace Dockerfile

namespace Stage

theorem alias?_mem {a : Argument} {word : Word} (found : alias? a = some word) :
    word ∈ Word.all a.text := by
  unfold alias? at found
  split at found
  · rename_i image middle name rest operands
    split at found
    · rw [← Option.some.inj found]
      refine (List.dropWhile_sublist Word.isFlag).subset ?_
      change name ∈ Word.operands (Word.all a.text)
      rw [operands]
      exact List.mem_cons_of_mem _ (List.mem_cons_of_mem _ List.mem_cons_self)
    · cases found
  · cases found

theorem exists_of_mem_collect {index : Nat} {instructions : List Instruction} {stage : Stage}
    (member : stage ∈ collect index instructions) : ∃ i ∈ instructions, i.opensStage = true ∧
      ∃ n, ofArgument? n i.argument = some stage := by
  induction instructions generalizing index with
  | nil => cases member
  | cons i rest ih =>
      rw [collect] at member
      split at member
      · rename_i opens
        rcases List.mem_append.mp member with here | later
        · exact ⟨i, List.mem_cons_self, opens, index, Option.mem_toList.mp here⟩
        · obtain ⟨j, inside, found⟩ := ih later
          exact ⟨j, List.mem_cons_of_mem _ inside, found⟩
      · obtain ⟨j, inside, found⟩ := ih member
        exact ⟨j, List.mem_cons_of_mem _ inside, found⟩

theorem exists_mem_collect (index : Nat) {instructions : List Instruction} {i : Instruction}
    {word : Word} (member : i ∈ instructions) (opens : i.opensStage = true)
    (found : alias? i.argument = some word) : ∃ stage ∈ collect index instructions,
      stage.name = word.text ∧ stage.nameSpan = i.argument.lineSpan word.start word.stop := by
  induction instructions generalizing index with
  | nil => cases member
  | cons j rest ih =>
      rw [collect]
      rcases List.mem_cons.mp member with same | inside
      · rw [← same, if_pos opens, ofArgument?, found]
        exact ⟨_, List.mem_append_left _ List.mem_cons_self, rfl, rfl⟩
      · split
        · obtain ⟨stage, later, names⟩ := ih (index + 1) inside
          exact ⟨stage, List.mem_append_right _ later, names⟩
        · exact ih index inside

end Stage

namespace Document

variable {doc : Document}

/-- A span of words on one line lies among the instruction's segments. -/
theorem covers_of_lineSpan {g : Statement.Group} (member : g ∈ doc.groups) {start stop : Nat}
    (filled : start < stop) (bound : stop ≤ (doc.ofGroup g).argument.text.length) {offset : Int}
    (contains : ((doc.ofGroup g).argument.lineSpan start stop).contains offset = true) :
    (doc.ofGroup g).argument.Covers offset := by
  obtain ⟨s, inside, -, low, -, high⟩ := (sound_argument member).lineSpan_inside filled bound
  rw [Argument.contains_iff] at contains
  refine ⟨s, inside, Argument.contains_iff.mpr ?_⟩
  omega

end Document

end Dockerfile
