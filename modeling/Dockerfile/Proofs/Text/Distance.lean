import Dockerfile.Text.Distance
import Mathlib.Order.Bounds.Basic
import Mathlib.Order.MinMax

/-!
# What the edit distance counts

The table of the edit distance is filled row by row, for longer and longer beginnings of the two
lists.  Its last entry is the least number of insertions, deletions and substitutions that lead from
one list to the other: as many are enough, and no single edit brings the target nearer by more than
one.
-/

namespace Dockerfile

namespace Distance

variable {α : Type}

/-- One element of a list is inserted, deleted or replaced by another one, at any place. -/
inductive Edit : List α → List α → Prop where
  | insert (front : List α) (a : α) (back : List α) : Edit (front ++ back) (front ++ a :: back)
  | delete (front : List α) (a : α) (back : List α) : Edit (front ++ a :: back) (front ++ back)
  | replace (front : List α) (a b : α) (back : List α) :
      Edit (front ++ a :: back) (front ++ b :: back)

/-- A number of edits, one after the other, lead from one list to another. -/
inductive Edits : Nat → List α → List α → Prop where
  | none (source : List α) : Edits 0 source source
  | more {n : Nat} {source between target : List α} (edits : Edits n source between)
      (edit : Edit between target) : Edits (n + 1) source target

theorem Edit.reverse {source target : List α} (edit : Edit source target) :
    Edit source.reverse target.reverse := by
  cases edit with
  | insert front a back => simpa using Edit.insert back.reverse a front.reverse
  | delete front a back => simpa using Edit.delete back.reverse a front.reverse
  | replace front a b back => simpa using Edit.replace back.reverse a b front.reverse

theorem Edit.cons {source target : List α} (a : α) (edit : Edit source target) :
    Edit (a :: source) (a :: target) := by
  cases edit with
  | insert front b back => exact .insert (a :: front) b back
  | delete front b back => exact .delete (a :: front) b back
  | replace front b c back => exact .replace (a :: front) b c back

namespace Edits

variable {n : Nat} {source between target : List α}

theorem reverse (edits : Edits n source target) : Edits n source.reverse target.reverse := by
  induction edits with
  | none source => exact .none _
  | more edits edit ih => exact .more ih edit.reverse

theorem reverse_iff : Edits n source.reverse target.reverse ↔ Edits n source target := by
  refine ⟨fun edits => ?_, reverse⟩
  simpa using edits.reverse

theorem cons (a : α) (edits : Edits n source target) : Edits n (a :: source) (a :: target) := by
  induction edits with
  | none source => exact .none _
  | more edits edit ih => exact .more ih (edit.cons a)

/-- An edit may come first as well. -/
theorem after_edit (edit : Edit source between) (edits : Edits n between target) :
    Edits (n + 1) source target := by
  induction edits with
  | none between => exact .more (.none source) edit
  | more edits last ih => exact .more (ih edit) last

end Edits

variable [BEq α]

/-- The distance by the usual recursion, on the first elements of two lists. -/
def cost : List α → List α → Nat
  | [], target => target.length
  | _ :: source, [] => source.length + 1
  | a :: source, b :: target =>
      if a == b then cost source target
      else min (min (cost source (b :: target)) (cost (a :: source) target))
        (cost source target) + 1
termination_by source target => source.length + target.length

theorem cost_cons_cons (a b : α) (source target : List α) :
    cost (a :: source) (b :: target) =
      if a == b then cost source target
      else min (min (cost source (b :: target)) (cost (a :: source) target))
        (cost source target) + 1 := by
  rw [cost]

/-! ## The table -/

/-- The entries of a row to the right of a beginning of the target that has been read; the lists are
read backwards. -/
def entries (source read : List α) : List α → List Nat
  | [] => []
  | b :: rest => cost source (b :: read) :: entries source (b :: read) rest

theorem row_eq (a : α) (source read rest : List α) :
    row a (cost (a :: source) read) (cost source read) rest (entries source read rest) =
      entries (a :: source) read rest := by
  induction rest generalizing read with
  | nil => rfl
  | cons b rest ih =>
      rw [entries, row, entries, ← cost_cons_cons, ih]

theorem cost_nil (source : List α) : cost source [] = source.length := by
  cases source with
  | nil => rw [cost]
  | cons a source => rw [cost, List.length_cons]

theorem nextRow_eq (a : α) (source target : List α) :
    nextRow target (cost source [] :: entries source [] target) a =
      cost (a :: source) [] :: entries (a :: source) [] target := by
  have left : cost source [] + 1 = cost (a :: source) [] := by
    rw [cost_nil, cost_nil, List.length_cons]
  rw [nextRow, left, row_eq]

theorem range'_eq (read rest : List α) :
    List.range' (read.length + 1) rest.length = entries [] read rest := by
  induction rest generalizing read with
  | nil => rfl
  | cons b rest ih =>
      rw [List.length_cons, List.range'_succ, entries, cost, ← ih]
      rfl

theorem foldl_nextRow_eq (done source target : List α) :
    source.foldl (nextRow target) (cost done [] :: entries done [] target) =
      cost (source.reverse ++ done) [] :: entries (source.reverse ++ done) [] target := by
  induction source generalizing done with
  | nil => rfl
  | cons a source ih =>
      rw [List.foldl_cons, nextRow_eq, ih, List.reverse_cons, List.append_assoc]
      rfl

theorem getLastD_entries (source read rest : List α) :
    (cost source read :: entries source read rest).getLastD 0 =
      cost source (rest.reverse ++ read) := by
  induction rest generalizing read with
  | nil => rfl
  | cons b rest ih =>
      rw [List.reverse_cons, List.append_assoc, List.singleton_append, ← ih]
      rfl

/-- The last entry of the table is the cost of the lists, read backwards. -/
theorem editDistance_eq_cost (source target : List α) :
    editDistance source target = cost source.reverse target.reverse := by
  have start : List.range (target.length + 1) = cost ([] : List α) [] :: entries [] [] target := by
    rw [← range'_eq, cost, List.range_eq_range', List.range'_succ]
    rfl
  have final := getLastD_entries (source.reverse ++ []) [] target
  rw [editDistance, start, foldl_nextRow_eq, final, List.append_nil, List.append_nil]

/-! ## Single edits -/

/-- Neither an element more in the source nor one more in the target changes the cost by more than
one.  The two go hand in hand, by induction over the target. -/
theorem cost_le_of_cons (target : List α) :
    (∀ (a : α) (source : List α), cost source target ≤ cost (a :: source) target + 1) ∧
      ∀ (b : α) (source : List α), cost source (b :: target) ≤ cost source target + 1 := by
  have insert (target : List α)
      (shorter : ∀ (a : α) (source : List α), cost source target ≤ cost (a :: source) target + 1)
      (b : α) (source : List α) : cost source (b :: target) ≤ cost source target + 1 := by
    cases source with
    | nil => simp [cost]
    | cons a source =>
        have less := shorter a source
        rw [cost_cons_cons]
        split <;> omega
  induction target with
  | nil =>
      have shorter (a : α) (source : List α) : cost source [] ≤ cost (a :: source) [] + 1 := by
        rw [cost_nil, cost_nil, List.length_cons]
        omega
      exact ⟨shorter, insert [] shorter⟩
  | cons b target ih =>
      obtain ⟨shorter, longer⟩ := ih
      have shorter' (a : α) (source : List α) :
          cost source (b :: target) ≤ cost (a :: source) (b :: target) + 1 := by
        have first := shorter a source
        have second := longer b source
        rw [cost_cons_cons]
        split <;> omega
      exact ⟨shorter', insert (b :: target) shorter'⟩

/-- If a change of the target costs at most one more, whatever the source, then so does the change
after a common first element. -/
theorem cost_cons_le {target target' : List α}
    (change : ∀ source, cost source target' ≤ cost source target + 1) (b : α) (source : List α) :
    cost source (b :: target') ≤ cost source (b :: target) + 1 := by
  induction source with
  | nil =>
      have length := change []
      simp only [cost, List.length_cons] at length ⊢
      omega
  | cons a source ih =>
      have here := change source
      have longer := change (a :: source)
      rw [cost_cons_cons, cost_cons_cons]
      split <;> omega

variable [LawfulBEq α]

theorem cost_comm (source target : List α) : cost source target = cost target source := by
  fun_induction cost source target with
  | case1 target => exact (cost_nil target).symm
  | case2 a source => simp [cost]
  | case3 a source b target same ih =>
      rw [beq_iff_eq.mp same, cost_cons_cons, if_pos (beq_self_eq_true b), ih]
  | case4 a source b target other ih ih' ih'' =>
      have other' : ¬ (b == a) = true := fun same =>
        other (beq_iff_eq.mpr (beq_iff_eq.mp same).symm)
      rw [cost_cons_cons, if_neg other', ih, ih', ih'', min_comm (cost (b :: target) source)]

theorem cost_self (source : List α) : cost source source = 0 := by
  induction source with
  | nil => rw [cost]; rfl
  | cons a source ih => rw [cost_cons_cons, if_pos (beq_self_eq_true a), ih]

theorem cost_le_cost_cons (a : α) (source target : List α) :
    cost source target ≤ cost source (a :: target) + 1 := by
  rw [cost_comm source, cost_comm source]
  exact (cost_le_of_cons source).1 a target

theorem cost_replace_le (a b : α) (source target : List α) :
    cost source (b :: target) ≤ cost source (a :: target) + 1 := by
  induction source with
  | nil => simp [cost]
  | cons c source ih =>
      have shorter := (cost_le_of_cons target).1 c source
      have dropped := cost_le_cost_cons a source target
      rw [cost_cons_cons, cost_cons_cons]
      split <;> split <;> omega

theorem cost_le_of_edit {target target' : List α} (edit : Edit target target')
    (source : List α) : cost source target' ≤ cost source target + 1 := by
  have front (prefixed : List α) {tail tail' : List α}
      (change : ∀ source, cost source tail' ≤ cost source tail + 1) (source : List α) :
      cost source (prefixed ++ tail') ≤ cost source (prefixed ++ tail) + 1 := by
    induction prefixed generalizing source with
    | nil => exact change source
    | cons b rest ih => exact cost_cons_le ih b source
  cases edit with
  | insert before a after => exact front before (fun s => (cost_le_of_cons after).2 a s) source
  | delete before a after => exact front before (fun s => cost_le_cost_cons a s after) source
  | replace before a b after => exact front before (fun s => cost_replace_le a b s after) source

/-- No fewer edits than the cost will do. -/
theorem cost_le_of_edits {n : Nat} {source target : List α} (edits : Edits n source target) :
    cost source target ≤ n := by
  induction edits with
  | none source => exact Nat.le_of_eq (cost_self source)
  | more edits edit ih => exact Nat.le_trans (cost_le_of_edit edit _) (Nat.succ_le_succ ih)

/-- As many edits as the cost will do. -/
theorem edits_cost (source target : List α) : Edits (cost source target) source target := by
  fun_induction cost source target with
  | case1 target =>
      induction target with
      | nil => exact .none []
      | cons b target ih => exact (ih.cons b).after_edit (.insert [] b [])
  | case2 a source =>
      induction source generalizing a with
      | nil => exact .more (.none [a]) (.delete [] a [])
      | cons b source ih => exact (ih b).after_edit (.delete [] a (b :: source))
  | case3 a source b target same ih =>
      rw [beq_iff_eq.mp same]
      exact ih.cons b
  | case4 a source b target other ih ih' ih'' =>
      have replaced := (ih''.cons b).after_edit (.replace [] a b source)
      have deleted := ih.after_edit (.delete [] a source)
      have inserted := (ih'.cons b).after_edit (.insert [] b (a :: source))
      rcases min_choice (min (cost source (b :: target)) (cost (a :: source) target))
        (cost source target) with least | least
      · rw [least]
        rcases min_choice (cost source (b :: target)) (cost (a :: source) target) with least | least
        · rw [least]
          exact deleted
        · rw [least]
          exact inserted
      · rw [least]
        exact replaced

end Distance

/-- The edit distance is the least number of edits that lead from one list to the other. -/
theorem isLeast_editDistance {α : Type} [BEq α] [LawfulBEq α] (source target : List α) :
    IsLeast {n | Distance.Edits n source target} (editDistance source target) := by
  rw [Distance.editDistance_eq_cost]
  constructor
  · exact Distance.Edits.reverse_iff.mp (Distance.edits_cost _ _)
  · intro n edits
    exact Distance.cost_le_of_edits (Distance.Edits.reverse edits)

end Dockerfile
