import Dockerfile.Contract
import Dockerfile.Proofs.Text.Bytes

/-!
# Guarded access

A run that guards every access to a list stops with a failure where an index or a cut is out of
range, where a contract is broken, and where a loop takes more rounds than it is given.  A loop
that makes progress under an invariant never fails and comes to the answer that its rounds keep.
-/

namespace Dockerfile

namespace Guarded

inductive Failure where
  | contract (violation : Contract.Violation)
  | index (index : Int) (length : Nat)
  | cut (start stop : Int) (length : Nat)
  | endless
  deriving DecidableEq, Repr

abbrev Run := Except Failure

variable {α σ ρ : Type}

def require (check : Except Contract.Violation Unit) : Run Unit :=
  check.mapError Failure.contract

def natural (i : Int) : Run Nat :=
  if 0 ≤ i then .ok i.toNat else .error (.index i 0)

def entry (list : List α) (i : Int) : Run α :=
  if 0 ≤ i then
    match list[i.toNat]? with
    | some a => .ok a
    | none => .error (.index i list.length)
  else .error (.index i list.length)

def part (list : List α) (start stop : Int) : Run (List α) :=
  if 0 ≤ start ∧ start ≤ stop ∧ stop ≤ list.length then
    .ok ((list.drop start.toNat).take (stop - start).toNat)
  else .error (.cut start stop list.length)

/-- Repeat a step until it answers, at most the given number of rounds. -/
def loop (step : σ → Run (σ ⊕ ρ)) : (rounds : Nat) → σ → Run ρ
  | 0, _ => .error .endless
  | rounds + 1, s => do
      match ← step s with
      | .inl next => loop step rounds next
      | .inr answer => return answer

theorem ok_bind (a : α) (next : α → Run ρ) : ((Except.ok a : Run α) >>= next) = next a :=
  rfl

theorem require_check {kind : Contract.Kind} {condition : Bool} {detail : Bytes}
    (holds : condition = true) : require (Contract.check kind condition detail) = .ok () := by
  rw [holds]
  rfl

theorem natural_eq (n : Nat) : natural n = .ok n :=
  if_pos (Int.natCast_nonneg n)

theorem entry_eq {list : List α} {i : Int} {n : Nat} {a : α} (index : i = n)
    (found : list[n]? = some a) : entry list i = .ok a := by
  rw [index, entry, if_pos (Int.natCast_nonneg n), Int.toNat_natCast, found]

theorem part_eq {text : Bytes} {start stop : Int} {m n : Nat} (first : start = m)
    (last : stop = n) (order : m ≤ n) (inside : n ≤ text.length) :
    part text start stop = .ok (text.slice m n) := by
  rw [first, last, part, if_pos (by omega), Int.toNat_natCast]
  congr 2
  omega

theorem part_front {text front : Bytes} {start : Nat} (leads : front <+: text.drop start)
    (inside : start ≤ text.length) : part text start (start + front.length : Nat) = .ok front := by
  have short := leads.length_le
  rw [List.length_drop] at short
  rw [part_eq rfl rfl (Nat.le_add_right _ _) (by omega), Bytes.slice, Nat.add_sub_cancel_left,
    ← List.prefix_iff_eq_take.mp leads]

theorem part_tail {list : List α} {n : Nat} (inside : n ≤ list.length) :
    part list n list.length = .ok (list.drop n) := by
  rw [part, if_pos (by omega), Int.toNat_natCast, List.take_of_length_le]
  rw [List.length_drop]
  omega

/-- A loop answers if, under an invariant, every step answers or leads on, with a bound that goes
down and an answer that stays. -/
theorem loop_eq {step : σ → Run (σ ⊕ ρ)} (answer : σ → ρ) (holds : σ → Prop) (bound : σ → Nat)
    (progress : ∀ s, holds s → step s = .ok (.inr (answer s)) ∨
      ∃ next, step s = .ok (.inl next) ∧ holds next ∧ bound next < bound s ∧
        answer next = answer s)
    {rounds : Nat} {s : σ} (start : holds s) (enough : bound s < rounds) :
    loop step rounds s = .ok (answer s) := by
  induction rounds generalizing s with
  | zero => exact absurd enough (Nat.not_lt_zero _)
  | succ rounds ih =>
      rw [loop]
      rcases progress s start with done | ⟨next, goes, kept, less, same⟩
      · rw [done]
        rfl
      · rw [goes, ← same]
        exact ih kept (Nat.lt_of_lt_of_le less (Nat.le_of_lt_succ enough))

/-! ## Runs of bytes of one kind -/

theorem findIdx?_eq (kind : UInt8 → Bool) (text : Bytes) :
    text.findIdx? kind = match text.dropWhile (!kind ·) with
      | [] => none
      | _ :: _ => some (text.takeWhile (!kind ·)).length := by
  induction text with
  | nil => rfl
  | cons b rest ih =>
      rw [List.findIdx?_cons]
      cases same : kind b with
      | true =>
          rw [List.dropWhile_cons_of_neg (by rw [same]; decide),
            List.takeWhile_cons_of_neg (by rw [same]; decide)]
          rfl
      | false =>
          rw [List.dropWhile_cons_of_pos (by rw [same]; rfl),
            List.takeWhile_cons_of_pos (by rw [same]; rfl), ih]
          cases rest.dropWhile (!kind ·) <;> rfl

/-- Go on from an index while the bytes are of a kind, up to `stop`. -/
def advance (kind : UInt8 → Bool) (text : Bytes) (stop start : Nat) : Run Nat :=
  loop (fun i : Nat =>
    if i < stop then do
      let b ← entry text i
      return if kind b then .inl (i + 1) else .inr i
    else return .inr i) (text.length + 1) start

def retreat (kind : UInt8 → Bool) (text : Bytes) (start stop : Nat) : Run Nat :=
  loop (fun i : Nat =>
    if start < i then do
      let b ← entry text ((i : Int) - 1)
      return if kind b then .inl (i - 1) else .inr i
    else return .inr i) (text.length + 1) stop

theorem advance_eq (kind : UInt8 → Bool) {text : Bytes} {stop : Nat} (start : Nat)
    (inside : stop ≤ text.length) : advance kind text stop start =
      .ok (start + ((text.slice start stop).takeWhile kind).length) := by
  refine loop_eq (fun i => i + ((text.slice i stop).takeWhile kind).length)
    (fun _ => True) (fun i => stop - i) ?_ trivial (by omega)
  intro i _
  by_cases less : i < stop
  · have found := List.getElem?_eq_getElem (show i < text.length by omega)
    rw [if_pos less, entry_eq rfl found, Bytes.slice_eq_cons less found]
    cases same : kind text[i] with
    | true =>
        refine Or.inr ⟨i + 1, ?_, trivial, by omega, ?_⟩
        · change Except.ok (if kind text[i] = true then _ else _) = _
          rw [if_pos same]
        · rw [List.takeWhile_cons_of_pos same, List.length_cons]
          omega
    | false =>
        refine Or.inl ?_
        change Except.ok (if kind text[i] = true then _ else _) = _
        rw [if_neg (by rw [same]; decide), List.takeWhile_cons_of_neg (by rw [same]; decide)]
        rfl
  · refine Or.inl ?_
    rw [if_neg less, Bytes.slice, Nat.sub_eq_zero_of_le (Nat.le_of_not_lt less)]
    rfl

theorem advance_tail (kind : UInt8 → Bool) (text : Bytes) (start : Nat) :
    advance kind text text.length start =
      .ok (start + ((text.drop start).takeWhile kind).length) := by
  rw [advance_eq _ _ (Nat.le_refl _), Bytes.slice_length]

theorem retreat_eq (kind : UInt8 → Bool) {text : Bytes} {start stop : Nat} (order : start ≤ stop)
    (inside : stop ≤ text.length) : retreat kind text start stop =
      .ok (start + ((text.slice start stop).reverse.dropWhile kind).length) := by
  refine loop_eq (fun i => start + ((text.slice start i).reverse.dropWhile kind).length)
    (fun i => start ≤ i ∧ i ≤ text.length) (fun i => i) ?_ ⟨order, inside⟩ (by omega)
  rintro i ⟨low, high⟩
  by_cases less : start < i
  · obtain ⟨n, rfl⟩ := Nat.exists_eq_add_one_of_ne_zero (Nat.ne_zero_of_lt less)
    have found := List.getElem?_eq_getElem (show n < text.length by omega)
    rw [if_pos less, entry_eq (by omega) found, Bytes.slice_eq_concat (by omega) found,
      List.reverse_concat]
    cases same : kind text[n] with
    | true =>
        refine Or.inr ⟨n, ?_, by omega, by omega, ?_⟩
        · change Except.ok (if kind text[n] = true then _ else _) = _
          rw [if_pos same]
          rfl
        · rw [List.dropWhile_cons_of_pos same]
    | false =>
        refine Or.inl ?_
        change Except.ok (if kind text[n] = true then _ else _) = _
        rw [if_neg (by rw [same]; decide), List.dropWhile_cons_of_neg (by rw [same]; decide),
          List.length_cons, List.length_reverse, Bytes.length_slice _ (by omega)]
        congr 2
        omega
  · refine Or.inl ?_
    have same : i = start := by omega
    rw [if_neg less, same, Bytes.slice, Nat.sub_self]
    rfl

end Guarded

end Dockerfile
