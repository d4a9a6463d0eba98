import Dockerfile.Fault

/-!
# Kinds along a chain of causes

A fault and everything that it wraps form a chain, from the outside in.  A fault counts as one of a
kind by the outermost member of its chain that has a kind at all: notes are looked through, but what
a fault of a kind was caused by has no say any more.
-/

namespace Dockerfile

namespace Fault

/-- The kind of the fault itself, whatever it wraps. -/
def kind? : Fault → Option Kind
  | .typed kind _ _ _ => some kind
  | _ => none

/-- The fault and all that it wraps at any depth, from the outside in. -/
def chain : Fault → List Fault
  | .plain message => [.plain message]
  | .note message none => [.note message none]
  | .note message (some cause) => .note message (some cause) :: cause.chain
  | .typed kind message none context => [.typed kind message none context]
  | .typed kind message (some cause) context =>
      .typed kind message (some cause) context :: cause.chain

/-- Some fault of the chain, the outermost or a wrapped one, is of the kind. -/
def WrapsKind (fault : Fault) (kind : Kind) : Prop :=
  ∃ inner ∈ fault.chain, inner.kind? = some kind

/-- The outermost fault that has a kind is the first of the chain that has one. -/
theorem map_fst_outermost? (fault : Fault) :
    fault.outermost?.map Prod.fst = fault.chain.findSome? kind? := by
  fun_induction chain fault with
  | case1 message => rfl
  | case2 message => rfl
  | case3 message cause ih => exact ih
  | case4 kind message context => rfl
  | case5 kind message cause context ih => rfl

theorem hasKind_iff_findSome? {fault : Fault} {kind : Kind} :
    fault.hasKind kind = true ↔ fault.chain.findSome? kind? = some kind := by
  rw [← map_fst_outermost?, hasKind]
  cases fault.outermost? with
  | none => simp
  | some found => simp

/-- A fault is of the kind that the first fault of its chain has which has any at all. -/
theorem hasKind_iff {fault : Fault} {kind : Kind} :
    fault.hasKind kind = true ↔
      ∃ outer inner rest, fault.chain = outer ++ inner :: rest ∧ inner.kind? = some kind ∧
        ∀ f ∈ outer, f.kind? = none :=
  hasKind_iff_findSome?.trans List.findSome?_eq_some_iff

/-- Somewhere in a chain that has a kind there is an outermost fault of a kind. -/
theorem WrapsKind.exists_outermost {fault : Fault} {kind : Kind} (within : fault.WrapsKind kind) :
    ∃ first, fault.hasKind first = true := by
  obtain ⟨inner, inside, same⟩ := within
  cases found : fault.chain.findSome? kind? with
  | some first => exact ⟨first, hasKind_iff_findSome?.mpr found⟩
  | none =>
      rw [List.findSome?_eq_none_iff] at found
      rw [found inner inside] at same
      cases same

theorem eq_of_hasKind {fault : Fault} {first second : Kind} (one : fault.hasKind first = true)
    (other : fault.hasKind second = true) : first = second := by
  rw [hasKind_iff_findSome?] at one other
  exact Option.some.inj (one.symm.trans other)

/-- A fault counts as one of a kind exactly if that is the kind of the outermost fault in its chain
that has any.  It then wraps one of that kind.  It may wrap one of the kind and not count as such:
exactly if a fault of another kind is the outermost one and stands outside of it. -/
theorem hasKind_by_outermost (fault : Fault) (kind : Kind) :
    (fault.hasKind kind = true ↔
      ∃ outer inner rest, fault.chain = outer ++ inner :: rest ∧ inner.kind? = some kind ∧
        ∀ f ∈ outer, f.kind? = none) ∧
    (fault.hasKind kind = true → fault.WrapsKind kind) ∧
    (fault.WrapsKind kind ∧ ¬ fault.hasKind kind = true ↔
      ∃ outer first rest other, fault.chain = outer ++ first :: rest ∧
        first.kind? = some other ∧ (∀ f ∈ outer, f.kind? = none) ∧ other ≠ kind ∧
        ∃ inner ∈ rest, inner.kind? = some kind) := by
  refine ⟨hasKind_iff, ?_, ?_, ?_⟩
  · intro counts
    obtain ⟨outer, inner, rest, split, same, -⟩ := hasKind_iff.mp counts
    exact ⟨inner, by simp [split], same⟩
  · rintro ⟨within, hidden⟩
    obtain ⟨other, counts⟩ := within.exists_outermost
    have different : other ≠ kind := by
      rintro rfl
      exact hidden counts
    obtain ⟨outer, first, rest, split, typed, untyped⟩ := hasKind_iff.mp counts
    obtain ⟨inner, inside, same⟩ := within
    refine ⟨outer, first, rest, other, split, typed, untyped, different, inner, ?_, same⟩
    rw [split, List.mem_append, List.mem_cons] at inside
    rcases inside with inside | rfl | inside
    · rw [untyped inner inside] at same
      cases same
    · exact absurd (Option.some.inj (typed.symm.trans same)) different
    · exact inside
  · rintro ⟨outer, first, rest, other, split, typed, untyped, different, inner, inside, same⟩
    refine ⟨⟨inner, by simp [split, inside], same⟩, ?_⟩
    intro counts
    exact different (eq_of_hasKind (hasKind_iff.mpr ⟨outer, first, rest, split, typed, untyped⟩)
      counts)

/-- A fault to read the input that was caused by a missing definition wraps one of that kind, but it
does not count as one. -/
theorem cause_hidden_by_kind :
    let fault := Fault.typed .inputRead (utf8 "top")
      (some (.typed .noDefinition (utf8 "low") none [])) []
    fault.WrapsKind .noDefinition ∧ fault.hasKind .noDefinition = false := by
  refine ⟨⟨.typed .noDefinition (utf8 "low") none [], ?_, rfl⟩, rfl⟩
  exact List.mem_cons_of_mem _ List.mem_cons_self

end Fault

end Dockerfile
