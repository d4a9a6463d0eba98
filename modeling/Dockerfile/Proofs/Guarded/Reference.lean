import Dockerfile.Proofs.Guarded.Access
import Dockerfile.Proofs.Reference

/-!
# Guarded references

A variable reference is read from its dollar sign on: an opening brace, the bytes of the name, and a
closing brace that directly follows.  Each byte that is looked at is guarded, and so is the cut of
the name.
-/

namespace Dockerfile

namespace Guarded

def hasByte (text : Bytes) (i : Nat) (b : UInt8) : Run Bool :=
  if i < text.length then do
    let c ← entry text i
    return c == b
  else return false

/-- The reference with its dollar sign at `start` and its name at `first`. -/
def nameFrom (text : Bytes) (braced : Bool) (start first : Nat) : Run (Option Reference) := do
  let last ← advance Reference.isNameByte text text.length first
  if last = first then return none
  else
    let name ← part text first last
    let closed ← hasByte text last Byte.closeBrace
    return some ⟨name, start, if braced && closed then last + 1 else last⟩

def referenceFrom (text : Bytes) (start : Nat) : Run (Option Reference) := do
  let braced ← hasByte text (start + 1) Byte.openBrace
  nameFrom text braced start (if braced then start + 2 else start + 1)

def referenceAt (text : Bytes) (i : Nat) : Run (Option Reference) := do
  let b ← entry text i
  if b == Byte.dollar then referenceFrom text i else return none

def references (text : Bytes) : Run (List Reference) :=
  loop (fun ((i, found) : Nat × List Reference) =>
    if i < text.length then do
      match ← referenceAt text i with
      | some r => return .inl (r.stop, found ++ [r])
      | none => return .inl (i + 1, found)
    else return .inr found) (text.length + 1) (0, [])

theorem hasByte_eq (text : Bytes) (i : Nat) (b : UInt8) :
    hasByte text i b = .ok ((text.drop i).head? == some b) := by
  rw [hasByte, List.head?_drop]
  by_cases less : i < text.length
  · rw [if_pos less, entry_eq rfl (List.getElem?_eq_getElem less), List.getElem?_eq_getElem less]
    rfl
  · rw [if_neg less, List.getElem?_eq_none (Nat.le_of_not_lt less)]
    rfl

/-- The reference with its dollar sign at `start` and its name at `first`, where a text goes on. -/
def named (text : Bytes) (braced : Bool) (start first : Nat) : Option Reference :=
  let name := text.takeWhile Reference.isNameByte
  let closed := (text.drop name.length).head? == some Byte.closeBrace
  let last := first + name.length
  if name.isEmpty then none
  else some ⟨name, start, if braced && closed then last + 1 else last⟩

theorem nameFrom_eq {text : Bytes} {first : Nat} (inside : first ≤ text.length) (braced : Bool)
    (start : Nat) :
    nameFrom text braced start first = .ok (named (text.drop first) braced start first) := by
  have leads := List.takeWhile_prefix (l := text.drop first) Reference.isNameByte
  rw [nameFrom, named, advance_tail, ok_bind]
  generalize (text.drop first).takeWhile Reference.isNameByte = name at leads
  cases name with
  | nil => exact if_pos rfl
  | cons b rest =>
      rw [if_neg (by rw [List.length_cons]; omega), part_front leads inside, ok_bind, hasByte_eq,
        ← List.drop_drop]
      rfl

theorem named_true (text : Bytes) (start : Nat) :
    named text true start (start + 2) = (Reference.braced? text).map
      fun (name, size) => ⟨name, start, start + (size + 1)⟩ := by
  rw [named, Reference.braced?]
  generalize text.takeWhile Reference.isNameByte = name
  dsimp only
  cases name.isEmpty with
  | true => rfl
  | false =>
      have stop : start + 2 + name.length = start + (name.length + 1 + 1) := by omega
      rw [stop]
      cases (text.drop name.length).head? == some Byte.closeBrace <;> rfl

theorem named_false (text : Bytes) (start : Nat) :
    named text false start (start + 1) = (if (text.takeWhile Reference.isNameByte).isEmpty then none
      else some (text.takeWhile Reference.isNameByte,
        (text.takeWhile Reference.isNameByte).length)).map
      fun (name, size) => ⟨name, start, start + (size + 1)⟩ := by
  rw [named]
  generalize text.takeWhile Reference.isNameByte = name
  dsimp only
  cases name.isEmpty with
  | true => rfl
  | false =>
      have stop : start + 1 + name.length = start + (name.length + 1) := by omega
      rw [stop]
      rfl

theorem referenceFrom_eq {text : Bytes} {start : Nat} (inside : start < text.length) :
    referenceFrom text start = .ok ((Reference.named? (text.drop (start + 1))).map
      fun (name, size) => ⟨name, start, start + (size + 1)⟩) := by
  rw [referenceFrom, hasByte_eq, ok_bind]
  cases cut : text.drop (start + 1) with
  | nil =>
      rw [if_neg nofun, nameFrom_eq inside, cut]
      rfl
  | cons b rest =>
      have size := congrArg List.length cut
      rw [List.length_drop, List.length_cons] at size
      have next : text.drop (start + 2) = rest := by
        rw [← Nat.add_assoc start 1 1, ← List.drop_drop, cut]
        rfl
      rw [List.head?_cons, Reference.named?]
      by_cases opened : b = Byte.openBrace
      · rw [opened]
        change nameFrom text true start (start + 2) =
          Except.ok ((Reference.braced? rest).map _)
        rw [nameFrom_eq (by omega), next, named_true]
      · rw [beq_false_of_ne (fun same => opened (Option.some.inj same)), beq_false_of_ne opened]
        change nameFrom text false start (start + 1) = _
        rw [nameFrom_eq inside, cut, named_false]
        rfl

theorem referenceAt_eq {text : Bytes} {i : Nat} (less : i < text.length) :
    referenceAt text i = .ok ((Reference.read i (text.drop i)).map Prod.fst) := by
  rw [referenceAt, entry_eq rfl (List.getElem?_eq_getElem less), ok_bind,
    List.drop_eq_getElem_cons less, Reference.read]
  by_cases dollar : (text[i] == Byte.dollar) = true
  · rw [if_pos dollar, if_pos dollar, referenceFrom_eq less, Option.map_map]
    rfl
  · rw [if_neg dollar, if_neg dollar]
    rfl

theorem references_eq (text : Bytes) : references text = .ok (Reference.all text) := by
  refine loop_eq (s := (0, []))
    (fun ((i, found) : Nat × List Reference) =>
      found ++ Tokens.scan Reference.read i 0 (text.drop i))
    (fun _ => True) (fun ((i, _) : Nat × List Reference) => text.length - i) ?_ trivial
    (Nat.lt_succ_self _)
  rintro ⟨i, found⟩ -
  dsimp only
  by_cases less : i < text.length
  · have cut := List.drop_eq_getElem_cons less
    rw [if_pos less, referenceAt_eq less, ok_bind, cut]
    cases read : Reference.read i (text[i] :: text.drop (i + 1)) with
    | none =>
        rw [Tokens.scan_none _ read]
        exact Or.inr ⟨_, rfl, trivial, by dsimp only; omega, rfl⟩
    | some pair =>
        obtain ⟨r, size⟩ := pair
        obtain ⟨-, stop, -, m, b, rfl, -, -⟩ := Reference.read_eq_some read
        rw [Tokens.scan_some _ read, List.drop_drop]
        refine Or.inr ⟨_, rfl, trivial, by dsimp only; omega, ?_⟩
        dsimp only
        rw [List.append_assoc, stop, Nat.add_assoc i 1, Nat.add_comm 1]
        rfl
  · rw [if_neg less, List.drop_eq_nil_of_le (Nat.le_of_not_lt less), Tokens.scan_nil,
      List.append_nil]
    exact Or.inl rfl

end Guarded

end Dockerfile
