import Dockerfile.Proofs.Argument
import Dockerfile.Proofs.Guarded.Access

/-!
# Guarded arguments

An argument is put together with both contracts of every stretch, the cut of its bytes, and the
contract that the back map has an entry for each byte.  The way back from a logical index reads the
back map, and the way from an offset to a logical index halves the segments.  Stretches that lie in
the text one after the other pass every guard.
-/

namespace Dockerfile

namespace Guarded

open Argument (place bytesOf ofStretches)

/-- The back map: the offsets of all bytes of the segments. -/
def offsets (segments : List Segment) : List Int :=
  segments.flatMap fun s =>
    (List.range (s.span.stop - s.span.start).toNat).map fun (n : Nat) => s.span.start + n

def gather (text : Bytes) :
    (buffer : Bytes) → (segments : List Segment) → List Stretch → Run (Bytes × List Segment)
  | buffer, segments, [] => return (buffer, segments)
  | buffer, segments, s :: rest => do
      require (Argument.checkStretch text.length s)
      let bytes ← part text s.span.start s.span.stop
      gather text (buffer ++ bytes) (segments ++ [⟨s, buffer.length⟩]) rest

def sizeDetail (entries bytes : Nat) : Bytes :=
  utf8 "back map has " ++ decimal entries ++ utf8 " entries for " ++ decimal bytes ++
    utf8 " bytes"

def assemble (text : Bytes) (escape : UInt8) (stretches : List Stretch) (stop : Int) :
    Run Argument := do
  let (buffer, segments) ← gather text [] [] stretches
  let entries := (offsets segments).length
  require (Contract.check .postcondition (entries == buffer.length)
    (sizeDetail entries buffer.length))
  return ⟨buffer, escape, segments, stop⟩

def source (a : Argument) (i : Int) : Run Int :=
  if (offsets a.segments).length ≤ max i 0 then return a.stop
  else entry (offsets a.segments) (max i 0)

def sourceSpan (a : Argument) (start stop : Int) : Run Span := do
  let first ← source a start
  if stop ≤ start then return Span.empty first
  else
    let last ← source a (stop - 1)
    return ⟨first, last + 1⟩

def spanOnLine (a : Argument) (start stop : Int) : Run Span := do
  let span ← sourceSpan a start stop
  match a.segmentAt? start with
  | some s => return if s.span.stop < span.stop then ⟨span.start, s.span.stop⟩ else span
  | none => return span

def segmentAfter (a : Argument) (offset : Int) : Run Nat :=
  loop (fun (low, high) =>
    if low < high then do
      let s ← entry a.segments ((low + high) / 2 : Nat)
      return .inl (if offset < s.span.stop then (low, (low + high) / 2)
        else ((low + high) / 2 + 1, high))
    else return .inr low) (a.segments.length + 1) (0, a.segments.length)

def logical (a : Argument) (offset : Int) : Run (Option Nat) := do
  let i ← segmentAfter a offset
  if i = a.segments.length then return none
  else
    let s ← entry a.segments i
    return if s.span.contains offset then some (s.logical + (offset - s.span.start).toNat)
      else none

abbrev Inside (text : Bytes) (s : Stretch) : Prop :=
  0 ≤ s.span.start ∧ s.span.start < s.span.stop ∧ s.span.stop ≤ text.length

theorem Inside.within {text : Bytes} {s : Stretch} (inside : Inside text s) : s.Within text :=
  ⟨inside.1, Int.le_of_lt inside.2.1, inside.2.2⟩

/-- Stretches that lie in a text are put together without a refusal. -/
theorem argument_assemble_eq {text : Bytes} {stretches : List Stretch}
    (inside : ∀ s ∈ stretches, Inside text s) (escape : UInt8) (stop : Int) :
    Argument.assemble text escape stretches stop =
      .ok (ofStretches text escape stretches stop) :=
  Argument.assemble_eq_ok_iff.mpr ⟨fun s member => (inside s member).within, rfl⟩

theorem gather_eq {text : Bytes} {stretches : List Stretch}
    (inside : ∀ s ∈ stretches, Inside text s) (buffer : Bytes) (segments : List Segment) :
    gather text buffer segments stretches =
      .ok (buffer ++ stretches.flatMap (bytesOf text),
        segments ++ place buffer.length stretches) := by
  induction stretches generalizing buffer segments with
  | nil =>
      rw [gather, List.flatMap_nil, place, List.append_nil, List.append_nil]
      rfl
  | cons s rest ih =>
      obtain ⟨here, later⟩ := List.forall_mem_cons.mp inside
      have bytes : part text s.span.start s.span.stop = .ok (bytesOf text s) :=
        part_eq (by omega) (by omega) (by omega) (by omega)
      rw [gather, Argument.checkStretch_eq_ok_iff.mpr here.within, bytes]
      change gather text (buffer ++ bytesOf text s) _ rest = _
      rw [ih later, List.flatMap_cons, place, List.length_append,
        Argument.length_bytesOf here.within, List.append_assoc, List.append_assoc]
      rfl

theorem length_offsets {text : Bytes} {stretches : List Stretch}
    (inside : ∀ s ∈ stretches, Inside text s) (logical : Nat) :
    (offsets (place logical stretches)).length = (stretches.flatMap (bytesOf text)).length := by
  induction stretches generalizing logical with
  | nil => rfl
  | cons s rest ih =>
      obtain ⟨here, later⟩ := List.forall_mem_cons.mp inside
      rw [place, offsets, List.flatMap_cons, List.flatMap_cons, List.length_append,
        List.length_append, ← offsets, ih later, List.length_map, List.length_range,
        Argument.length_bytesOf here.within]

/-- The entry of the back map for a logical index that a segment holds. -/
theorem getElem?_offsets {stretches : List Stretch} {logical i : Nat} {s : Segment}
    (member : s ∈ place logical stretches) (holds : s.holds (logical + i : Nat) = true) :
    (offsets (place logical stretches))[i]? =
      some (s.span.start + ((logical + i : Nat) - s.logical)) := by
  induction stretches generalizing logical i with
  | nil => cases member
  | cons stretch rest ih =>
      have size : ((List.range (stretch.span.stop - stretch.span.start).toNat).map
          fun (n : Nat) => stretch.span.start + n).length =
          (stretch.span.stop - stretch.span.start).toNat := by
        rw [List.length_map, List.length_range]
      rw [place, offsets, List.flatMap_cons, ← offsets]
      rcases List.mem_cons.mp member with rfl | later
      · rw [Argument.holds_iff] at holds
        dsimp only at holds ⊢
        have less : i < (stretch.span.stop - stretch.span.start).toNat := by omega
        rw [List.getElem?_append_left (by rw [size]; exact less), List.getElem?_map,
          List.getElem?_range less]
        refine congrArg some ?_
        dsimp only
        omega
      · have above := Argument.le_logical_of_mem_place later
        have low := (Argument.holds_iff.mp holds).1
        have order : (stretch.span.stop - stretch.span.start).toNat ≤ i := by omega
        have same : logical + i = logical + (stretch.span.stop - stretch.span.start).toNat +
            (i - (stretch.span.stop - stretch.span.start).toNat) := by omega
        rw [List.getElem?_append_right (by rw [size]; exact order), size, same]
        rw [same] at holds
        exact ih later holds

theorem assemble_eq {text : Bytes} {stretches : List Stretch} (laid : Stretch.Laid text stretches)
    (escape : UInt8) (stop : Int) :
    assemble text escape stretches stop = .ok (ofStretches text escape stretches stop) := by
  have size := length_offsets laid.inside 0
  rw [assemble, gather_eq laid.inside, ok_bind]
  change (require (Contract.check _ ((offsets (place 0 stretches)).length ==
    (stretches.flatMap (bytesOf text)).length) _) >>= _) = _
  rw [require_check (beq_iff_eq.mpr size)]
  rfl

-- A stretch that reaches past the text is refused.
example : (assemble (utf8 "ab") Byte.backslash [⟨0, ⟨1, 3⟩⟩] 3).isOk = false := rfl

/-- The argument is put together from stretches that lie in the text. -/
def Assembled (text : Bytes) (a : Argument) : Prop :=
  ∃ escape stretches stop, Stretch.Laid text stretches ∧ a = ofStretches text escape stretches stop

namespace Assembled

variable {text : Bytes} {a : Argument}

theorem sound (built : Assembled text a) : a.Sound text := by
  obtain ⟨escape, stretches, stop, laid, rfl⟩ := built
  exact Argument.sound_ofStretches laid escape stop

theorem length_offsets (built : Assembled text a) :
    (offsets a.segments).length = a.text.length := by
  obtain ⟨escape, stretches, stop, laid, rfl⟩ := built
  exact Guarded.length_offsets laid.inside 0

theorem getElem?_offsets (built : Assembled text a) {n : Nat} {s : Segment}
    (member : s ∈ a.segments) (holds : s.holds n = true) :
    (offsets a.segments)[n]? = some (s.span.start + (n - s.logical)) := by
  obtain ⟨escape, stretches, stop, laid, rfl⟩ := built
  have entered := Guarded.getElem?_offsets member (by rwa [Nat.zero_add])
  rwa [Nat.zero_add] at entered

theorem source_eq (built : Assembled text a) (i : Int) : source a i = .ok (a.source i) := by
  have size := built.length_offsets
  obtain ⟨n, clamped⟩ := Int.eq_ofNat_of_zero_le (Int.le_max_right i 0)
  rw [source, Argument.source, clamped]
  by_cases small : n < a.text.length
  · obtain ⟨s, member, holds⟩ := built.sound.covered n small
    rw [built.sound.segmentAt?_eq_some_iff.mpr ⟨member, holds⟩, if_neg (by omega),
      entry_eq rfl (built.getElem?_offsets member holds)]
  · have none : a.segmentAt? n = none := by
      refine List.find?_eq_none.mpr ?_
      intro s member holds
      have bound := built.sound.bound s member
      rw [Argument.holds_iff] at holds
      rw [Segment.logicalStop] at bound
      omega
    rw [none, if_pos (by omega)]
    rfl

theorem sourceSpan_eq (built : Assembled text a) {start stop : Nat} (bound : stop ≤ a.text.length) :
    sourceSpan a start stop = .ok (a.sourceSpan start stop) := by
  rw [sourceSpan, Argument.sourceSpan, built.source_eq, ok_bind]
  by_cases empty : (stop : Int) ≤ start
  · rw [if_pos empty, if_pos empty]
    rfl
  · obtain ⟨offset, reads⟩ := built.sound.exists_reads (show stop - 1 < a.text.length by omega)
    have index : (stop : Int) - 1 = ((stop - 1 : Nat) : Int) := by omega
    rw [if_neg empty, if_neg empty, built.source_eq, index, built.sound.source_eq reads,
      built.sound.sourceAfter_eq reads]
    rfl

theorem spanOnLine_eq (built : Assembled text a) {start stop : Nat} (bound : stop ≤ a.text.length) :
    spanOnLine a start stop = .ok (a.lineSpan start stop) := by
  rw [spanOnLine, Argument.lineSpan, built.sourceSpan_eq bound, ok_bind]
  cases a.segmentAt? start with
  | none => rfl
  | some s =>
      change Except.ok (ite _ _ _) = Except.ok (Span.mk _ (min _ _))
      rw [Int.min_def]
      split <;> split
      · omega
      · rfl
      · rfl
      · omega

end Assembled

theorem segmentAfter_eq (a : Argument) (offset : Int) :
    segmentAfter a offset = .ok (a.segmentAfter offset) := by
  have start : ∃ rounds, a.segments.length - 0 ≤ rounds ∧
      Argument.bisect (fun i => (a.segments[i]?).any fun s => offset < s.span.stop) rounds 0
        a.segments.length = a.segmentAfter offset := ⟨_, Nat.le_refl _, rfl⟩
  refine loop_eq (s := (0, a.segments.length)) (fun _ => a.segmentAfter offset)
    (fun (low, high) => high ≤ a.segments.length ∧ ∃ rounds, high - low ≤ rounds ∧
      Argument.bisect (fun i => (a.segments[i]?).any fun s => offset < s.span.stop) rounds low
        high = a.segmentAfter offset)
    (fun (low, high) => high - low) ?_ ⟨Nat.le_refl _, start⟩ (Nat.lt_succ_self _)
  rintro ⟨low, high⟩ ⟨bound, rounds, enough, answer⟩
  dsimp only
  by_cases less : low < high
  · have middle := List.getElem?_eq_getElem (show (low + high) / 2 < a.segments.length by omega)
    rw [if_pos less, entry_eq rfl middle]
    obtain ⟨rounds, rfl⟩ := Nat.exists_eq_add_one_of_ne_zero (show rounds ≠ 0 by omega)
    rw [Argument.bisect, if_pos less, middle, Option.any_some] at answer
    refine Or.inr ⟨_, rfl, ?_⟩
    by_cases after : offset < a.segments[(low + high) / 2].span.stop
    · rw [if_pos (decide_eq_true after)] at answer
      rw [if_pos after]
      exact ⟨⟨by omega, rounds, by omega, answer⟩, by dsimp only; omega, rfl⟩
    · rw [if_neg (fun same => after (of_decide_eq_true same))] at answer
      rw [if_neg after]
      exact ⟨⟨bound, rounds, by omega, answer⟩, by dsimp only; omega, rfl⟩
  · refine Or.inl ?_
    rw [if_neg less, ← answer]
    cases rounds with
    | zero => rfl
    | succ rounds =>
        rw [Argument.bisect, if_neg less]
        rfl

theorem bisect_le (holds : Nat → Bool) (rounds : Nat) {low high : Nat} (order : low ≤ high) :
    Argument.bisect holds rounds low high ≤ high := by
  induction rounds generalizing low high with
  | zero => exact order
  | succ rounds ih =>
      rw [Argument.bisect]
      split
      · split
        · exact Nat.le_trans (ih (by omega)) (by omega)
        · exact ih (by omega)
      · exact order

theorem logical_eq (a : Argument) (offset : Int) :
    logical a offset = .ok (a.logical? offset) := by
  rw [logical, Argument.logical?, segmentAfter_eq, ok_bind]
  cases found : a.segments[a.segmentAfter offset]? with
  | some s =>
      obtain ⟨less, -⟩ := List.getElem?_eq_some_iff.mp found
      rw [if_neg (Nat.ne_of_lt less), entry_eq rfl found]
      rfl
  | none =>
      have last : a.segmentAfter offset = a.segments.length :=
        Nat.le_antisymm (bisect_le _ _ (Nat.zero_le _)) (List.getElem?_eq_none_iff.mp found)
      rw [if_pos last]
      rfl

end Guarded

end Dockerfile
