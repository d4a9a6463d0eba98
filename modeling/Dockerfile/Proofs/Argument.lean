import Dockerfile.Argument
import Dockerfile.Proofs.Text.Bytes

/-!
# The way back from an argument

An argument whose stretches are not empty, lie in the text and follow one another keeps the order
of its bytes: logical indexes and the offsets they were read from determine each other and grow
together.  `Argument.Reads` is this relation; the functions of an argument compute it in both
directions.
-/

namespace Dockerfile

/-- The stretches are not empty, lie in the text and follow one another. -/
structure Stretch.Laid (text : Bytes) (stretches : List Stretch) : Prop where
  inside : ∀ s ∈ stretches,
    0 ≤ s.span.start ∧ s.span.start < s.span.stop ∧ s.span.stop ≤ text.length
  ordered : stretches.Pairwise fun a b => a.span.stop ≤ b.span.start

def Stretch.Within (text : Bytes) (s : Stretch) : Prop :=
  0 ≤ s.span.start ∧ s.span.start ≤ s.span.stop ∧ s.span.stop ≤ text.length

theorem Stretch.Laid.within {text : Bytes} {stretches : List Stretch}
    (laid : Stretch.Laid text stretches) : ∀ s ∈ stretches, s.Within text := by
  intro s member
  obtain ⟨low, filled, high⟩ := laid.inside s member
  exact ⟨low, Int.le_of_lt filled, high⟩

theorem Contract.inRange_eq_ok_iff {value low high : Int} {name : Bytes} :
    Contract.inRange value low high name = .ok () ↔ low ≤ value ∧ value ≤ high := by
  unfold Contract.inRange Contract.check
  split <;> simp_all

namespace Argument

theorem checkStretch_eq_ok_iff {text : Bytes} {s : Stretch} :
    checkStretch text.length s = .ok () ↔ s.Within text := by
  have start : Contract.inRange s.span.start 0 s.span.stop (utf8 "segment start") = .ok () ↔ _ :=
    Contract.inRange_eq_ok_iff
  have stop : Contract.inRange s.span.stop s.span.start text.length (utf8 "segment end") =
      .ok () ↔ _ := Contract.inRange_eq_ok_iff
  unfold checkStretch Stretch.Within
  cases first : Contract.inRange s.span.start 0 s.span.stop (utf8 "segment start") with
  | error violation =>
      rw [first] at start
      exact ⟨nofun, fun within => absurd (start.mpr ⟨within.1, within.2.1⟩) nofun⟩
  | ok _ =>
      obtain ⟨low, order⟩ := start.mp first
      change Contract.inRange s.span.stop s.span.start text.length _ = .ok () ↔ _
      rw [stop]
      exact ⟨fun inside => ⟨low, order, inside.2⟩, fun inside => ⟨order, inside.2.2⟩⟩

theorem forM_checkStretch_eq_ok_iff {text : Bytes} {stretches : List Stretch} :
    stretches.forM (checkStretch text.length) = .ok () ↔ ∀ s ∈ stretches, s.Within text := by
  induction stretches with
  | nil => exact ⟨fun _ => nofun, fun _ => rfl⟩
  | cons s rest ih =>
      rw [List.forall_mem_cons, ← checkStretch_eq_ok_iff, ← ih]
      change (checkStretch text.length s >>= fun _ => rest.forM (checkStretch text.length)) = _ ↔ _
      cases checkStretch text.length s with
      | error violation => exact ⟨nofun, fun passed => nomatch passed.1⟩
      | ok _ => exact ⟨fun passed => ⟨rfl, passed⟩, And.right⟩

/-- Stretches are put together exactly if all of them lie in the text. -/
theorem assemble_eq_ok_iff {text : Bytes} {escape : UInt8} {stretches : List Stretch} {stop : Int}
    {a : Argument} : assemble text escape stretches stop = .ok a ↔
      (∀ s ∈ stretches, s.Within text) ∧ a = ofStretches text escape stretches stop := by
  rw [← forM_checkStretch_eq_ok_iff, assemble]
  cases stretches.forM (checkStretch text.length) with
  | error violation => exact ⟨nofun, fun passed => nomatch passed.1⟩
  | ok _ => exact ⟨fun same => ⟨rfl, (Except.ok.inj same).symm⟩, fun same => same.2 ▸ rfl⟩

theorem map_toStretch_place (logical : Nat) (stretches : List Stretch) :
    (place logical stretches).map Segment.toStretch = stretches := by
  induction stretches generalizing logical with
  | nil => rfl
  | cons stretch rest ih => exact congrArg (stretch :: ·) (ih _)

theorem toStretch_mem_of_mem_place {logical : Nat} {stretches : List Stretch} {s : Segment}
    (member : s ∈ place logical stretches) : s.toStretch ∈ stretches := by
  have mapped := List.mem_map_of_mem (f := Segment.toStretch) member
  rwa [map_toStretch_place] at mapped

theorem le_logical_of_mem_place {logical : Nat} {stretches : List Stretch} {s : Segment}
    (member : s ∈ place logical stretches) : logical ≤ s.logical := by
  induction stretches generalizing logical with
  | nil => cases member
  | cons stretch rest ih =>
      rcases List.mem_cons.mp member with rfl | later
      · exact Nat.le_refl _
      · exact Nat.le_trans (Nat.le_add_right _ _) (ih later)

theorem pairwise_place {text : Bytes} {stretches : List Stretch}
    (laid : Stretch.Laid text stretches) (logical : Nat) :
    (place logical stretches).Pairwise fun s t =>
      s.span.stop ≤ t.span.start ∧ s.logicalStop ≤ t.logical := by
  induction stretches generalizing logical with
  | nil => exact List.Pairwise.nil
  | cons stretch rest ih =>
      obtain ⟨before, ordered⟩ := List.pairwise_cons.mp laid.ordered
      obtain ⟨-, filled, -⟩ := laid.inside stretch List.mem_cons_self
      have below : Stretch.Laid text rest :=
        ⟨fun s member => laid.inside s (List.mem_cons_of_mem _ member), ordered⟩
      refine List.Pairwise.cons ?_ (ih below _)
      intro s later
      have after := le_logical_of_mem_place later
      refine ⟨before s.toStretch (toStretch_mem_of_mem_place later), ?_⟩
      change (logical : Int) + (stretch.span.stop - stretch.span.start) ≤ s.logical
      omega

theorem length_bytesOf {text : Bytes} {s : Stretch} (within : s.Within text) :
    (bytesOf text s).length = (s.span.stop - s.span.start).toNat := by
  obtain ⟨low, order, high⟩ := within
  rw [bytesOf, Bytes.length_slice _ (by omega)]
  omega

/-- The bytes of a segment stand in the logical text where the segment says. -/
theorem slice_of_mem_place {text : Bytes} {stretches : List Stretch}
    (within : ∀ s ∈ stretches, s.Within text) (before : Bytes) {s : Segment}
    (member : s ∈ place before.length stretches) :
    (before ++ stretches.flatMap (bytesOf text)).slice s.logical s.logicalStop.toNat =
        bytesOf text s.toStretch ∧
      s.logicalStop ≤ (before ++ stretches.flatMap (bytesOf text)).length := by
  induction stretches generalizing before with
  | nil => cases member
  | cons stretch rest ih =>
      obtain ⟨here, after⟩ := List.forall_mem_cons.mp within
      have size := length_bytesOf here
      rw [List.flatMap_cons]
      rcases List.mem_cons.mp member with same | later
      · have room : s.logicalStop.toNat - s.logical = (bytesOf text stretch).length := by
          rw [same, size]
          change ((before.length : Int) + (stretch.span.stop - stretch.span.start)).toNat -
            before.length = _
          omega
        constructor
        · rw [Bytes.slice, room, same, List.drop_left, List.take_left]
        · rw [List.length_append, List.length_append, size, same]
          change (before.length : Int) + (stretch.span.stop - stretch.span.start) ≤ _
          omega
      · rw [← size, ← List.length_append] at later
        rw [← List.append_assoc]
        exact ih after (before ++ bytesOf text stretch) later

theorem exists_holds_of_lt {text : Bytes} {stretches : List Stretch}
    (laid : Stretch.Laid text stretches) {logical i : Nat} (low : logical ≤ i)
    (high : i < logical + (stretches.flatMap (bytesOf text)).length) :
    ∃ s ∈ place logical stretches, s.holds i = true := by
  induction stretches generalizing logical with
  | nil =>
      rw [List.flatMap_nil, List.length_nil] at high
      omega
  | cons stretch rest ih =>
      have size := length_bytesOf (laid.within stretch List.mem_cons_self)
      rw [List.flatMap_cons, List.length_append, size] at high
      by_cases here : i < logical + (stretch.span.stop - stretch.span.start).toNat
      · refine ⟨⟨stretch, logical⟩, List.mem_cons_self, ?_⟩
        rw [Segment.holds, Segment.logicalStop, Bool.and_eq_true, decide_eq_true_iff,
          decide_eq_true_iff]
        dsimp only
        omega
      · have below : Stretch.Laid text rest :=
          ⟨fun t member => laid.inside t (List.mem_cons_of_mem _ member), laid.ordered.of_cons⟩
        obtain ⟨s, member, holds⟩ := ih below
          (show logical + (stretch.span.stop - stretch.span.start).toNat ≤ i by omega) (by omega)
        exact ⟨s, List.mem_cons_of_mem _ member, holds⟩

/-- What the way back rests on: the segments lie in the text and follow one another, both there and
in the logical text, hold the same bytes in both, and cover the logical text. -/
structure Sound (text : Bytes) (a : Argument) : Prop where
  inside : ∀ s ∈ a.segments,
    0 ≤ s.span.start ∧ s.span.start < s.span.stop ∧ s.span.stop ≤ text.length
  ordered : a.segments.Pairwise fun s t =>
    s.span.stop ≤ t.span.start ∧ s.logicalStop ≤ t.logical
  bytes : ∀ s ∈ a.segments, a.text.slice s.logical s.logicalStop.toNat =
    text.slice s.span.start.toNat s.span.stop.toNat
  bound : ∀ s ∈ a.segments, s.logicalStop ≤ a.text.length
  covered : ∀ i < a.text.length, ∃ s ∈ a.segments, s.holds i = true

/-- An argument put together from stretches that are laid out in a text has a way back. -/
theorem sound_ofStretches {text : Bytes} {stretches : List Stretch}
    (laid : Stretch.Laid text stretches) (escape : UInt8) (stop : Int) :
    (ofStretches text escape stretches stop).Sound text where
  inside := fun s member => laid.inside s.toStretch (toStretch_mem_of_mem_place member)
  ordered := pairwise_place laid 0
  bytes := fun _ member => (slice_of_mem_place laid.within [] member).1
  bound := fun _ member => (slice_of_mem_place laid.within [] member).2
  covered := fun i small =>
    exists_holds_of_lt laid (Nat.zero_le i) (by rw [Nat.zero_add]; exact small)

/-- The byte at a logical index was read from an offset. -/
def Reads (a : Argument) (i : Nat) (offset : Int) : Prop :=
  ∃ s ∈ a.segments, s.holds i = true ∧ offset = s.span.start + (i - s.logical)

theorem holds_iff {s : Segment} {i : Int} :
    s.holds i = true ↔ (s.logical : Int) ≤ i ∧ i < s.logical + (s.span.stop - s.span.start) := by
  rw [Segment.holds, Segment.logicalStop, Bool.and_eq_true, decide_eq_true_iff,
    decide_eq_true_iff]

theorem contains_iff {span : Span} {offset : Int} :
    span.contains offset = true ↔ span.start ≤ offset ∧ offset < span.stop := by
  rw [Span.contains, Bool.and_eq_true, decide_eq_true_iff, decide_eq_true_iff]

def Covers (a : Argument) (offset : Int) : Prop :=
  ∃ s ∈ a.segments, s.span.contains offset = true

theorem reads_of_contains {a : Argument} {s : Segment} {offset : Int}
    (member : s ∈ a.segments) (contains : s.span.contains offset = true) :
    a.Reads (s.logical + (offset - s.span.start).toNat) offset := by
  rw [contains_iff] at contains
  refine ⟨s, member, holds_iff.mpr ?_, ?_⟩ <;> omega

/-- Halving finds the first index that satisfies a property which holds from some index on. -/
theorem bisect_spec {holds : Nat → Bool} {rounds low high : Nat} (ordered : low ≤ high)
    (enough : high - low ≤ rounds) (below : ∀ i < low, holds i = false)
    (grows : ∀ i j, i ≤ j → j < high → holds i = true → holds j = true) :
    bisect holds rounds low high ≤ high ∧ (∀ i < bisect holds rounds low high, holds i = false) ∧
      ∀ i, bisect holds rounds low high ≤ i → i < high → holds i = true := by
  induction rounds generalizing low high with
  | zero =>
      refine ⟨ordered, below, ?_⟩
      intro i past small
      change low ≤ i at past
      omega
  | succ rounds ih =>
      unfold bisect
      split
      · rename_i apart
        split
        · rename_i here
          obtain ⟨bound, before, after⟩ := ih
            (show low ≤ (low + high) / 2 by omega) (by omega) below
            (fun i j le small => grows i j le (by omega))
          refine ⟨by omega, before, ?_⟩
          intro i past small
          rcases Nat.lt_or_ge i ((low + high) / 2) with left | right
          · exact after i past left
          · exact grows _ i right small here
        · rename_i notHere
          have below' : ∀ i < (low + high) / 2 + 1, holds i = false := by
            intro i small
            cases found : holds i with
            | false => rfl
            | true => exact absurd (grows i _ (by omega) (by omega) found) notHere
          exact ih (by omega) (by omega) below' grows
      · rename_i together
        refine ⟨ordered, below, ?_⟩
        intro i past small
        omega

namespace Sound

variable {text : Bytes} {a : Argument}

/-- Two segments are the same, or one of them comes first in both texts. -/
theorem same_or_apart (sound : a.Sound text) {s t : Segment} (first : s ∈ a.segments)
    (second : t ∈ a.segments) : s = t ∨
      (s.span.stop ≤ t.span.start ∧ s.logicalStop ≤ t.logical) ∨
      (t.span.stop ≤ s.span.start ∧ t.logicalStop ≤ s.logical) := by
  obtain ⟨i, bound, rfl⟩ := List.mem_iff_getElem.mp first
  obtain ⟨j, bound', rfl⟩ := List.mem_iff_getElem.mp second
  have order := List.pairwise_iff_getElem.mp sound.ordered
  rcases Nat.lt_trichotomy i j with less | same | greater
  · exact Or.inr (Or.inl (order i j bound bound' less))
  · subst same
    exact Or.inl rfl
  · exact Or.inr (Or.inr (order j i bound' bound greater))

theorem segment_unique (sound : a.Sound text) {s t : Segment} {i : Int} (first : s ∈ a.segments)
    (second : t ∈ a.segments) (holds : s.holds i = true) (holds' : t.holds i = true) : s = t := by
  rw [holds_iff] at holds holds'
  rcases sound.same_or_apart first second with same | apart | apart
  · exact same
  · rw [Segment.logicalStop] at apart
    omega
  · rw [Segment.logicalStop] at apart
    omega

theorem segmentAt?_eq_some_iff (sound : a.Sound text) {i : Int} {s : Segment} :
    a.segmentAt? i = some s ↔ s ∈ a.segments ∧ s.holds i = true := by
  constructor
  · intro found
    have holds := List.find?_some found
    exact ⟨List.mem_of_find?_eq_some found, holds⟩
  · rintro ⟨member, holds⟩
    cases found : a.segmentAt? i with
    | none => exact absurd holds (List.find?_eq_none.mp found s member)
    | some t =>
        have holds' := List.find?_some found
        rw [sound.segment_unique (List.mem_of_find?_eq_some found) member holds' holds]

theorem source_eq (sound : a.Sound text) {i : Nat} {offset : Int} (reads : a.Reads i offset) :
    a.source i = offset := by
  obtain ⟨s, member, holds, rfl⟩ := reads
  have clamped : max (i : Int) 0 = i := by omega
  rw [source, clamped, sound.segmentAt?_eq_some_iff.mpr ⟨member, holds⟩]

theorem sourceAfter_eq (sound : a.Sound text) {i : Nat} {offset : Int}
    (reads : a.Reads i offset) : a.sourceAfter i = offset + 1 := by
  obtain ⟨s, member, holds, rfl⟩ := reads
  have clamped : max (i : Int) 0 = i := by omega
  rw [sourceAfter, clamped, sound.segmentAt?_eq_some_iff.mpr ⟨member, holds⟩]

theorem exists_reads (sound : a.Sound text) {i : Nat} (small : i < a.text.length) :
    ∃ offset, a.Reads i offset := by
  obtain ⟨s, member, holds⟩ := sound.covered i small
  exact ⟨_, s, member, holds, rfl⟩

theorem lt_iff_lt (sound : a.Sound text) {i j : Nat} {first second : Int}
    (reads : a.Reads i first) (reads' : a.Reads j second) : i < j ↔ first < second := by
  obtain ⟨s, member, holds, rfl⟩ := reads
  obtain ⟨t, member', holds', rfl⟩ := reads'
  rw [holds_iff] at holds holds'
  rcases sound.same_or_apart member member' with same | apart | apart
  · subst same
    omega
  · rw [Segment.logicalStop] at apart
    omega
  · rw [Segment.logicalStop] at apart
    omega

/-- The segment that holds an offset is the one that the search finds. -/
theorem segmentAfter_eq (sound : a.Sound text) {k : Nat} {s : Segment} {offset : Int}
    (found : a.segments[k]? = some s) (contains : s.span.contains offset = true) :
    a.segmentAfter offset = k := by
  obtain ⟨bound, rfl⟩ := List.getElem?_eq_some_iff.mp found
  have order := List.pairwise_iff_getElem.mp sound.ordered
  have stops (i : Nat) (small : i < a.segments.length) :
      ((a.segments[i]?).any fun s => offset < s.span.stop) = true ↔
        offset < a.segments[i].span.stop := by
    rw [List.getElem?_eq_getElem small, Option.any_some, decide_eq_true_iff]
  rw [contains_iff] at contains
  have grows : ∀ i j, i ≤ j → j < a.segments.length →
      ((a.segments[i]?).any fun s => offset < s.span.stop) = true →
      ((a.segments[j]?).any fun s => offset < s.span.stop) = true := by
    intro i j le small past
    rw [stops j small]
    rw [stops i (by omega)] at past
    rcases Nat.lt_or_eq_of_le le with less | same
    · have apart := (order i j (by omega) small less).1
      have filled := sound.inside _ (List.getElem_mem small)
      omega
    · subst same
      exact past
  obtain ⟨-, before, after⟩ := bisect_spec (Nat.zero_le a.segments.length)
    (show a.segments.length - 0 ≤ a.segments.length from Nat.le_refl _)
    (fun i negative => absurd negative (Nat.not_lt_zero i)) grows
  change bisect _ _ _ _ = k
  apply Nat.le_antisymm
  · apply Nat.le_of_not_lt
    intro beyond
    have none := before k beyond
    rw [← Bool.not_eq_true, stops k bound] at none
    exact none contains.2
  · apply Nat.le_of_not_lt
    intro short
    have past := (stops _ (by omega)).mp (after _ (Nat.le_refl _) (by omega))
    have apart := (order _ k (by omega) bound short).1
    omega

/-- The logical index of an offset is the one whose byte was read there. -/
theorem logical?_eq_some_iff (sound : a.Sound text) {offset : Int} {i : Nat} :
    a.logical? offset = some i ↔ a.Reads i offset := by
  constructor
  · intro found
    unfold logical? at found
    split at found
    · rename_i s there
      split at found
      · rename_i contains
        rw [← Option.some.inj found]
        exact reads_of_contains (List.mem_of_getElem? there) contains
      · cases found
    · cases found
  · rintro ⟨s, member, holds, rfl⟩
    have inside := sound.inside s member
    rw [holds_iff] at holds
    obtain ⟨k, there⟩ := List.mem_iff_getElem?.mp member
    have contains : s.span.contains (s.span.start + ((i : Int) - s.logical)) = true := by
      rw [contains_iff]
      omega
    rw [logical?, sound.segmentAfter_eq there contains, there]
    dsimp only
    rw [if_pos contains]
    congr 1
    omega

theorem exists_logical?_of_covers (sound : a.Sound text) {offset : Int} (covers : a.Covers offset) :
    ∃ k, a.logical? offset = some k := by
  obtain ⟨s, member, contains⟩ := covers
  exact ⟨_, sound.logical?_eq_some_iff.mpr (reads_of_contains member contains)⟩

theorem covers_of_logical? (sound : a.Sound text) {offset : Int} {k : Nat}
    (found : a.logical? offset = some k) : a.Covers offset := by
  obtain ⟨s, member, holds, rfl⟩ := sound.logical?_eq_some_iff.mp found
  refine ⟨s, member, contains_iff.mpr ?_⟩
  rw [holds_iff] at holds
  omega

/-- The span of a stretch of the logical text reaches from its first byte to just past its last. -/
theorem sourceSpan_eq (sound : a.Sound text) {start stop : Nat} {first last : Int}
    (filled : start < stop) (readsFirst : a.Reads start first)
    (readsLast : a.Reads (stop - 1) last) : a.sourceSpan start stop = ⟨first, last + 1⟩ := by
  have index : (stop : Int) - 1 = ((stop - 1 : Nat) : Int) := by omega
  rw [sourceSpan, if_neg (by omega), sound.source_eq readsFirst, index,
    sound.sourceAfter_eq readsLast]

/-- The span of a stretch of the logical text holds the offsets of its bytes and no other byte of
the argument. -/
theorem contains_sourceSpan_iff (sound : a.Sound text) {start stop i : Nat} {offset : Int}
    (filled : start < stop) (bound : stop ≤ a.text.length) (reads : a.Reads i offset) :
    (a.sourceSpan start stop).contains offset = true ↔ start ≤ i ∧ i < stop := by
  obtain ⟨first, readsFirst⟩ := sound.exists_reads (show start < a.text.length by omega)
  obtain ⟨last, readsLast⟩ := sound.exists_reads (show stop - 1 < a.text.length by omega)
  rw [sound.sourceSpan_eq filled readsFirst readsLast, contains_iff]
  have low := sound.lt_iff_lt reads readsFirst
  have high := sound.lt_iff_lt readsLast reads
  dsimp only
  omega

/-- The part of a stretch of the logical text on the line where it starts. -/
theorem lineSpan_eq (sound : a.Sound text) {start stop : Nat} {s : Segment} (filled : start < stop)
    (bound : stop ≤ a.text.length) (member : s ∈ a.segments) (holds : s.holds start = true) :
    a.lineSpan start stop = ⟨s.span.start + (start - s.logical),
      min (s.span.start + (stop - s.logical)) s.span.stop⟩ := by
  obtain ⟨last, readsLast⟩ := sound.exists_reads (show stop - 1 < a.text.length by omega)
  have readsFirst : a.Reads start (s.span.start + ((start : Int) - s.logical)) :=
    ⟨s, member, holds, rfl⟩
  have order := sound.lt_iff_lt readsLast readsFirst
  have ends : min (last + 1) s.span.stop =
      min (s.span.start + ((stop : Int) - s.logical)) s.span.stop := by
    obtain ⟨t, member', holds', rfl⟩ := readsLast
    rw [holds_iff] at holds holds'
    rcases sound.same_or_apart member member' with same | apart | apart
    · subst same
      omega
    · rw [Segment.logicalStop] at apart
      omega
    · rw [Segment.logicalStop] at apart
      omega
  rw [lineSpan, sound.segmentAt?_eq_some_iff.mpr ⟨member, holds⟩,
    sound.sourceSpan_eq filled readsFirst readsLast]
  exact congrArg _ ends

/-- That part is not empty and lies in the segment that holds the start. -/
theorem lineSpan_inside (sound : a.Sound text) {start stop : Nat} (filled : start < stop)
    (bound : stop ≤ a.text.length) : ∃ s ∈ a.segments, s.holds start = true ∧
      s.span.start ≤ (a.lineSpan start stop).start ∧
      (a.lineSpan start stop).start < (a.lineSpan start stop).stop ∧
      (a.lineSpan start stop).stop ≤ s.span.stop := by
  obtain ⟨s, member, holds⟩ := sound.covered start (by omega)
  refine ⟨s, member, holds, ?_⟩
  rw [sound.lineSpan_eq filled bound member holds]
  rw [holds_iff] at holds
  dsimp only
  omega

/-- The span holds the offsets of those bytes of the stretch that stand in the segment of its
first. -/
theorem contains_lineSpan_iff (sound : a.Sound text) {start stop i : Nat} {offset : Int}
    (filled : start < stop) (bound : stop ≤ a.text.length) (reads : a.Reads i offset) :
    (a.lineSpan start stop).contains offset = true ↔
      (start ≤ i ∧ i < stop) ∧ a.segmentAt? i = a.segmentAt? start := by
  obtain ⟨s, member, holds⟩ := sound.covered start (by omega)
  obtain ⟨t, member', holds', rfl⟩ := reads
  rw [sound.lineSpan_eq filled bound member holds, contains_iff,
    sound.segmentAt?_eq_some_iff.mpr ⟨member, holds⟩,
    sound.segmentAt?_eq_some_iff.mpr ⟨member', holds'⟩, Option.some.injEq]
  have inside := sound.inside s member
  rw [holds_iff] at holds holds'
  dsimp only
  rcases sound.same_or_apart member' member with same | apart | apart
  · subst same
    rw [and_iff_left rfl]
    omega
  · rw [Segment.logicalStop] at apart
    constructor
    · omega
    · rintro ⟨-, rfl⟩
      omega
  · rw [Segment.logicalStop] at apart
    constructor
    · omega
    · rintro ⟨-, rfl⟩
      omega

end Sound

theorem not_contains_lineSpan_self {a : Argument} {start : Nat} {offset : Int} :
    (a.lineSpan start start).contains offset = false := by
  rw [Bool.eq_false_iff]
  intro contains
  rw [contains_iff, lineSpan] at contains
  split at contains
  · rw [sourceSpan, if_pos (Int.le_refl _), Span.empty] at contains
    dsimp only at contains
    omega
  · rw [sourceSpan, if_pos (Int.le_refl _), Span.empty] at contains
    dsimp only at contains
    omega

end Argument

end Dockerfile
