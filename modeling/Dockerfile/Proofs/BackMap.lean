import Dockerfile.Proofs.Argument

/-!
# Logical indexes and offsets

An argument is put together exactly if all its stretches lie in the text, and then every byte of
it is the one at its offset, whatever the order of the stretches.  If they are not empty and follow
one another, logical indexes and the offsets in the segments are in bijection, and the bijection
keeps the order.  So the source span of a stretch of the logical text holds the offsets of its bytes
and no other byte of the argument, and its line span those of its bytes in the first segment.
-/

namespace Dockerfile

namespace Argument

/-- A segment starts after the bytes of all that was laid before it. -/
theorem logical_of_getElem?_place {text : Bytes} {stretches : List Stretch}
    (within : ∀ s ∈ stretches, s.Within text) {logical k : Nat} {s : Segment}
    (found : (place logical stretches)[k]? = some s) :
    s.logical = logical + ((stretches.take k).flatMap (bytesOf text)).length := by
  induction stretches generalizing logical k with
  | nil => cases found
  | cons stretch rest ih =>
      obtain ⟨here, later⟩ := List.forall_mem_cons.mp within
      cases k with
      | zero =>
          obtain rfl := Option.some.inj found
          rfl
      | succ k =>
          rw [ih later found, List.take_succ_cons, List.flatMap_cons, List.length_append,
            length_bytesOf here, Nat.add_assoc]

/-- The byte at a logical index was read where the first segment that holds the index says. -/
theorem exists_find?_holds {text : Bytes} {stretches : List Stretch}
    (within : ∀ s ∈ stretches, s.Within text) {logical n : Nat} (low : logical ≤ n)
    (high : n < logical + (stretches.flatMap (bytesOf text)).length) :
    ∃ s, (place logical stretches).find? (·.holds n) = some s ∧
      0 ≤ s.span.start + ((n : Int) - s.logical) ∧
      text[(s.span.start + ((n : Int) - s.logical)).toNat]? =
        (stretches.flatMap (bytesOf text))[n - logical]? := by
  induction stretches generalizing logical with
  | nil =>
      rw [List.flatMap_nil, List.length_nil] at high
      omega
  | cons stretch rest ih =>
      obtain ⟨here, later⟩ := List.forall_mem_cons.mp within
      have size := length_bytesOf here
      obtain ⟨zero, order, -⟩ := here
      rw [List.flatMap_cons, List.length_append] at high
      rw [place, List.flatMap_cons]
      by_cases inside : n < logical + (bytesOf text stretch).length
      · refine ⟨⟨stretch, logical⟩, ?_, ?_, ?_⟩
        · apply List.find?_cons_of_pos
          rw [holds_iff]
          dsimp only
          omega
        · dsimp only
          omega
        · rw [List.getElem?_append_left (by omega), bytesOf, Bytes.getElem?_slice (by omega)]
          congr 1
          dsimp only
          omega
      · have other : (⟨stretch, logical⟩ : Segment).holds n = false := by
          rw [Bool.eq_false_iff, Ne, holds_iff]
          dsimp only
          omega
        obtain ⟨s, found, natural, byte⟩ := ih later
          (show logical + (stretch.span.stop - stretch.span.start).toNat ≤ n by omega) (by omega)
        refine ⟨s, ?_, natural, ?_⟩
        · rw [List.find?_cons_of_neg (by rw [other]; decide), found]
        · rw [byte, List.getElem?_append_right (by omega)]
          congr 1
          omega

/-- Every byte of an argument is the one at its offset. -/
theorem getElem?_source {text : Bytes} {escape : UInt8} {stretches : List Stretch} {stop : Int}
    (within : ∀ s ∈ stretches, s.Within text) {i : Nat}
    (small : i < (ofStretches text escape stretches stop).text.length) :
    0 ≤ (ofStretches text escape stretches stop).source i ∧
      text[((ofStretches text escape stretches stop).source i).toNat]? =
        some ((ofStretches text escape stretches stop).text.get ⟨i, small⟩) := by
  obtain ⟨s, found, natural, byte⟩ := exists_find?_holds within (Nat.zero_le i)
    (by rw [Nat.zero_add]; exact small)
  have clamped : max (i : Int) 0 = i := by omega
  have there : (ofStretches text escape stretches stop).segmentAt? i = some s := found
  rw [source, clamped, there]
  refine ⟨natural, ?_⟩
  rw [byte]
  exact List.getElem?_eq_getElem small

namespace Sound

variable {text : Bytes} {a : Argument}

theorem logical?_source (sound : a.Sound text) {i : Nat} (small : i < a.text.length) :
    a.logical? (a.source i) = some i := by
  obtain ⟨offset, reads⟩ := sound.exists_reads small
  rw [sound.source_eq reads]
  exact sound.logical?_eq_some_iff.mpr reads

theorem lt_length_of_reads (sound : a.Sound text) {i : Nat} {offset : Int}
    (reads : a.Reads i offset) : i < a.text.length := by
  obtain ⟨s, member, holds, -⟩ := reads
  have bound := sound.bound s member
  rw [Segment.logicalStop] at bound
  rw [holds_iff] at holds
  omega

theorem source_of_logical? (sound : a.Sound text) {i : Nat} {offset : Int}
    (found : a.logical? offset = some i) : i < a.text.length ∧ a.source i = offset := by
  have reads := sound.logical?_eq_some_iff.mp found
  exact ⟨sound.lt_length_of_reads reads, sound.source_eq reads⟩

theorem source_lt_source (sound : a.Sound text) {i j : Nat} (less : i < j)
    (small : j < a.text.length) : a.source i < a.source j := by
  obtain ⟨first, reads⟩ := sound.exists_reads (Nat.lt_trans less small)
  obtain ⟨second, reads'⟩ := sound.exists_reads small
  rw [sound.source_eq reads, sound.source_eq reads']
  exact (sound.lt_iff_lt reads reads').mp less

end Sound

theorem covers_ofStretches_iff {text : Bytes} {escape : UInt8} {stretches : List Stretch}
    {stop offset : Int} : (ofStretches text escape stretches stop).Covers offset ↔
      ∃ s ∈ stretches, s.span.contains offset = true := by
  constructor
  · rintro ⟨s, member, contains⟩
    exact ⟨s.toStretch, toStretch_mem_of_mem_place member, contains⟩
  · rintro ⟨s, member, contains⟩
    rw [← map_toStretch_place 0 stretches] at member
    obtain ⟨segment, listed, rfl⟩ := List.mem_map.mp member
    exact ⟨segment, listed, contains⟩

/-- Stretches are put together exactly if they lie in the text.  The argument then holds their
bytes, each at the logical index that follows all bytes before it, and every byte is the one at its
offset.  If the stretches are not empty and follow one another, the way to the source and the way
back are inverse to each other, and the way to the source keeps the order. -/
theorem assemble_reads_back (text : Bytes) (escape : UInt8) (stretches : List Stretch)
    (stop : Int) :
    ((∃ a, assemble text escape stretches stop = .ok a) ↔ ∀ s ∈ stretches,
      0 ≤ s.span.start ∧ s.span.start ≤ s.span.stop ∧ s.span.stop ≤ text.length) ∧
    ∀ a, assemble text escape stretches stop = .ok a →
      a.text = stretches.flatMap (fun s => text.slice s.span.start.toNat s.span.stop.toNat) ∧
      a.segments.map Segment.toStretch = stretches ∧
      (∀ k s, a.segments[k]? = some s → s.logical = ((stretches.take k).flatMap fun t =>
        text.slice t.span.start.toNat t.span.stop.toNat).length) ∧
      (∀ (i : Nat) (small : i < a.text.length),
        0 ≤ a.source i ∧ text[(a.source i).toNat]? = some (a.text.get ⟨i, small⟩)) ∧
      ((∀ s ∈ stretches, s.span.start < s.span.stop) →
        stretches.Pairwise (fun s t => s.span.stop ≤ t.span.start) →
          (∀ i : Nat, i < a.text.length → a.logical? (a.source i) = some i) ∧
          (∀ offset, (a.logical? offset).isSome = true ↔
            ∃ s ∈ stretches, s.span.contains offset = true) ∧
          (∀ offset i, a.logical? offset = some i → i < a.text.length ∧ a.source i = offset) ∧
          ∀ i j : Nat, i < j → j < a.text.length → a.source i < a.source j) := by
  constructor
  · constructor
    · rintro ⟨a, built⟩
      exact (assemble_eq_ok_iff.mp built).1
    · intro within
      exact ⟨_, assemble_eq_ok_iff.mpr ⟨within, rfl⟩⟩
  · intro a built
    obtain ⟨within, rfl⟩ := assemble_eq_ok_iff.mp built
    refine ⟨rfl, map_toStretch_place 0 stretches, ?_, fun i small => getElem?_source within small,
      ?_⟩
    · intro k s found
      have place := logical_of_getElem?_place within found
      rwa [Nat.zero_add] at place
    · intro filled ordered
      have laid : Stretch.Laid text stretches :=
        ⟨fun s member => ⟨(within s member).1, filled s member, (within s member).2.2⟩, ordered⟩
      have sound := sound_ofStretches laid escape stop
      refine ⟨fun i small => sound.logical?_source small, ?_,
        fun offset i found => sound.source_of_logical? found,
        fun i j less small => sound.source_lt_source less small⟩
      intro offset
      rw [← covers_ofStretches_iff, Option.isSome_iff_exists]
      exact ⟨fun ⟨i, found⟩ => sound.covers_of_logical? found, sound.exists_logical?_of_covers⟩

/-- A continued argument with a comment between its lines: the second logical index goes to the
third line and comes back, the escape byte has no logical index, and the offsets grow. -/
theorem assemble_reads_back_continued :
    ∃ a, assemble (utf8 "RUN a\\\n# c\nbc") Byte.backslash [⟨0, ⟨4, 5⟩⟩, ⟨2, ⟨11, 13⟩⟩] 13 = .ok a ∧
      a.text = utf8 "abc" ∧ a.logical? (a.source 1) = some 1 ∧ a.logical? 5 = none ∧
      a.source 0 < a.source 1 := by
  obtain ⟨succeeds, built⟩ := assemble_reads_back (utf8 "RUN a\\\n# c\nbc") Byte.backslash
    [⟨0, ⟨4, 5⟩⟩, ⟨2, ⟨11, 13⟩⟩] 13
  obtain ⟨a, done⟩ := succeeds.mpr (by decide)
  obtain ⟨text, -, -, -, ordered⟩ := built a done
  obtain ⟨inverse, inside, -, grows⟩ := ordered (by decide) (by decide)
  have size : a.text.length = 3 := by rw [text]; decide
  refine ⟨a, done, by rw [text]; decide, inverse 1 (by omega), ?_, grows 0 1 (by decide) (by omega)⟩
  rw [← Option.not_isSome_iff_eq_none, inside]
  decide

-- The stretches may overlap, be empty or come in any order.
example : (assemble (utf8 "abcd") Byte.backslash [⟨0, ⟨2, 4⟩⟩, ⟨0, ⟨1, 1⟩⟩, ⟨0, ⟨0, 3⟩⟩] 3).map
    (fun a => (a.text, a.source 3)) = .ok (utf8 "cdabc", 1) := rfl

/-- Of the indexes from one in a segment on, the segment holds those before its end. -/
theorem holds_iff_lt {s : Segment} {start stop i : Nat} (holds : s.holds start = true)
    (low : start ≤ i) (high : i < stop) :
    s.holds i = true ↔ i < min stop s.logicalStop.toNat := by
  rw [holds_iff] at holds ⊢
  rw [Segment.logicalStop]
  omega

namespace Sound

variable {text : Bytes} {a : Argument}

theorem slice_eq (sound : a.Sound text) {s : Segment} (member : s ∈ a.segments) {m n : Nat}
    (inside : n ≤ (s.span.stop - s.span.start).toNat) :
    text.slice (s.span.start.toNat + m) (s.span.start.toNat + n) =
      a.text.slice (s.logical + m) (s.logical + n) := by
  have placed := sound.inside s member
  have bytes := congrArg (Bytes.slice · m n) (sound.bytes s member)
  dsimp only [Segment.logicalStop] at bytes
  rw [Bytes.slice_slice (by omega), Bytes.slice_slice (by omega)] at bytes
  exact bytes.symm

/-- The bytes at the line span of a stretch are those of the stretch in its first segment. -/
theorem slice_lineSpan (sound : a.Sound text) {start stop : Nat} {s : Segment}
    (filled : start < stop) (bound : stop ≤ a.text.length) (member : s ∈ a.segments)
    (holds : s.holds start = true) :
    text.slice (a.lineSpan start stop).start.toNat (a.lineSpan start stop).stop.toNat =
      a.text.slice start (min stop s.logicalStop.toNat) := by
  have placed := sound.inside s member
  have same : text.slice (s.span.start.toNat + (start - s.logical)) (s.span.start.toNat +
      min (stop - s.logical) (s.span.stop - s.span.start).toNat) = _ :=
    sound.slice_eq member (Nat.min_le_right _ _)
  rw [sound.lineSpan_eq filled bound member holds]
  rw [holds_iff] at holds
  have first : (s.span.start + ((start : Int) - s.logical)).toNat =
      s.span.start.toNat + (start - s.logical) := by omega
  have last : (min (s.span.start + ((stop : Int) - s.logical)) s.span.stop).toNat =
      s.span.start.toNat + min (stop - s.logical) (s.span.stop - s.span.start).toNat := by omega
  have low : s.logical + (start - s.logical) = start := by omega
  have high : s.logical + min (stop - s.logical) (s.span.stop - s.span.start).toNat =
      min stop s.logicalStop.toNat := by
    rw [Segment.logicalStop]
    omega
  rw [first, last, same, low, high]

/-- The first segment of a stretch holds all of it exactly if it holds its last index. -/
theorem slice_eq_iff (sound : a.Sound text) {start stop : Nat} {s : Segment}
    (filled : start < stop) (bound : stop ≤ a.text.length)
    (found : a.segmentAt? start = some s) :
    a.text.slice start (min stop s.logicalStop.toNat) = a.text.slice start stop ↔
      a.segmentAt? (stop - 1) = a.segmentAt? start := by
  obtain ⟨member, holds⟩ := sound.segmentAt?_eq_some_iff.mp found
  have last : s.holds ((stop : Int) - 1) = true ↔ stop ≤ s.logicalStop.toNat := by
    rw [holds_iff] at holds ⊢
    rw [Segment.logicalStop]
    omega
  rw [found, sound.segmentAt?_eq_some_iff, and_iff_right member, last]
  constructor
  · intro same
    have size := congrArg List.length same
    rw [Bytes.length_slice _ (by omega), Bytes.length_slice _ bound] at size
    have inside := (holds_iff.mp holds).2
    rw [Segment.logicalStop] at size ⊢
    omega
  · intro whole
    rw [Nat.min_eq_left whole]

/-- One segment holds all of a stretch exactly if it holds its first and its last index. -/
theorem segmentAt?_last_iff (sound : a.Sound text) {start stop : Nat} (filled : start < stop)
    (bound : stop ≤ a.text.length) : a.segmentAt? (stop - 1) = a.segmentAt? start ↔
      ∃ s ∈ a.segments, s.logical ≤ start ∧ stop ≤ s.logicalStop := by
  constructor
  · intro same
    obtain ⟨s, inside, holds⟩ := sound.covered start (by omega)
    rw [sound.segmentAt?_eq_some_iff.mpr ⟨inside, holds⟩, sound.segmentAt?_eq_some_iff] at same
    refine ⟨s, inside, ?_⟩
    have last := holds_iff.mp same.2
    rw [holds_iff] at holds
    rw [Segment.logicalStop]
    omega
  · rintro ⟨s, inside, first, last⟩
    rw [Segment.logicalStop] at last
    rw [sound.segmentAt?_eq_some_iff.mpr ⟨inside, holds_iff.mpr (by omega)⟩,
      sound.segmentAt?_eq_some_iff.mpr ⟨inside, holds_iff.mpr (by omega)⟩]

/-- The source span of a stretch holds those offsets in the segments whose index lies in it. -/
theorem contains_sourceSpan_iff_logical? (sound : a.Sound text) {start stop : Nat} {offset : Int}
    (filled : start < stop) (bound : stop ≤ a.text.length) (covers : a.Covers offset) :
    (a.sourceSpan start stop).contains offset = true ↔
      ∃ i, a.logical? offset = some i ∧ start ≤ i ∧ i < stop := by
  obtain ⟨k, found⟩ := sound.exists_logical?_of_covers covers
  rw [sound.contains_sourceSpan_iff filled bound (sound.logical?_eq_some_iff.mp found), found]
  simp

/-- The source span of a stretch is not empty and ends with a byte of the argument. -/
theorem covers_last (sound : a.Sound text) {start stop : Nat} (filled : start < stop)
    (bound : stop ≤ a.text.length) :
    (a.sourceSpan start stop).start < (a.sourceSpan start stop).stop ∧
      a.Covers ((a.sourceSpan start stop).stop - 1) := by
  obtain ⟨first, readsFirst⟩ := sound.exists_reads (show start < a.text.length by omega)
  obtain ⟨last, readsLast⟩ := sound.exists_reads (show stop - 1 < a.text.length by omega)
  have order := sound.lt_iff_lt readsLast readsFirst
  rw [sound.sourceSpan_eq filled readsFirst readsLast]
  dsimp only
  constructor
  · omega
  · rw [Int.add_sub_cancel]
    exact sound.covers_of_logical? (sound.logical?_eq_some_iff.mpr readsLast)

end Sound

/-- The spans of a stretch of the logical text are exact.  Its source span holds the offsets of its
bytes and no other byte of the argument, and ends with a byte of the argument.  Its line span lies
in the segment of its first byte, starts there and has the bytes of the stretch up to the `cut`
where that segment ends. -/
theorem spans_exact (text : Bytes) (escape : UInt8) (stretches : List Stretch) (ending : Int)
    (laid : Stretch.Laid text stretches) :
    ∃ a, assemble text escape stretches ending = .ok a ∧
      ∀ start stop : Nat, start < stop → stop ≤ a.text.length →
        (∀ offset, (∃ s ∈ stretches, s.span.contains offset = true) →
          ((a.sourceSpan start stop).contains offset = true ↔
            ∃ i, a.logical? offset = some i ∧ start ≤ i ∧ i < stop)) ∧
        (a.sourceSpan start stop).start < (a.sourceSpan start stop).stop ∧
        (∃ s ∈ stretches, s.span.contains ((a.sourceSpan start stop).stop - 1) = true) ∧
        ∃ s, a.segmentAt? start = some s ∧
          s.span.start ≤ (a.lineSpan start stop).start ∧
          (a.lineSpan start stop).start < (a.lineSpan start stop).stop ∧
          (a.lineSpan start stop).stop ≤ s.span.stop ∧
          (a.lineSpan start stop).start = a.source start ∧
          ∃ cut ≤ stop, (∀ i : Nat, start ≤ i → i < stop → (s.holds i = true ↔ i < cut)) ∧
            text.slice (a.lineSpan start stop).start.toNat (a.lineSpan start stop).stop.toNat =
              a.text.slice start cut ∧
            a.text.slice start cut ≠ [] ∧ a.text.slice start cut <+: a.text.slice start stop ∧
            (a.text.slice start cut = a.text.slice start stop ↔
              a.segmentAt? (stop - 1) = a.segmentAt? start) := by
  have sound := sound_ofStretches laid escape ending
  refine ⟨_, assemble_eq_ok_iff.mpr ⟨laid.within, rfl⟩, ?_⟩
  intro start stop filled bound
  obtain ⟨order, last⟩ := sound.covers_last filled bound
  obtain ⟨s, member, holds, low, nonempty, high⟩ := sound.lineSpan_inside filled bound
  have found := sound.segmentAt?_eq_some_iff.mpr ⟨member, holds⟩
  refine ⟨?_, order, covers_ofStretches_iff.mp last, s, found, low, nonempty, high, ?_,
    min stop s.logicalStop.toNat, Nat.min_le_left _ _, fun i => holds_iff_lt holds,
    sound.slice_lineSpan filled bound member holds, ?_, ?_, sound.slice_eq_iff filled bound found⟩
  · intro offset covered
    exact sound.contains_sourceSpan_iff_logical? filled bound (covers_ofStretches_iff.mpr covered)
  · rw [sound.lineSpan_eq filled bound member holds, sound.source_eq ⟨s, member, holds, rfl⟩]
  · apply List.ne_nil_of_length_pos
    have inside := (holds_iff_lt holds (Nat.le_refl start) filled).mp holds
    rw [Bytes.length_slice _ (by omega)]
    omega
  · exact List.take_prefix_take_left (by omega)

/-- A stretch over both lines of a continued argument: its source span reaches over the comment
between them, and its line span has the bytes on the first line alone. -/
theorem spans_exact_continued :
    ∃ a, assemble (utf8 "RUN ab\\\n# c\ncd") Byte.backslash [⟨0, ⟨4, 6⟩⟩, ⟨2, ⟨12, 14⟩⟩] 14 =
        .ok a ∧
      (a.sourceSpan 1 3).contains 12 = true ∧ (a.sourceSpan 1 3).contains 13 = false ∧
      (utf8 "RUN ab\\\n# c\ncd").slice (a.lineSpan 1 3).start.toNat
        (a.lineSpan 1 3).stop.toNat = utf8 "b" := by
  have laid : Stretch.Laid (utf8 "RUN ab\\\n# c\ncd") [⟨0, ⟨4, 6⟩⟩, ⟨2, ⟨12, 14⟩⟩] :=
    ⟨by decide, by decide⟩
  obtain ⟨a, built, spans⟩ := spans_exact (utf8 "RUN ab\\\n# c\ncd") Byte.backslash _ 14 laid
  obtain ⟨-, rfl⟩ := assemble_eq_ok_iff.mp built
  obtain ⟨source, -, -, s, found, -, -, -, -, cut, -, held, bytes, -⟩ :=
    spans 1 3 (by decide) (by decide)
  refine ⟨_, built, (source 12 (by decide)).mpr ⟨2, rfl, by decide, by decide⟩, ?_, ?_⟩
  · refine Bool.eq_false_iff.mpr fun inside => ?_
    obtain ⟨i, index, -, small⟩ := (source 13 (by decide)).mp inside
    obtain rfl : 3 = i := Option.some.inj index
    exact Nat.lt_irrefl 3 small
  · obtain rfl : ⟨⟨0, ⟨4, 6⟩⟩, 0⟩ = s := Option.some.inj found
    have first := (held 1 (by decide) (by decide)).mp rfl
    have second := mt (held 2 (by decide) (by decide)).mpr (by decide)
    obtain rfl : cut = 2 := by omega
    exact bytes

end Argument

end Dockerfile
