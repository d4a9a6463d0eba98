import Dockerfile.Proofs.Document.Positions
import Dockerfile.Proofs.Statement.Layout

/-!
# Edges of tokens

A token of an argument that is cut off by ASCII bytes or by the ends of the argument has proper
offsets at both ends, also where lines are joined: a segment starts at its line's start or after a
blank, and ends at its line's end or before a blank or the escape byte.
-/

namespace Dockerfile

namespace Line

theorem isLoose_length_usable {escape : UInt8} (ascii : escape < 0x80) (line : Line) :
    line.content.IsLoose (line.usable escape).length := by
  obtain ⟨tail, split, next⟩ := line.content_eq escape
  cases tail with
  | nil =>
      rw [List.append_nil] at split
      exact Or.inr (Or.inl (congrArg List.length split.symm))
  | cons b rest =>
      refine Or.inr (Or.inr (Or.inl ⟨b, ?_, ?_⟩))
      · rw [split, List.getElem?_append_right (Nat.le_refl _), Nat.sub_self]
        rfl
      · rcases next b rfl with same | blank
        · rw [same]
          exact ascii
        · exact Bytes.ascii_of_isBlank blank

end Line

/-- A stretch that fills a line starts at the line's start or after an ASCII byte. -/
theorem Statement.isLoose_of_after_blank {escape : UInt8} {line : Line} {index : Nat}
    (opens : index = 0 ∨ ∃ n b, index = n + 1 ∧ (line.usable escape)[n]? = some b ∧
      Byte.isBlank b = true) : line.content.IsLoose index := by
  rcases opens with rfl | ⟨n, b, rfl, found, blank⟩
  · exact Or.inl rfl
  · obtain ⟨tail, split, -⟩ := line.content_eq escape
    obtain ⟨inside, -⟩ := List.getElem?_eq_some_iff.mp found
    refine Or.inr (Or.inr (Or.inr ⟨n, b, rfl, ?_, Bytes.ascii_of_isBlank blank⟩))
    rw [split, List.getElem?_append_left inside, found]

namespace Document

variable {doc : Document} {g : Statement.Group}

/-- An index of a segment that stands at its end or next to an ASCII byte gives a proper offset. -/
theorem isProper_of_segment (member : g ∈ doc.groups) {s : Segment} {n : Nat}
    (inside : s ∈ (doc.ofGroup g).argument.segments)
    (bound : n ≤ (s.span.stop - s.span.start).toNat)
    (loose : (doc.text.slice s.span.start.toNat s.span.stop.toNat).IsLoose n) :
    doc.IsProper (s.span.start.toNat + n) := by
  obtain ⟨⟨line, onLine, index, same, filled, opens⟩, -⟩ := fills_of_mem_segments member inside
  have listed := (mem_countingLines member onLine).1
  have start := congrArg (fun stretch => stretch.span.start.toNat) same
  have stop := congrArg (fun stretch => stretch.span.stop.toNat) same
  dsimp only [Int.toNat_natCast] at start stop
  have room := (line.isPrefix_usable doc.escape).length_le
  have placed := (sound_argument member).inside s inside
  rw [start, stop, (standsIn_text listed).slice_eq room] at loose
  have whole := Bytes.isLoose_of_slice room (Nat.le_of_lt filled)
    (Statement.isLoose_of_after_blank opens)
    (line.isLoose_length_usable doc.escape_ascii) loose
  clear opens
  refine ⟨line, listed, by omega, ?_, ?_⟩
  · rw [Line.stop]
    omega
  · rw [start, Nat.add_assoc, Nat.add_sub_cancel_left]
    exact Bytes.isBoundary_of_isLoose whole

/-- An index of the argument that stands at its end or next to an ASCII byte, in the segment that
it falls into. -/
theorem isProper_of_isLoose (member : g ∈ doc.groups) {s : Segment} {k : Nat}
    (inside : s ∈ (doc.ofGroup g).argument.segments) (low : s.logical ≤ k)
    (high : (k : Int) ≤ s.logicalStop) (loose : (doc.ofGroup g).argument.text.IsLoose k) :
    doc.IsProper (s.span.start + ((k : Int) - s.logical)).toNat := by
  have sound := sound_argument member
  have placed := sound.inside s inside
  have bound := sound.bound s inside
  have part := Bytes.isLoose_slice
    (show s.logicalStop.toNat ≤ (doc.ofGroup g).argument.text.length by omega) low (by omega) loose
  rw [sound.bytes s inside] at part
  rw [Segment.logicalStop] at high
  have proper := isProper_of_segment member inside (by omega) part
  have offset : s.span.start.toNat + (k - s.logical) =
      (s.span.start + ((k : Int) - s.logical)).toNat := by omega
  rwa [offset] at proper

theorem isProper_stop_segment (member : g ∈ doc.groups) {s : Segment}
    (inside : s ∈ (doc.ofGroup g).argument.segments) : doc.IsProper s.span.stop.toNat := by
  have placed := (sound_argument member).inside s inside
  have size : (s.span.stop - s.span.start).toNat =
      (doc.text.slice s.span.start.toNat s.span.stop.toNat).length := by
    rw [Bytes.length_slice _ (by omega)]
    omega
  have proper := isProper_of_segment member inside (Nat.le_refl _) (Or.inr (Or.inl size))
  have offset : s.span.start.toNat + (s.span.stop - s.span.start).toNat = s.span.stop.toNat := by
    omega
  rwa [offset] at proper

theorem isProper_lineSpan (member : g ∈ doc.groups) {start stop : Nat} (filled : start < stop)
    (bound : stop ≤ (doc.ofGroup g).argument.text.length)
    (first : (doc.ofGroup g).argument.text.IsLoose start)
    (last : (doc.ofGroup g).argument.text.IsLoose stop) :
    ∃ m n : Nat, (doc.ofGroup g).argument.lineSpan start stop = ⟨m, n⟩ ∧
      doc.IsProper m ∧ doc.IsProper n := by
  have sound := sound_argument member
  obtain ⟨s, inside, holds⟩ := sound.covered start (by omega)
  have placed := sound.inside s inside
  rw [sound.lineSpan_eq filled bound inside holds]
  rw [Argument.holds_iff] at holds
  have low := isProper_of_isLoose member inside (k := start) (by omega)
    (by rw [Segment.logicalStop]; omega) first
  refine ⟨(s.span.start + ((start : Int) - s.logical)).toNat,
    (min (s.span.start + ((stop : Int) - s.logical)) s.span.stop).toNat, ?_, low, ?_⟩
  · congr 1 <;> omega
  · rcases Int.le_total s.logicalStop stop with beyond | within
    · rw [Segment.logicalStop] at beyond
      rw [Int.min_eq_right (by omega)]
      exact isProper_stop_segment member inside
    · have high := isProper_of_isLoose member inside (k := stop) (by omega) within last
      rw [Segment.logicalStop] at within
      rw [Int.min_eq_left (by omega)]
      exact high

theorem isProper_sourceSpan (member : g ∈ doc.groups) {start stop : Nat} (filled : start < stop)
    (bound : stop ≤ (doc.ofGroup g).argument.text.length)
    (first : (doc.ofGroup g).argument.text.IsLoose start)
    (last : (doc.ofGroup g).argument.text.IsLoose stop) :
    ∃ m n : Nat, (doc.ofGroup g).argument.sourceSpan start stop = ⟨m, n⟩ ∧
      doc.IsProper m ∧ doc.IsProper n := by
  have sound := sound_argument member
  obtain ⟨s, inside, holds⟩ := sound.covered start (by omega)
  obtain ⟨t, inside', holds'⟩ := sound.covered (stop - 1) (by omega)
  have placed := sound.inside s inside
  have placed' := sound.inside t inside'
  rw [sound.sourceSpan_eq filled ⟨s, inside, holds, rfl⟩ ⟨t, inside', holds', rfl⟩]
  rw [Argument.holds_iff] at holds holds'
  have low := isProper_of_isLoose member inside (k := start) (by omega)
    (by rw [Segment.logicalStop]; omega) first
  have high := isProper_of_isLoose member inside' (k := stop) (by omega)
    (by rw [Segment.logicalStop]; omega) last
  refine ⟨_, _, ?_, low, high⟩
  congr 1 <;> omega

end Document

end Dockerfile
