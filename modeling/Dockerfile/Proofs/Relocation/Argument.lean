import Dockerfile.Proofs.Argument
import Dockerfile.Proofs.Text.Tokens

/-!
# Moved arguments

A relocation gives lines new numbers and bytes new offsets and keeps the order of both texts.  It
carries spans, segments and arguments along.  As long as the bytes of each segment stay together,
the way from an argument to its text and back commutes with the move: logical indexes stay, and
offsets are moved.
-/

namespace Dockerfile

/-- New numbers for lines, and new offsets for bytes in the same order. -/
structure Relocation where
  number : Nat → Nat
  offset : Nat → Nat
  increasing : ∀ {m n : Nat}, m < n → offset m < offset n

namespace Relocation

variable (r : Relocation)

/-- The new number of a line; what is no number stays. -/
def line : Int → Int
  | .ofNat n => r.number n
  | .negSucc n => .negSucc n

/-- The new offset of a byte; what is no offset stays. -/
def byte : Int → Int
  | .ofNat n => r.offset n
  | .negSucc n => .negSucc n

@[simp] theorem byte_natCast (n : Nat) : r.byte n = r.offset n := rfl

theorem byte_lt_byte {a b : Int} (less : a < b) : r.byte a < r.byte b := by
  cases a with
  | ofNat m =>
      cases b with
      | ofNat n => exact Int.ofNat_lt.mpr (r.increasing (Int.ofNat_lt.mp less))
      | negSucc n =>
          rw [Int.ofNat_eq_natCast] at less
          omega
  | negSucc m =>
      cases b with
      | ofNat n =>
          rw [Int.ofNat_eq_natCast, byte_natCast]
          change Int.negSucc m < _
          omega
      | negSucc n => exact less

@[simp] theorem byte_lt_iff {a b : Int} : r.byte a < r.byte b ↔ a < b := by
  constructor
  · intro less
    rcases Int.lt_trichotomy a b with before | same | after
    · exact before
    · rw [same] at less
      exact absurd less (Int.lt_irrefl _)
    · exact absurd less (Int.lt_asymm (r.byte_lt_byte after))
  · exact r.byte_lt_byte

@[simp] theorem byte_le_iff {a b : Int} : r.byte a ≤ r.byte b ↔ a ≤ b := by
  rw [← Int.not_lt, byte_lt_iff, Int.not_lt]

theorem byte_min (a b : Int) : r.byte (min a b) = min (r.byte a) (r.byte b) := by
  rcases Int.le_total a b with le | le
  · rw [Int.min_eq_left le, Int.min_eq_left (r.byte_le_iff.mpr le)]
  · rw [Int.min_eq_right le, Int.min_eq_right (r.byte_le_iff.mpr le)]

end Relocation

def Span.move (r : Relocation) (span : Span) : Span :=
  ⟨r.byte span.start, r.byte span.stop⟩

@[simp] theorem Span.start_move (r : Relocation) (span : Span) :
    (span.move r).start = r.byte span.start := rfl

@[simp] theorem Span.stop_move (r : Relocation) (span : Span) :
    (span.move r).stop = r.byte span.stop := rfl

@[simp] theorem Span.contains_move (r : Relocation) (span : Span) (offset : Int) :
    (span.move r).contains (r.byte offset) = span.contains offset := by
  simp [Span.contains]

/-- The bytes of the span, its end included, stay together. -/
structure Relocation.Keeps (r : Relocation) (span : Span) : Prop where
  ordered : span.start ≤ span.stop
  together : ∀ n : Nat, span.start + n ≤ span.stop →
    r.byte (span.start + n) = r.byte span.start + n

namespace Relocation.Keeps

variable {r : Relocation} {span : Span}

theorem byte_eq (keeps : r.Keeps span) {offset : Int} (low : span.start ≤ offset)
    (high : offset ≤ span.stop) : r.byte offset = r.byte span.start + (offset - span.start) := by
  obtain ⟨n, distance⟩ := Int.eq_ofNat_of_zero_le (Int.sub_nonneg_of_le low)
  have place : offset = span.start + n := by omega
  rw [place] at high ⊢
  rw [keeps.together n high]
  omega

theorem length_eq (keeps : r.Keeps span) :
    r.byte span.stop - r.byte span.start = span.stop - span.start := by
  rw [keeps.byte_eq keeps.ordered (Int.le_refl _)]
  omega

theorem inner (keeps : r.Keeps span) {part : Span} (low : span.start ≤ part.start)
    (ordered : part.start ≤ part.stop) (high : part.stop ≤ span.stop) : r.Keeps part := by
  refine ⟨ordered, ?_⟩
  intro n inside
  rw [keeps.byte_eq low (by omega), keeps.byte_eq (by omega) (by omega)]
  omega

end Relocation.Keeps

def Stretch.move (r : Relocation) (s : Stretch) : Stretch :=
  ⟨r.line s.line, s.span.move r⟩

/-- A segment keeps its logical index. -/
def Segment.move (r : Relocation) (s : Segment) : Segment :=
  ⟨s.toStretch.move r, s.logical⟩

namespace Segment

variable {r : Relocation} {s : Segment}

@[simp] theorem span_move : (s.move r).span = s.span.move r := rfl

@[simp] theorem line_move : (s.move r).line = r.line s.line := rfl

@[simp] theorem logical_move : (s.move r).logical = s.logical := rfl

theorem logicalStop_move (keeps : r.Keeps s.span) : (s.move r).logicalStop = s.logicalStop := by
  change (s.logical : Int) + (r.byte s.span.stop - r.byte s.span.start) = _
  rw [keeps.length_eq]
  rfl

theorem holds_move (keeps : r.Keeps s.span) (i : Int) : (s.move r).holds i = s.holds i := by
  rw [holds, logicalStop_move keeps, logical_move, holds]

end Segment

def Argument.move (r : Relocation) (a : Argument) : Argument :=
  { a with
    segments := a.segments.map (Segment.move r)
    stop := r.byte a.stop }

namespace Argument

@[simp] theorem text_move (r : Relocation) (a : Argument) : (a.move r).text = a.text := rfl

@[simp] theorem escape_move (r : Relocation) (a : Argument) : (a.move r).escape = a.escape := rfl

@[simp] theorem segments_move (r : Relocation) (a : Argument) :
    (a.move r).segments = a.segments.map (Segment.move r) := rfl

theorem place_move {r : Relocation} {stretches : List Stretch}
    (keeps : ∀ s ∈ stretches, r.Keeps s.span) (logical : Nat) :
    place logical (stretches.map (Stretch.move r)) =
      (place logical stretches).map (Segment.move r) := by
  induction stretches generalizing logical with
  | nil => rfl
  | cons s rest ih =>
      have size := (keeps s List.mem_cons_self).length_eq
      have later := ih (fun t member => keeps t (List.mem_cons_of_mem _ member))
        (logical + (s.span.stop - s.span.start).toNat)
      rw [← size] at later
      rw [place, List.map_cons, List.map_cons, place, ← size]
      exact congrArg (List.cons _) later

theorem segmentAfter_move (r : Relocation) (a : Argument) (offset : Int) :
    (a.move r).segmentAfter (r.byte offset) = a.segmentAfter offset := by
  have same : (fun i : Nat => ((a.segments.map (Segment.move r))[i]?).any fun s =>
      decide (r.byte offset < s.span.stop)) =
        fun i : Nat => (a.segments[i]?).any fun s => decide (offset < s.span.stop) := by
    funext i
    rw [List.getElem?_map]
    cases a.segments[i]? with
    | none => rfl
    | some s => simp
  rw [segmentAfter, segments_move, List.length_map, same, segmentAfter]

section

variable {r : Relocation} {a : Argument} (keeps : ∀ s ∈ a.segments, r.Keeps s.span)
include keeps

theorem segmentAt?_move (i : Int) :
    (a.move r).segmentAt? i = (a.segmentAt? i).map (Segment.move r) :=
  Tokens.find?_map_of_mem fun s member => Segment.holds_move (keeps s member) i

/-- The byte of a logical index that a segment holds stands in the segment. -/
theorem byte_of_segmentAt? {i : Int} {s : Segment} (found : a.segmentAt? i = some s) {n : Int}
    (low : 0 ≤ n) (high : n ≤ 1) : r.byte (s.span.start + (i - s.logical) + n) =
      r.byte s.span.start + (i - s.logical) + n := by
  have holds := List.find?_some found
  rw [holds_iff] at holds
  rw [(keeps s (List.mem_of_find?_eq_some found)).byte_eq (by omega) (by omega)]
  omega

theorem source_move (i : Int) : (a.move r).source i = r.byte (a.source i) := by
  rw [source, segmentAt?_move keeps, source]
  cases found : a.segmentAt? (max i 0) with
  | none => rfl
  | some s =>
      have same := byte_of_segmentAt? keeps found (Int.le_refl 0) (by decide)
      rw [Int.add_zero, Int.add_zero] at same
      exact same.symm

theorem sourceAfter_move {i : Int} {s : Segment} (found : a.segmentAt? (max i 0) = some s) :
    (a.move r).sourceAfter i = r.byte (a.sourceAfter i) := by
  rw [sourceAfter, segmentAt?_move keeps, sourceAfter, found]
  exact (byte_of_segmentAt? keeps found (by decide) (Int.le_refl 1)).symm

theorem sourceSpan_move {text : Bytes} (sound : a.Sound text) {start stop : Nat}
    (filled : start < stop) (bound : stop ≤ a.text.length) :
    (a.move r).sourceSpan start stop = (a.sourceSpan start stop).move r := by
  obtain ⟨s, member, holds⟩ := sound.covered (stop - 1) (by omega)
  have last : max ((stop : Int) - 1) 0 = ((stop - 1 : Nat) : Int) := by omega
  have found : a.segmentAt? (max ((stop : Int) - 1) 0) = some s := by
    rw [last]
    exact sound.segmentAt?_eq_some_iff.mpr ⟨member, holds⟩
  rw [sourceSpan, if_neg (by omega), source_move keeps, sourceAfter_move keeps found, sourceSpan,
    if_neg (by omega)]
  rfl

theorem lineSpan_move {text : Bytes} (sound : a.Sound text) {start stop : Nat}
    (filled : start < stop) (bound : stop ≤ a.text.length) :
    (a.move r).lineSpan start stop = (a.lineSpan start stop).move r := by
  rw [lineSpan, sourceSpan_move keeps sound filled bound, segmentAt?_move keeps, lineSpan]
  cases a.segmentAt? start with
  | none => rfl
  | some s =>
      change (⟨_, min (r.byte _) (r.byte _)⟩ : Span) = _
      rw [← r.byte_min]
      rfl

theorem logical?_move (offset : Int) :
    (a.move r).logical? (r.byte offset) = a.logical? offset := by
  rw [logical?, segmentAfter_move, segments_move, List.getElem?_map, logical?]
  cases found : a.segments[a.segmentAfter offset]? with
  | none => rfl
  | some s =>
      dsimp only [Option.map_some]
      rw [Segment.span_move, Span.contains_move]
      split
      · rename_i contains
        have inside := contains_iff.mp contains
        have moved := (keeps s (List.mem_of_getElem? found)).byte_eq inside.1
          (Int.le_of_lt inside.2)
        congr 1
        change s.logical + (r.byte offset - r.byte s.span.start).toNat = _
        omega
      · rfl

end

end Argument

end Dockerfile
