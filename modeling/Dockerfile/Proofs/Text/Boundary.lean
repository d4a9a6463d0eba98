import Dockerfile.Proofs.Text.Bytes
import Dockerfile.Text.Encoding

/-!
# Cuts between characters

A text may be cut at an index without cutting a character in two if its pieces divide there.  The
pieces of both parts are then those of the whole, so that UTF-16 units add up and grow with the
index.  Next to an ASCII byte there is always such a cut: no longer sequence contains one.
-/

namespace Dockerfile

namespace Piece

def unitsOf (pieces : List Piece) : Nat :=
  pieces.foldr (fun piece total => piece.units + total) 0

theorem unitsOf_append (left right : List Piece) :
    unitsOf (left ++ right) = unitsOf left + unitsOf right := by
  induction left with
  | nil => exact (Nat.zero_add _).symm
  | cons piece left ih =>
      change piece.units + unitsOf (left ++ right) = piece.units + unitsOf left + unitsOf right
      rw [ih, Nat.add_assoc]

theorem unitsOf_pos {pieces : List Piece} (filled : pieces ≠ []) : 0 < unitsOf pieces := by
  cases pieces with
  | nil => exact absurd rfl filled
  | cons piece rest => exact Nat.lt_of_lt_of_le piece.units_pos (Nat.le_add_right _ _)

/-- No byte after the first one of a sequence is an ASCII byte. -/
theorem not_ascii_of_mem_tail {c : Char} {b t : UInt8} {tail : Bytes}
    (encoded : String.utf8EncodeChar c = b :: tail) (inside : t ∈ tail) : ¬ t < 0x80 := by
  have high (n : Nat) : ¬ UInt8.ofNat (n % 64 + 128) < 0x80 := by
    rw [UInt8.lt_iff_toNat_lt, toNat_ofNat (by omega)]
    exact Nat.not_lt.mpr (Nat.le_add_left _ _)
  change (if c.toNat ≤ 127 then [UInt8.ofNat c.toNat]
    else if c.toNat ≤ 2047 then
      [UInt8.ofNat (c.toNat / 64 % 32 + 192), UInt8.ofNat (c.toNat % 64 + 128)]
    else if c.toNat ≤ 65535 then
      [UInt8.ofNat (c.toNat / 4096 % 16 + 224), UInt8.ofNat (c.toNat / 64 % 64 + 128),
        UInt8.ofNat (c.toNat % 64 + 128)]
    else
      [UInt8.ofNat (c.toNat / 262144 % 8 + 240), UInt8.ofNat (c.toNat / 4096 % 64 + 128),
        UInt8.ofNat (c.toNat / 64 % 64 + 128), UInt8.ofNat (c.toNat % 64 + 128)]) = _ at encoded
  repeat' split at encoded
  all_goals
    obtain ⟨-, rfl⟩ := List.cons.inj encoded
    simp only [List.mem_cons, List.not_mem_nil, or_false] at inside
  · rw [inside]
    exact high _
  · rcases inside with same | same <;> rw [same] <;> exact high _
  · rcases inside with same | same | same <;> rw [same] <;> exact high _

/-- A character is found as soon as its sequence stands in front. -/
theorem scalar?_eq_some_iff {b : UInt8} {rest : Bytes} {c : Char} :
    scalar? b rest = some c ↔ String.utf8EncodeChar c <+: b :: rest := by
  constructor
  · exact scalar?_sound
  · rintro ⟨more, split⟩
    cases encoded : String.utf8EncodeChar c with
    | nil => exact absurd encoded String.utf8EncodeChar_ne_nil
    | cons head tail =>
        rw [encoded, List.cons_append] at split
        obtain ⟨same, rfl⟩ := List.cons.inj split
        rw [same] at encoded
        exact scalar?_encode c more encoded

/-- A piece is read from its own bytes alone. -/
theorem first_of_isPrefix {b : UInt8} {tail rest : Bytes} (shorter : tail <+: rest)
    (fits : (first b rest).size ≤ tail.length + 1) : first b tail = first b rest := by
  have wider : b :: tail <+: b :: rest := List.cons_prefix_cons.mpr ⟨rfl, shorter⟩
  cases found : scalar? b rest with
  | some c =>
      have read : first b rest = .scalar c := by rw [first, found]
      rw [read, ← length_encode] at fits
      have inside : scalar? b tail = some c := scalar?_eq_some_iff.mpr
        (List.prefix_of_prefix_length_le (scalar?_eq_some_iff.mp found) wider fits)
      rw [read, first, inside]
  | none =>
      cases inside : scalar? b tail with
      | none => rw [first, first, found, inside]
      | some c =>
          have outside := scalar?_eq_some_iff.mpr ((scalar?_eq_some_iff.mp inside).trans wider)
          cases found.symm.trans outside

theorem size_first_le (b : UInt8) (rest : Bytes) : (first b rest).size ≤ (b :: rest).length := by
  rw [← length_encode]
  exact (encode_first b rest).length_le

/-- What follows an ASCII byte has no say in the piece before it. -/
theorem first_append_ascii {b : UInt8} (small : b < 0x80) (a : UInt8) (left right : Bytes) :
    first a (left ++ b :: right) = first a left := by
  have same (c : Char) : scalar? a (left ++ b :: right) = some c ↔ scalar? a left = some c := by
    rw [scalar?_eq_some_iff, scalar?_eq_some_iff]
    constructor
    · intro found
      cases encoded : String.utf8EncodeChar c with
      | nil => exact List.nil_prefix
      | cons head tail =>
          rw [encoded] at found
          obtain ⟨same, inside⟩ := List.cons_prefix_cons.mp found
          rw [same, List.cons_prefix_cons]
          refine ⟨rfl, ?_⟩
          rcases Nat.lt_or_ge left.length tail.length with longer | fits
          · have ascii : b ∈ tail := by
              have cut : left ++ [b] <+: tail :=
                List.prefix_of_prefix_length_le (List.prefix_append_right_inj left |>.mpr
                  (List.cons_prefix_cons.mpr ⟨rfl, List.nil_prefix⟩)) inside
                  (by rw [List.length_append]; exact longer)
              exact cut.subset (List.mem_append_right _ (List.mem_singleton_self b))
            exact absurd small (not_ascii_of_mem_tail encoded ascii)
          · exact List.prefix_of_prefix_length_le inside (List.prefix_append _ _) fits
    · rintro ⟨more, found⟩
      exact ⟨more ++ b :: right, by rw [← List.append_assoc, found, List.cons_append]⟩
  have equal : scalar? a (left ++ b :: right) = scalar? a left := by
    cases found : scalar? a left with
    | some c => exact (same c).mpr found
    | none =>
        cases wider : scalar? a (left ++ b :: right) with
        | none => rfl
        | some c => exact absurd ((same c).mp wider) (by rw [found]; exact nofun)
  rw [first, first, equal]

end Piece

namespace Bytes

theorem scan_pieces_index (index other skip : Nat) (text : Bytes) :
    Tokens.scan Piece.read index skip text = Tokens.scan Piece.read other skip text := by
  induction text generalizing index other skip with
  | nil => rw [Tokens.scan_nil, Tokens.scan_nil]
  | cons b rest ih =>
      cases skip with
      | succ skip => exact ih _ _ skip
      | zero => exact congrArg (List.cons _) (ih _ _ _)

theorem pieces_cons (b : UInt8) (rest : Bytes) :
    pieces (b :: rest) =
      Piece.first b rest :: pieces ((b :: rest).drop (Piece.first b rest).size) := by
  obtain ⟨size, sized⟩ := Nat.exists_eq_add_one_of_ne_zero
    (Nat.ne_of_gt (Piece.size_pos (Piece.first b rest)))
  have found : Piece.read 0 (b :: rest) = some (Piece.first b rest, size + 1) := by
    rw [Piece.read, sized]
  rw [pieces, tokens, Tokens.scan_some Piece.read found, sized, List.drop_succ_cons,
    scan_pieces_index _ 0]
  rfl

theorem units_eq (text : Bytes) : text.units = Piece.unitsOf text.pieces :=
  rfl

theorem ofPieces_append (left right : List Piece) :
    ofPieces (left ++ right) = ofPieces left ++ ofPieces right :=
  List.flatMap_append

theorem length_ofPieces_le {text : Bytes} {left right : List Piece}
    (split : text.pieces = left ++ right) : (ofPieces left).length ≤ text.length := by
  have whole := congrArg List.length (ofPieces_pieces text)
  rw [split, ofPieces_append, List.length_append] at whole
  omega

theorem ofPieces_ne_nil {pieces : List Piece} (filled : pieces ≠ []) : ofPieces pieces ≠ [] := by
  cases pieces with
  | nil => exact absurd rfl filled
  | cons piece rest =>
      intro empty
      have short := congrArg List.length empty
      change (piece.encode ++ ofPieces rest).length = 0 at short
      rw [List.length_append, Piece.length_encode] at short
      have positive := piece.size_pos
      omega

/-- The first pieces of a text are read from their own bytes alone. -/
theorem pieces_ofPieces_left {text : Bytes} {left right : List Piece}
    (split : text.pieces = left ++ right) : (ofPieces left).pieces = left := by
  induction left generalizing text with
  | nil => rfl
  | cons piece left ih =>
      cases text with
      | nil => cases split
      | cons b rest =>
          have whole := ofPieces_pieces (b :: rest)
          rw [split, ofPieces_append] at whole
          rw [pieces_cons] at split
          obtain ⟨head, below⟩ := List.cons.inj split
          have size : (ofPieces (piece :: left)).length = piece.size + (ofPieces left).length := by
            change (piece.encode ++ ofPieces left).length = _
            rw [List.length_append, Piece.length_encode]
          have rest_left : (ofPieces (piece :: left)).drop piece.size = ofPieces left := by
            change (piece.encode ++ ofPieces left).drop piece.size = _
            rw [← Piece.length_encode, List.drop_left]
          cases bytes : ofPieces (piece :: left) with
          | nil => exact absurd bytes (ofPieces_ne_nil (List.cons_ne_nil _ _))
          | cons a tail =>
              rw [bytes] at whole size rest_left
              obtain ⟨same, more⟩ := List.cons.inj whole
              have first : Piece.first a tail = piece := by
                rw [same, ← head]
                refine Piece.first_of_isPrefix ⟨_, more⟩ ?_
                rw [head, ← List.length_cons (a := a), size]
                exact Nat.le_add_right _ _
              rw [pieces_cons, first, rest_left, ih below]

/-- The text can be cut at `n` without cutting a character. -/
def IsBoundary (text : Bytes) (n : Nat) : Prop :=
  ∃ left right, text.pieces = left ++ right ∧ (ofPieces left).length = n

theorem isBoundary_zero (text : Bytes) : text.IsBoundary 0 :=
  ⟨[], text.pieces, rfl, rfl⟩

theorem isBoundary_length (text : Bytes) : text.IsBoundary text.length :=
  ⟨text.pieces, [], (List.append_nil _).symm, by rw [ofPieces_pieces]⟩

theorem pieces_take {text : Bytes} {left right : List Piece}
    (split : text.pieces = left ++ right) :
    pieces (text.take (ofPieces left).length) = left := by
  have whole := ofPieces_pieces text
  rw [split, ofPieces_append] at whole
  rw [← whole, List.take_left, pieces_ofPieces_left split]

/-- The next cut after one stands behind a whole piece. -/
theorem boundary_le_of_lt {text : Bytes} {left rest : List Piece} {piece : Piece} {n : Nat}
    (split : text.pieces = left ++ piece :: rest) (cut : text.IsBoundary n)
    (less : (ofPieces left).length < n) : (ofPieces (left ++ [piece])).length ≤ n := by
  obtain ⟨left', right', split', rfl⟩ := cut
  rcases List.append_eq_append_iff.mp (split.symm.trans split') with
    ⟨middle, longer, inner⟩ | ⟨middle, shorter, -⟩
  · cases middle with
    | nil =>
        rw [longer, List.append_nil] at less
        exact absurd less (Nat.lt_irrefl _)
    | cons other middle =>
        rw [longer, (List.cons.inj inner).1, ofPieces_append, ofPieces_append, List.length_append,
          List.length_append]
        change _ + (other.encode ++ []).length ≤ _ + (other.encode ++ ofPieces middle).length
        rw [List.append_nil, List.length_append]
        omega
  · rw [shorter, ofPieces_append, List.length_append] at less
    omega

/-- Between two cuts there is at least one unit. -/
theorem units_take_lt {text : Bytes} {m n : Nat} (first : text.IsBoundary m)
    (second : text.IsBoundary n) (less : m < n) : units (text.take m) < units (text.take n) := by
  obtain ⟨left, right, split, rfl⟩ := first
  obtain ⟨left', right', split', rfl⟩ := second
  rw [units_eq, units_eq, pieces_take split, pieces_take split']
  rcases List.append_eq_append_iff.mp (split.symm.trans split') with
    ⟨middle, longer, -⟩ | ⟨middle, shorter, -⟩
  · have filled : middle ≠ [] := by
      rintro rfl
      rw [longer, List.append_nil] at less
      exact Nat.lt_irrefl _ less
    rw [longer, Piece.unitsOf_append]
    exact Nat.lt_add_of_pos_right (Piece.unitsOf_pos filled)
  · rw [shorter, ofPieces_append, List.length_append] at less
    omega

/-- Units that reach into the piece after some pieces, and not past it, are fewer than those before
a cut exactly if the cut stands after these pieces. -/
theorem lt_units_take_iff {text : Bytes} {left right : List Piece} {n need : Nat}
    (split : text.pieces = left ++ right) (cut : text.IsBoundary n) (inside : n ≤ text.length)
    (below : Piece.unitsOf left ≤ need)
    (next : ∀ piece rest, right = piece :: rest → need < Piece.unitsOf left + piece.units) :
    need < units (text.take n) ↔ (ofPieces left).length < n := by
  have here : units (text.take (ofPieces left).length) = Piece.unitsOf left := by
    rw [units_eq, pieces_take split]
  constructor
  · intro less
    apply Nat.lt_of_not_le
    intro notAfter
    rcases Nat.lt_or_eq_of_le notAfter with before | equal
    · have fewer := units_take_lt cut ⟨left, right, split, rfl⟩ before
      omega
    · rw [equal] at less
      omega
  · intro after
    -- The next piece stands before the cut, and takes more units than were asked for.
    cases right with
    | nil =>
        have whole := congrArg List.length (ofPieces_pieces text)
        rw [split, List.append_nil] at whole
        omega
    | cons piece rest =>
        have bound := next piece rest rfl
        have split' : text.pieces = (left ++ [piece]) ++ rest := by
          rw [split, List.append_assoc]
          rfl
        have past : units (text.take (ofPieces (left ++ [piece])).length) =
            Piece.unitsOf left + piece.units := by
          rw [units_eq, pieces_take split', Piece.unitsOf_append]
          rfl
        rcases Nat.lt_or_eq_of_le (boundary_le_of_lt split cut after) with beyond | equal
        · have more := units_take_lt ⟨left ++ [piece], rest, split', rfl⟩ cut beyond
          omega
        · rw [← equal]
          omega

/-- An ASCII byte is a piece of its own, between the pieces of both sides. -/
theorem pieces_append_ascii {b : UInt8} (small : b < 0x80) (left right : Bytes) :
    (left ++ b :: right).pieces =
      left.pieces ++ Piece.scalar (Char.ofNat b.toNat) :: right.pieces := by
  induction left using WellFounded.induction (measure List.length).wf with
  | h left ih =>
      cases left with
      | nil =>
          have number : b.toNat < 0x80 := UInt8.lt_iff_toNat_lt.mp small
          have read : Piece.first b right = .scalar (Char.ofNat b.toNat) := by
            rw [Piece.first, Piece.scalar?_one number]
          have size : (Piece.scalar (Char.ofNat b.toNat)).size = 1 := by
            rw [← Piece.length_encode, Piece.encode, Piece.encode_one small]
            rfl
          rw [List.nil_append, pieces_cons, read, size, List.drop_succ_cons, List.drop_zero]
          rfl
      | cons a left =>
          have read := Piece.first_append_ascii small a left right
          have fits := Piece.size_first_le a left
          have smaller : ((a :: left).drop (Piece.first a left).size).length <
              (a :: left).length := by
            have positive := (Piece.first a left).size_pos
            rw [List.length_drop]
            omega
          rw [List.cons_append, pieces_cons, read, ← List.cons_append,
            List.drop_append_of_le_length fits, ih _ smaller, pieces_cons, List.cons_append]

theorem isBoundary_of_split {left right : Bytes}
    (split : (left ++ right).pieces = left.pieces ++ right.pieces) :
    (left ++ right).IsBoundary left.length :=
  ⟨left.pieces, right.pieces, split, by rw [ofPieces_pieces]⟩

theorem isBoundary_before_ascii {b : UInt8} (small : b < 0x80) (left right : Bytes) :
    (left ++ b :: right).IsBoundary left.length := by
  apply isBoundary_of_split
  have alone := pieces_append_ascii small [] right
  rw [pieces_append_ascii small left right]
  exact congrArg (left.pieces ++ ·) alone.symm

theorem isBoundary_after_ascii {b : UInt8} (small : b < 0x80) (left right : Bytes) :
    (left ++ b :: right).IsBoundary (left.length + 1) := by
  refine ⟨left.pieces ++ [.scalar (Char.ofNat b.toNat)], right.pieces, ?_, ?_⟩
  · rw [pieces_append_ascii small left right, List.append_assoc]
    rfl
  · rw [ofPieces_append, ofPieces_pieces, List.length_append]
    change left.length + (String.utf8EncodeChar _ ++ []).length = _
    rw [Piece.encode_one small]
    rfl

/-- The index stands at an end of the text or next to an ASCII byte. -/
def IsLoose (text : Bytes) (n : Nat) : Prop :=
  n = 0 ∨ n = text.length ∨ (∃ b, text[n]? = some b ∧ b < 0x80) ∨
    ∃ m b, n = m + 1 ∧ text[m]? = some b ∧ b < 0x80

theorem isBoundary_of_isLoose {text : Bytes} {n : Nat} (loose : text.IsLoose n) :
    text.IsBoundary n := by
  rcases loose with rfl | rfl | ⟨b, found, small⟩ | ⟨m, b, rfl, found, small⟩
  · exact isBoundary_zero text
  · exact isBoundary_length text
  · obtain ⟨inside, rfl⟩ := List.getElem?_eq_some_iff.mp found
    have cut := isBoundary_before_ascii small (text.take n) (text.drop (n + 1))
    rw [← List.drop_eq_getElem_cons inside, List.take_append_drop, List.length_take,
      Nat.min_eq_left (Nat.le_of_lt inside)] at cut
    exact cut
  · obtain ⟨inside, rfl⟩ := List.getElem?_eq_some_iff.mp found
    have cut := isBoundary_after_ascii small (text.take m) (text.drop (m + 1))
    rw [← List.drop_eq_getElem_cons inside, List.take_append_drop, List.length_take,
      Nat.min_eq_left (Nat.le_of_lt inside)] at cut
    exact cut

/-- An index of a part that itself lies between two such indexes of the whole. -/
theorem isLoose_of_slice {text : Bytes} {start stop n : Nat} (inside : stop ≤ text.length)
    (filled : start ≤ stop) (first : text.IsLoose start) (last : text.IsLoose stop)
    (loose : (text.slice start stop).IsLoose n) : text.IsLoose (start + n) := by
  rcases loose with rfl | rfl | ⟨b, found, small⟩ | ⟨m, b, rfl, found, small⟩
  · exact first
  · rw [length_slice _ inside, Nat.add_sub_cancel' filled]
    exact last
  · exact Or.inr (Or.inr (Or.inl ⟨b, getElem?_of_slice found, small⟩))
  · exact Or.inr (Or.inr (Or.inr ⟨start + m, b, by omega, getElem?_of_slice found, small⟩))

/-- An index of the whole that falls into a part, its ends included. -/
theorem isLoose_slice {text : Bytes} {start stop n : Nat} (inside : stop ≤ text.length)
    (low : start ≤ n) (high : n ≤ stop) (loose : text.IsLoose n) :
    (text.slice start stop).IsLoose (n - start) := by
  rcases Nat.eq_or_lt_of_le low with same | after
  · exact Or.inl (by omega)
  rcases Nat.eq_or_lt_of_le high with same | before
  · exact Or.inr (Or.inl (by rw [length_slice _ inside]; omega))
  rcases loose with rfl | rfl | ⟨b, found, small⟩ | ⟨m, b, rfl, found, small⟩
  · omega
  · omega
  · refine Or.inr (Or.inr (Or.inl ⟨b, ?_, small⟩))
    rw [getElem?_slice (by omega), ← found]
    congr 1
    omega
  · refine Or.inr (Or.inr (Or.inr ⟨m - start, b, by omega, ?_, small⟩))
    rw [getElem?_slice (by omega), ← found]
    congr 1
    omega

end Bytes

end Dockerfile
