import Dockerfile.Proofs.Document.Lines
import Dockerfile.Proofs.Text.Boundary

/-!
# Offsets and positions in order

An offset is proper if it lies on a line, its end included, and between two characters.  The order
of proper offsets is the order of their positions, also against a position that an editor asks
about: one between the two units of a surrogate pair counts as inside the character.  What ends a
line has the position of the end of its content.  Numbers of lines and units stay below 2^32
because the text does.
-/

namespace Dockerfile

theorem Position.before_iff {p q : Position} : p.before q = true ↔
    p.line.toNat < q.line.toNat ∨
      p.line.toNat = q.line.toNat ∧ p.character.toNat < q.character.toNat := by
  unfold Position.before
  by_cases same : p.line = q.line
  · rw [if_neg (not_not_intro same), decide_eq_true_iff, UInt32.lt_iff_toNat_lt, same]
    constructor
    · exact fun less => Or.inr ⟨rfl, less⟩
    · rintro (impossible | ⟨-, less⟩)
      · exact absurd impossible (Nat.lt_irrefl _)
      · exact less
  · rw [if_pos same, decide_eq_true_iff, UInt32.lt_iff_toNat_lt]
    constructor
    · exact Or.inl
    · rintro (less | ⟨equal, -⟩)
      · exact less
      · exact absurd (UInt32.toNat_inj.mp equal) same

namespace Piece

theorem units_le_size (piece : Piece) : piece.units ≤ piece.size := by
  cases piece with
  | stray b => exact Nat.le_refl _
  | scalar c =>
      change (if 0x10000 ≤ c.toNat then 2 else 1) ≤ c.utf8Size
      split
      · rename_i big
        have long : c.utf8Size = 4 := by
          have number : c.val.toNat = c.toNat := rfl
          unfold Char.utf8Size
          simp only [UInt32.le_iff_toNat_le, number, UInt32.toNat_ofNatLT]
          rw [if_neg (by omega), if_neg (by omega), if_neg (by omega)]
        rw [long]
        decide
      · exact c.utf8Size_pos

theorem unitsOf_le (pieces : List Piece) :
    unitsOf pieces ≤ (Bytes.ofPieces pieces).length := by
  induction pieces with
  | nil => exact Nat.le_refl _
  | cons piece rest ih =>
      change piece.units + unitsOf rest ≤ (piece.encode ++ Bytes.ofPieces rest).length
      rw [List.length_append, length_encode]
      exact Nat.add_le_add piece.units_le_size ih

end Piece

theorem Bytes.units_le_length (text : Bytes) : text.units ≤ text.length := by
  have bound := Piece.unitsOf_le text.pieces
  rwa [Bytes.ofPieces_pieces] at bound

namespace Document

/-- The search for a number of units stops between two pieces, and the next piece would exceed
the number. -/
theorem bytesBefore_eq_some {pieces : List Piece} {need size : Nat}
    (found : bytesBefore pieces need = some size) :
    ∃ left right, pieces = left ++ right ∧ size = (Bytes.ofPieces left).length ∧
      Piece.unitsOf left ≤ need ∧
      ∀ piece rest, right = piece :: rest → need < Piece.unitsOf left + piece.units := by
  fun_induction bytesBefore pieces need generalizing size with
  | case1 pieces =>
      refine ⟨[], pieces, rfl, (Option.some.inj found).symm, Nat.le_refl _, ?_⟩
      intro piece rest _
      exact Nat.lt_of_lt_of_le piece.units_pos (Nat.le_add_left _ _)
  | case2 need => cases found
  | case3 piece rest need splits =>
      refine ⟨[], piece :: rest, rfl, (Option.some.inj found).symm, Nat.zero_le _, ?_⟩
      intro other more same
      rw [← (List.cons.inj same).1]
      exact Nat.lt_of_lt_of_le splits (Nat.le_add_left _ _)
  | case4 piece rest need fits ih =>
      obtain ⟨inner, taken, rfl⟩ := Option.map_eq_some_iff.mp found
      obtain ⟨left, right, split, size, below, next⟩ := ih taken
      refine ⟨piece :: left, right, by rw [split, List.cons_append], ?_, ?_, ?_⟩
      · change _ = (piece.encode ++ Bytes.ofPieces left).length
        rw [List.length_append, Piece.length_encode, size]
      · change piece.units + Piece.unitsOf left ≤ need + 1
        omega
      · intro other more same
        have bound := next other more same
        change need + 1 < piece.units + Piece.unitsOf left + other.units
        omega

theorem bytesBefore_le {pieces : List Piece} {need size : Nat}
    (found : bytesBefore pieces need = some size) : size ≤ (Bytes.ofPieces pieces).length := by
  obtain ⟨left, right, rfl, rfl, -⟩ := bytesBefore_eq_some found
  rw [Bytes.ofPieces_append, List.length_append]
  exact Nat.le_add_right _ _

/-- The search for a number of units succeeds up to the units of all pieces. -/
theorem exists_bytesBefore {pieces : List Piece} {need : Nat}
    (enough : need ≤ Piece.unitsOf pieces) : ∃ size, bytesBefore pieces need = some size := by
  fun_induction bytesBefore pieces need with
  | case1 pieces => exact ⟨0, rfl⟩
  | case2 need => exact absurd enough (Nat.not_succ_le_zero need)
  | case3 piece rest need splits => exact ⟨0, rfl⟩
  | case4 piece rest need fits ih =>
      change need + 1 ≤ piece.units + Piece.unitsOf rest at enough
      obtain ⟨size, found⟩ := ih (by omega)
      exact ⟨piece.size + size, by rw [found, Option.map_some]⟩

/-- Asked for the units of the first pieces, the search finds the end of these pieces. -/
theorem bytesBefore_unitsOf (left right : List Piece) :
    bytesBefore (left ++ right) (Piece.unitsOf left) = some (Bytes.ofPieces left).length := by
  induction left with
  | nil => cases right <;> rfl
  | cons piece left ih =>
      have positive := piece.units_pos
      obtain ⟨need, units⟩ := Nat.exists_eq_add_one_of_ne_zero
        (show piece.units + Piece.unitsOf left ≠ 0 by omega)
      have rest : need + 1 - piece.units = Piece.unitsOf left := by omega
      change bytesBefore (piece :: (left ++ right)) (piece.units + Piece.unitsOf left) =
        some (piece.encode ++ Bytes.ofPieces left).length
      rw [units, bytesBefore, if_neg (by omega), rest, ih, Option.map_some, List.length_append,
        Piece.length_encode]

variable {doc : Document}

/-- The offset lies on a line, its end included, and between two characters. -/
def IsProper (doc : Document) (offset : Nat) : Prop :=
  ∃ line ∈ doc.lines, line.start ≤ offset ∧ offset ≤ line.stop ∧
    line.content.IsBoundary (offset - line.start)

theorem positionAt_eq {index offset : Nat} {line : Line} (found : doc.lines[index]? = some line)
    (low : line.start ≤ offset) (high : offset ≤ line.stop) :
    doc.positionAt offset = ⟨UInt32.ofNat index,
      UInt32.ofNat (Bytes.units (line.content.take (offset - line.start)))⟩ := by
  have inside := (standsIn_text (List.mem_of_getElem? found)).stop_le
  have clamped : min (offset : Int).toNat doc.text.length = offset := by
    rw [Int.toNat_natCast]
    omega
  unfold positionAt
  simp only [clamped, lineOf_eq found low high, found]

theorem toNat_line_positionAt {index offset : Nat} {line : Line}
    (short : doc.text.length < 0x100000000) (found : doc.lines[index]? = some line)
    (low : line.start ≤ offset) (high : offset ≤ line.stop) :
    (doc.positionAt offset).line.toNat = index := by
  obtain ⟨bound, -⟩ := List.getElem?_eq_some_iff.mp found
  have few := doc.length_lines_le
  rw [positionAt_eq found low high]
  exact UInt32.toNat_ofNat_of_lt (by rw [UInt32.size]; omega)

theorem toNat_character_positionAt {index offset : Nat} {line : Line}
    (short : doc.text.length < 0x100000000) (found : doc.lines[index]? = some line)
    (low : line.start ≤ offset) (high : offset ≤ line.stop) :
    (doc.positionAt offset).character.toNat =
      Bytes.units (line.content.take (offset - line.start)) := by
  have inside := (standsIn_text (List.mem_of_getElem? found)).stop_le
  have few := Bytes.units_le_length (line.content.take (offset - line.start))
  rw [List.length_take] at few
  rw [positionAt_eq found low high]
  refine UInt32.toNat_ofNat_of_lt ?_
  rw [UInt32.size]
  rw [Line.stop] at high inside
  omega

/-- The offset of a position: a cut of the line's content with at most the asked number of units
before it, and with more than that number once the next piece is taken. -/
theorem offsetAt?_eq_some {p : Position} {offset : Nat} (found : doc.offsetAt? p = some offset) :
    ∃ line left right, doc.lines[p.line.toNat]? = some line ∧
      line.content.pieces = left ++ right ∧
      offset = line.start + (Bytes.ofPieces left).length ∧
      Piece.unitsOf left ≤ p.character.toNat ∧
      ∀ piece rest, right = piece :: rest →
        p.character.toNat < Piece.unitsOf left + piece.units := by
  unfold offsetAt? at found
  split at found
  · rename_i line onLine
    obtain ⟨size, taken, rfl⟩ := Option.map_eq_some_iff.mp found
    obtain ⟨left, right, split, rfl, below, next⟩ := bytesBefore_eq_some taken
    exact ⟨line, left, right, onLine, split, rfl, below, next⟩
  · cases found

theorem lineOf_of_offsetAt? {p : Position} {offset : Nat}
    (found : doc.offsetAt? p = some offset) : doc.lineOf offset = p.line.toNat := by
  unfold offsetAt? at found
  split at found
  · rename_i line onLine
    obtain ⟨size, taken, rfl⟩ := Option.map_eq_some_iff.mp found
    have short := bytesBefore_le taken
    rw [Bytes.ofPieces_pieces] at short
    exact lineOf_eq onLine (Nat.le_add_right _ _) (Nat.add_le_add_left short _)
  · cases found

/-- A proper offset lies after the offset of a position exactly if its own position does. -/
theorem before_positionAt_iff {p : Position} {offset other : Nat}
    (short : doc.text.length < 0x100000000) (found : doc.offsetAt? p = some offset)
    (proper : doc.IsProper other) :
    p.before (doc.positionAt other) = true ↔ offset < other := by
  obtain ⟨line, left, right, onLine, split, rfl, below, next⟩ := offsetAt?_eq_some found
  obtain ⟨line', member, low, high, cut⟩ := proper
  obtain ⟨index, onLine'⟩ := List.mem_iff_getElem?.mp member
  have inside := Bytes.length_ofPieces_le split
  rw [Position.before_iff, toNat_line_positionAt short onLine' low high,
    toNat_character_positionAt short onLine' low high]
  rcases Nat.lt_trichotomy p.line.toNat index with less | same | greater
  · have apart := stop_lt_start onLine onLine' less
    rw [Line.stop] at apart
    constructor
    · exact fun _ => by omega
    · exact fun _ => Or.inl less
  · rw [← same, onLine] at onLine'
    cases Option.some.inj onLine'
    rw [Line.stop] at high
    have inside : other - line.start ≤ line.content.length := by omega
    have counted := Bytes.lt_units_take_iff split cut inside below next
    constructor
    · rintro (impossible | ⟨-, less⟩)
      · exact absurd (same ▸ impossible) (Nat.lt_irrefl _)
      · have after := counted.mp less
        omega
    · intro after
      exact Or.inr ⟨same, counted.mpr (by omega)⟩
  · have apart := stop_lt_start onLine' onLine greater
    constructor
    · rintro (less | ⟨equal, -⟩)
      · exact absurd less (Nat.lt_asymm greater)
      · exact absurd equal (Nat.ne_of_gt greater)
    · intro after
      omega

theorem positionAt_before {p : Position} {offset other : Nat}
    (short : doc.text.length < 0x100000000) (found : doc.offsetAt? p = some offset)
    (proper : doc.IsProper other) (less : other < offset) :
    (doc.positionAt other).before p = true := by
  obtain ⟨line, left, right, onLine, split, rfl, below, -⟩ := offsetAt?_eq_some found
  obtain ⟨line', member, low, high, cut⟩ := proper
  obtain ⟨index, onLine'⟩ := List.mem_iff_getElem?.mp member
  have inside := Bytes.length_ofPieces_le split
  rw [Position.before_iff, toNat_line_positionAt short onLine' low high,
    toNat_character_positionAt short onLine' low high]
  rcases Nat.lt_trichotomy index p.line.toNat with earlier | same | later
  · exact Or.inl earlier
  · rw [same, onLine] at onLine'
    cases Option.some.inj onLine'
    have fewer := Bytes.units_take_lt cut ⟨left, right, split, rfl⟩
      (show other - line.start < (Bytes.ofPieces left).length by omega)
    rw [Bytes.units_eq (List.take (Bytes.ofPieces left).length _), Bytes.pieces_take split] at fewer
    exact Or.inr ⟨same, Nat.lt_of_lt_of_le fewer below⟩
  · have apart := stop_lt_start onLine onLine' later
    rw [Line.stop] at apart
    omega

/-- A position lies in the range of a span with proper ends exactly if its offset lies in the
span. -/
theorem contains_rangeOf {p : Position} {offset start stop : Nat}
    (short : doc.text.length < 0x100000000) (found : doc.offsetAt? p = some offset)
    (first : doc.IsProper start) (last : doc.IsProper stop) :
    (doc.rangeOf ⟨start, stop⟩).contains p = true ↔ start ≤ offset ∧ offset < stop := by
  have low := before_positionAt_iff short found first
  have high := before_positionAt_iff short found last
  rw [Range.contains, Bool.and_eq_true, Bool.not_eq_true', ← Bool.not_eq_true]
  change ¬ p.before (doc.positionAt start) = true ∧ p.before (doc.positionAt stop) = true ↔ _
  rw [low, high, Nat.not_lt]

/-- A proper offset is found again from its position. -/
theorem offsetAt?_positionAt {offset : Nat} (short : doc.text.length < 0x100000000)
    (proper : doc.IsProper offset) : doc.offsetAt? (doc.positionAt offset) = some offset := by
  obtain ⟨line, member, low, high, left, right, split, size⟩ := proper
  obtain ⟨index, found⟩ := List.mem_iff_getElem?.mp member
  have units : Bytes.units (line.content.take (offset - line.start)) = Piece.unitsOf left := by
    rw [← size, Bytes.units_eq, Bytes.pieces_take split]
  rw [offsetAt?, toNat_line_positionAt short found low high, found]
  dsimp only
  rw [toNat_character_positionAt short found low high, units, split, bytesBefore_unitsOf,
    Option.map_some, size]
  congr 1
  omega

/-- A position in the range of a span that lies on one line has an offset. -/
theorem exists_offsetAt?_of_contains {p : Position} {start stop : Nat}
    (short : doc.text.length < 0x100000000) (first : doc.IsProper start)
    (last : doc.IsProper stop) (together : doc.lineOf start = doc.lineOf stop)
    (contains : (doc.rangeOf ⟨start, stop⟩).contains p = true) :
    ∃ offset, doc.offsetAt? p = some offset := by
  obtain ⟨line, member, low, high, -⟩ := first
  obtain ⟨line', member', low', high', left, right, split, size⟩ := last
  obtain ⟨index, found⟩ := List.mem_iff_getElem?.mp member
  obtain ⟨index', found'⟩ := List.mem_iff_getElem?.mp member'
  rw [lineOf_eq found low high, lineOf_eq found' low' high'] at together
  have units : Bytes.units (line'.content.take (stop - line'.start)) = Piece.unitsOf left := by
    rw [← size, Bytes.units_eq, Bytes.pieces_take split]
  rw [Range.contains, Bool.and_eq_true, Bool.not_eq_true', ← Bool.not_eq_true] at contains
  change ¬ p.before (doc.positionAt start) = true ∧
    p.before (doc.positionAt stop) = true at contains
  rw [Position.before_iff, Position.before_iff, toNat_line_positionAt short found low high,
    toNat_line_positionAt short found' low' high',
    toNat_character_positionAt short found' low' high', units] at contains
  have onLine : p.line.toNat = index' := by omega
  have enough : p.character.toNat ≤ Piece.unitsOf line'.content.pieces := by
    rw [split, Piece.unitsOf_append]
    omega
  obtain ⟨bytes, taken⟩ := exists_bytesBefore enough
  refine ⟨line'.start + bytes, ?_⟩
  rw [offsetAt?, onLine, found']
  dsimp only
  rw [taken, Option.map_some]

theorem positionAt_before_iff {m n : Nat} (short : doc.text.length < 0x100000000)
    (first : doc.IsProper m) (second : doc.IsProper n) :
    (doc.positionAt m).before (doc.positionAt n) = true ↔ m < n :=
  before_positionAt_iff short (offsetAt?_positionAt short first) second

theorem contains_rangeOf_positionAt {start stop offset : Nat}
    (short : doc.text.length < 0x100000000) (first : doc.IsProper start)
    (last : doc.IsProper stop) (proper : doc.IsProper offset) :
    (doc.rangeOf ⟨start, stop⟩).contains (doc.positionAt offset) =
      (Span.mk start stop).contains offset := by
  have inside := contains_rangeOf short (offsetAt?_positionAt short proper) first last
  rw [Bool.eq_iff_iff, inside, Span.contains]
  simp

/-- What follows the content of a line, up to the next line, has the position of the line's end. -/
theorem positionAt_of_stop_le {index offset : Nat} {line : Line}
    (found : doc.lines[index]? = some line) (past : line.stop ≤ offset)
    (before : ∀ next, doc.lines[index + 1]? = some next → offset < next.start) :
    doc.positionAt offset = doc.positionAt line.stop := by
  have inside := (standsIn_text (List.mem_of_getElem? found)).stop_le
  have order : line.start ≤ line.stop := Nat.le_add_right _ _
  have clamped : min (offset : Int).toNat doc.text.length = min offset doc.text.length := rfl
  have number : doc.lineOf (min offset doc.text.length : Nat) = index := by
    apply lineOf_eq_of_lt found
    · omega
    · intro next there
      exact Nat.lt_of_le_of_lt (Nat.min_le_left _ _) (before next there)
  have whole : line.content.take (min offset doc.text.length - line.start) = line.content := by
    apply List.take_of_length_le
    rw [Line.stop] at past inside
    omega
  rw [positionAt_eq found order (Nat.le_refl _)]
  unfold positionAt
  simp only [clamped, number, found, whole, Line.stop, Nat.add_sub_cancel_left, List.take_length]

/-- The order of positions mirrors that of offsets: proper offsets and their positions come in the
same order, so a range holds the positions of the proper offsets in its span and no others, and
what stands between the contents of two lines has the position of the end of the first. -/
theorem positions_in_order (doc : Document) (short : doc.text.length < 0x100000000) :
    (∀ m n : Nat, doc.IsProper m → doc.IsProper n →
      (m < n ↔ (doc.positionAt m).before (doc.positionAt n) = true)) ∧
    (∀ start stop offset : Nat, doc.IsProper start → doc.IsProper stop → doc.IsProper offset →
      (doc.rangeOf ⟨start, stop⟩).contains (doc.positionAt offset) =
        (Span.mk start stop).contains offset) ∧
    ∀ number span, doc.lineSpan? number = some span → ∀ offset, span.stop < offset →
      (∀ next, doc.lineSpan? (number + 1) = some next → offset < next.start) →
        doc.positionAt offset = doc.positionAt span.stop := by
  refine ⟨?_, ?_, ?_⟩
  · intro m n first second
    exact (positionAt_before_iff short first second).symm
  · intro start stop offset first last proper
    exact contains_rangeOf_positionAt short first last proper
  · intro number span spanned offset past before
    obtain ⟨index, line, rfl, found, rfl⟩ := lineSpan?_eq_some_iff.mp spanned
    change (line.stop : Int) < offset at past
    obtain ⟨n, rfl⟩ := Int.eq_ofNat_of_zero_le (show 0 ≤ offset by omega)
    refine positionAt_of_stop_le found (by omega) ?_
    intro next there
    exact Int.ofNat_lt.mp (before next.span (lineSpan?_eq_some_iff.mpr ⟨_, next, rfl, there, rfl⟩))

/-- A stray byte, a character of two units and a two-byte terminator: the range of the character
holds its first position and not the next one, and the line feed has the position of the line's
end. -/
theorem positions_in_order_pair :
    let doc := ofText (utf8 "u") ([0xff] ++ utf8 "😀\r\nb")
    (doc.positionAt 1).before (doc.positionAt 5) = true ∧
      (doc.positionAt 5).before (doc.positionAt 7) = true ∧
      (doc.rangeOf ⟨1, 5⟩).contains (doc.positionAt 1) = true ∧
      (doc.rangeOf ⟨1, 5⟩).contains (doc.positionAt 5) = false ∧
      doc.positionAt 6 = doc.positionAt 5 := by
  intro doc
  have first : doc.lines[0]? = some ⟨0, 0, [0xff] ++ utf8 "😀"⟩ := by decide +kernel
  have second : doc.lines[1]? = some ⟨1, 7, utf8 "b"⟩ := by decide +kernel
  have pieces : Bytes.pieces ([0xff] ++ utf8 "😀") = [.stray 0xff, .scalar '😀'] := by
    decide +kernel
  have proper : doc.IsProper 1 ∧ doc.IsProper 5 ∧ doc.IsProper 7 := by
    refine ⟨⟨_, List.mem_of_getElem? first, by decide, by decide, [.stray 0xff], [.scalar '😀'],
      pieces, by decide⟩, ⟨_, List.mem_of_getElem? first, by decide, by decide,
      Bytes.isBoundary_length _⟩, ⟨_, List.mem_of_getElem? second, by decide, by decide,
      Bytes.isBoundary_zero _⟩⟩
  obtain ⟨order, ranges, ends⟩ := positions_in_order doc (by decide)
  refine ⟨(order 1 5 proper.1 proper.2.1).mp (by decide),
    (order 5 7 proper.2.1 proper.2.2).mp (by decide),
    ranges 1 5 1 proper.1 proper.2.1 proper.1, ranges 1 5 5 proper.1 proper.2.1 proper.2.1, ?_⟩
  refine ends 0 ⟨0, 5⟩ (by decide +kernel) 6 (by decide) ?_
  intro next there
  have place : doc.lineSpan? 1 = some ⟨7, 8⟩ := by decide +kernel
  obtain rfl := Option.some.inj (place.symm.trans there)
  decide

end Document

end Dockerfile
