import Dockerfile.Proofs.Document.Positions

/-!
# Positions to offsets and back

A position has an offset exactly if its line exists and is at least as wide as the position says.
From a proper offset, the way to its position and back leads to the offset itself.  From a position
with an offset, the way there and back leads to the position itself, or, if the position splits a
surrogate pair, to the one before the pair.
-/

namespace Dockerfile

namespace Bytes

/-- After the given number of UTF-16 units, the text is between the two units of a character. -/
def SplitsPair (text : Bytes) (units : Nat) : Prop :=
  ∃ left c right, text.pieces = left ++ Piece.scalar c :: right ∧ 0x10000 ≤ c.toNat ∧
    units = Piece.unitsOf left + 1

theorem not_splitsPair {text : Bytes} {left right : List Piece}
    (split : text.pieces = left ++ right) : ¬ text.SplitsPair (Piece.unitsOf left) := by
  rintro ⟨left', c, right', split', wide, same⟩
  rcases List.append_eq_append_iff.mp (split.symm.trans split') with
    ⟨middle, longer, -⟩ | ⟨middle, longer, inner⟩
  · rw [longer, Piece.unitsOf_append] at same
    omega
  · rw [longer, Piece.unitsOf_append] at same
    cases middle with
    | nil => exact absurd same (Nat.ne_of_lt (Nat.lt_succ_self _))
    | cons piece middle =>
        rw [List.cons_append] at inner
        obtain ⟨rfl, -⟩ := List.cons.inj inner
        have two : (Piece.scalar c).units = 2 := if_pos wide
        change Piece.unitsOf left' + ((Piece.scalar c).units + Piece.unitsOf middle) = _ at same
        omega

end Bytes

theorem Piece.exists_of_one_lt_units {piece : Piece} (wide : 1 < piece.units) :
    ∃ c, piece = .scalar c ∧ 0x10000 ≤ c.toNat ∧ piece.units = 2 := by
  cases piece with
  | stray b => exact absurd wide (Nat.lt_irrefl 1)
  | scalar c =>
      by_cases big : 0x10000 ≤ c.toNat
      · exact ⟨c, rfl, big, if_pos big⟩
      · have one : (Piece.scalar c).units = 1 := if_neg big
        rw [one] at wide
        exact absurd wide (Nat.lt_irrefl 1)

namespace Document

/-- The search for a number of units fails past the units of all pieces. -/
theorem le_unitsOf_of_bytesBefore {pieces : List Piece} {need size : Nat}
    (found : bytesBefore pieces need = some size) : need ≤ Piece.unitsOf pieces := by
  fun_induction bytesBefore pieces need generalizing size with
  | case1 pieces => exact Nat.zero_le _
  | case2 need => cases found
  | case3 piece rest need splits =>
      exact Nat.le_of_lt (Nat.lt_of_lt_of_le splits (Nat.le_add_right _ _))
  | case4 piece rest need fits ih =>
      obtain ⟨inner, taken, -⟩ := Option.map_eq_some_iff.mp found
      have below := ih taken
      change need + 1 ≤ piece.units + Piece.unitsOf rest
      omega

variable {doc : Document}

/-- A position has an offset exactly if its line reaches that far. -/
theorem isSome_offsetAt?_iff {p : Position} : (doc.offsetAt? p).isSome = true ↔
    ∃ line, doc.lines[p.line.toNat]? = some line ∧ p.character.toNat ≤ line.content.units := by
  constructor
  · intro found
    obtain ⟨offset, found⟩ := Option.isSome_iff_exists.mp found
    unfold offsetAt? at found
    split at found
    · rename_i line onLine
      obtain ⟨size, taken, -⟩ := Option.map_eq_some_iff.mp found
      exact ⟨line, onLine, le_unitsOf_of_bytesBefore taken⟩
    · cases found
  · rintro ⟨line, onLine, fits⟩
    obtain ⟨size, taken⟩ := exists_bytesBefore fits
    simp [offsetAt?, onLine, taken]

/-- A position with an offset stands at a cut of its line, or splits the pair after the cut. -/
theorem units_of_offsetAt? {p : Position} {offset : Nat} (found : doc.offsetAt? p = some offset) :
    ∃ line left right, doc.lines[p.line.toNat]? = some line ∧
      line.content.pieces = left ++ right ∧
      offset = line.start + (Bytes.ofPieces left).length ∧
      (p.character.toNat = Piece.unitsOf left ∨
        p.character.toNat = Piece.unitsOf left + 1 ∧
          line.content.SplitsPair p.character.toNat) := by
  obtain ⟨line, left, right, onLine, split, start, below, next⟩ := offsetAt?_eq_some found
  refine ⟨line, left, right, onLine, split, start, ?_⟩
  rcases Nat.eq_or_lt_of_le below with same | less
  · exact Or.inl same.symm
  · refine Or.inr ?_
    cases right with
    | nil =>
        -- Nothing is left to split, and the line has no more units.
        obtain ⟨_, onLine', fits⟩ := isSome_offsetAt?_iff.mp (Option.isSome_of_eq_some found)
        rw [← Option.some.inj (onLine.symm.trans onLine'), Bytes.units_eq, split,
          List.append_nil] at fits
        exact absurd less (Nat.not_lt.mpr fits)
    | cons piece rest =>
        have inside := next piece rest rfl
        obtain ⟨c, rfl, wide, two⟩ := Piece.exists_of_one_lt_units (show 1 < piece.units by omega)
        have one : p.character.toNat = Piece.unitsOf left + 1 := by omega
        exact ⟨one, left, c, rest, split, wide, one⟩

/-- The position of an offset that is found from a position: the position itself, or the one before
the pair that it splits. -/
theorem positionAt_of_offsetAt? {p : Position} {offset : Nat}
    (found : doc.offsetAt? p = some offset) :
    ∃ line, doc.lines[p.line.toNat]? = some line ∧ line.start ≤ offset ∧ offset ≤ line.stop ∧
      line.content.IsBoundary (offset - line.start) ∧
      (¬ line.content.SplitsPair p.character.toNat → doc.positionAt offset = p) ∧
      (line.content.SplitsPair p.character.toNat →
        doc.positionAt offset = ⟨p.line, p.character - 1⟩) := by
  obtain ⟨line, left, right, onLine, split, rfl, told⟩ := units_of_offsetAt? found
  have low : line.start ≤ line.start + (Bytes.ofPieces left).length := Nat.le_add_right _ _
  have high : line.start + (Bytes.ofPieces left).length ≤ line.stop :=
    Nat.add_le_add_left (Bytes.length_ofPieces_le split) _
  have position : doc.positionAt ↑(line.start + (Bytes.ofPieces left).length) =
      ⟨p.line, UInt32.ofNat (Piece.unitsOf left)⟩ := by
    rw [positionAt_eq onLine low high, Nat.add_sub_cancel_left, Bytes.units_eq,
      Bytes.pieces_take split, UInt32.ofNat_toNat]
  refine ⟨line, onLine, low, high, ⟨left, right, split, by rw [Nat.add_sub_cancel_left]⟩, ?_, ?_⟩
  · intro whole
    rcases told with same | ⟨-, splits⟩
    · rw [position, ← same, UInt32.ofNat_toNat]
    · exact absurd splits whole
  · intro splits
    rcases told with same | ⟨more, -⟩
    · rw [same] at splits
      exact absurd splits (Bytes.not_splitsPair split)
    · have one : (1 : UInt32) ≤ p.character := by
        rw [UInt32.le_iff_toNat_le, more]
        exact Nat.le_add_left 1 _
      have fewer : (p.character - 1).toNat = Piece.unitsOf left := by
        rw [UInt32.toNat_sub_of_le _ _ one, more]
        rfl
      rw [position, ← fewer, UInt32.ofNat_toNat]

/-- Positions and offsets are converted into each other without loss, except that a position between
the two units of a surrogate pair comes back as the one before the pair. -/
theorem conversions_inverse (doc : Document) (short : doc.text.length < 0x100000000) :
    (∀ p, (doc.offsetAt? p).isSome = true ↔
      ∃ line, doc.lines[p.line.toNat]? = some line ∧
        p.character.toNat ≤ line.content.units) ∧
      (∀ p offset, doc.offsetAt? p = some offset →
        ∃ line, doc.lines[p.line.toNat]? = some line ∧ line.start ≤ offset ∧ offset ≤ line.stop ∧
          line.content.IsBoundary (offset - line.start) ∧
          (¬ line.content.SplitsPair p.character.toNat → doc.positionAt offset = p) ∧
          (line.content.SplitsPair p.character.toNat →
            doc.positionAt offset = ⟨p.line, p.character - 1⟩)) ∧
      ∀ line ∈ doc.lines, ∀ offset, line.start ≤ offset → offset ≤ line.stop →
        line.content.IsBoundary (offset - line.start) →
          doc.offsetAt? (doc.positionAt offset) = some offset := by
  refine ⟨fun _ => isSome_offsetAt?_iff, fun _ _ => positionAt_of_offsetAt?, ?_⟩
  intro line member offset low high cut
  exact offsetAt?_positionAt short ⟨line, member, low, high, cut⟩

/-- A character of two units between stray bytes: a position inside it comes back as the one before
it, and the offset after it comes back as itself. -/
theorem conversions_inverse_pair :
    let doc := ofText (utf8 "u") ([0xff] ++ utf8 "😀" ++ [0xf0, 0x9f, Byte.lineFeed])
    doc.text.length < 0x100000000 ∧ (doc.offsetAt? ⟨0, 5⟩).isSome = true ∧
      doc.offsetAt? ⟨0, 2⟩ = some 1 ∧ doc.positionAt 1 = ⟨0, 1⟩ ∧
      doc.offsetAt? (doc.positionAt 5) = some 5 := by
  intro doc
  have short : doc.text.length < 0x100000000 := by decide
  have onLine : doc.lines[0]? = some ⟨0, 0, [0xff] ++ utf8 "😀" ++ [0xf0, 0x9f]⟩ := by
    decide +kernel
  have pieces : Bytes.pieces ([0xff] ++ utf8 "😀" ++ [0xf0, 0x9f]) =
      [.stray 0xff, .scalar '😀', .stray 0xf0, .stray 0x9f] := by decide +kernel
  have asked : doc.offsetAt? ⟨0, 2⟩ = some 1 := by decide +kernel
  obtain ⟨reached, there, back⟩ := conversions_inverse doc short
  refine ⟨short, (reached ⟨0, 5⟩).mpr ⟨_, onLine, by decide +kernel⟩, asked, ?_, ?_⟩
  · obtain ⟨line, onLine', -, -, -, -, splits⟩ := there _ _ asked
    cases Option.some.inj (onLine.symm.trans onLine')
    exact splits ⟨[.stray 0xff], '😀', [.stray 0xf0, .stray 0x9f], pieces, by decide, rfl⟩
  · refine back _ (List.mem_of_getElem? onLine) 5 (by decide) (by decide) ?_
    exact ⟨[.stray 0xff, .scalar '😀'], [.stray 0xf0, .stray 0x9f], pieces, by decide⟩

end Document

end Dockerfile
