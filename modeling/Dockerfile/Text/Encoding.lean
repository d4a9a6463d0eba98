import Dockerfile.Text.Piece

/-!
# UTF-8 sequences and the characters they write

A sequence is read as a character exactly if it is what that character is written as.  So the
pieces of a text write it back, and a text that was written from characters is read as those
characters.
-/

namespace Dockerfile

namespace Piece

theorem within_iff {low high b : UInt8} :
    within low high b = true ↔ low.toNat ≤ b.toNat ∧ b.toNat ≤ high.toNat := by
  simp [within, UInt8.le_iff_toNat_le]

theorem not_within {low high b : UInt8} (outside : b.toNat < low.toNat ∨ high.toNat < b.toNat) :
    ¬ within low high b = true := by
  rw [within_iff]
  omega

theorem not_lt_of_within {low high b : UInt8} (lead : within low high b = true)
    (past : 0x80 ≤ low.toNat) : ¬ b < 0x80 := by
  have bounds := within_iff.mp lead
  rw [UInt8.lt_iff_toNat_lt]
  exact Nat.not_lt.mpr (Nat.le_trans past bounds.1)

theorem val_ofNat {n : Nat} (valid : n.isValidChar) : (Char.ofNat n).val.toNat = n := by
  rw [Char.ofNat, dif_pos valid]
  rfl

theorem ofNat_eq {n : Nat} {b : UInt8} (same : n = b.toNat) : UInt8.ofNat n = b := by
  rw [same, UInt8.ofNat_toNat]

theorem toNat_ofNat {n : Nat} (small : n < 256) : (UInt8.ofNat n).toNat = n := by
  rw [UInt8.toNat_ofNat']
  exact Nat.mod_eq_of_lt small

theorem encode_one {b : UInt8} (small : b < 0x80) :
    String.utf8EncodeChar (Char.ofNat b.toNat) = [b] := by
  have bound : b.toNat < 0x80 := UInt8.lt_iff_toNat_lt.mp small
  have value : (Char.ofNat b.toNat).val.toNat = b.toNat := val_ofNat (Or.inl (by omega))
  rw [String.utf8EncodeChar, value, if_pos (by omega), UInt8.ofNat_toNat]

theorem encode_two {b b1 : UInt8} (lead : within 0xc2 0xdf b = true) (tail : isTail b1 = true) :
    String.utf8EncodeChar (Char.ofNat (assemble (b.toNat - 0xc0) [b1])) = [b, b1] := by
  obtain ⟨low, high⟩ := within_iff.mp lead
  obtain ⟨low1, high1⟩ := within_iff.mp tail
  change 0xc2 ≤ b.toNat at low
  change b.toNat ≤ 0xdf at high
  change 0x80 ≤ b1.toNat at low1
  change b1.toNat ≤ 0xbf at high1
  change String.utf8EncodeChar (Char.ofNat ((b.toNat - 0xc0) * 0x40 + (b1.toNat - 0x80))) = _
  have value := val_ofNat (n := (b.toNat - 0xc0) * 0x40 + (b1.toNat - 0x80)) (Or.inl (by omega))
  rw [String.utf8EncodeChar, value, if_neg (by omega), if_pos (by omega)]
  rw [ofNat_eq (b := b) (by omega), ofNat_eq (b := b1) (by omega)]

/-- The second byte keeps a sequence of three or four within its bounds. -/
theorem secondBounds_spec {b b1 : UInt8}
    (second : within (secondBounds b).1 (secondBounds b).2 b1 = true) :
    0x80 ≤ b1.toNat ∧ b1.toNat ≤ 0xbf ∧
      (b.toNat = 0xe0 → 0xa0 ≤ b1.toNat) ∧ (b.toNat = 0xed → b1.toNat ≤ 0x9f) ∧
      (b.toNat = 0xf0 → 0x90 ≤ b1.toNat) ∧ (b.toNat = 0xf4 → b1.toNat ≤ 0x8f) := by
  have bounds := within_iff.mp second
  have number (n : UInt8) : (b == n) = true ↔ b.toNat = n.toNat := by
    rw [beq_iff_eq, UInt8.toNat_inj]
  unfold secondBounds at bounds
  simp only [number] at bounds
  repeat' split at bounds
  all_goals
    simp only [UInt8.reduceToNat] at *
    omega

theorem encode_three {b b1 b2 : UInt8} (lead : within 0xe0 0xef b = true)
    (second : within (secondBounds b).1 (secondBounds b).2 b1 = true) (tail : isTail b2 = true) :
    String.utf8EncodeChar (Char.ofNat (assemble (b.toNat - 0xe0) [b1, b2])) = [b, b1, b2] := by
  obtain ⟨low, high⟩ := within_iff.mp lead
  obtain ⟨low1, high1, past, below, -, -⟩ := secondBounds_spec second
  obtain ⟨low2, high2⟩ := within_iff.mp tail
  simp only [UInt8.reduceToNat] at low high low2 high2
  change String.utf8EncodeChar (Char.ofNat
    (((b.toNat - 0xe0) * 0x40 + (b1.toNat - 0x80)) * 0x40 + (b2.toNat - 0x80))) = _
  have valid : Nat.isValidChar
      (((b.toNat - 0xe0) * 0x40 + (b1.toNat - 0x80)) * 0x40 + (b2.toNat - 0x80)) := by
    unfold Nat.isValidChar
    omega
  rw [String.utf8EncodeChar, val_ofNat valid, if_neg (by omega), if_neg (by omega),
    if_pos (by omega), ofNat_eq (b := b) (by omega), ofNat_eq (b := b1) (by omega),
    ofNat_eq (b := b2) (by omega)]

theorem encode_four {b b1 b2 b3 : UInt8} (lead : within 0xf0 0xf4 b = true)
    (second : within (secondBounds b).1 (secondBounds b).2 b1 = true) (tail : isTail b2 = true)
    (tail' : isTail b3 = true) :
    String.utf8EncodeChar (Char.ofNat (assemble (b.toNat - 0xf0) [b1, b2, b3])) =
      [b, b1, b2, b3] := by
  obtain ⟨low, high⟩ := within_iff.mp lead
  obtain ⟨low1, high1, -, -, past, below⟩ := secondBounds_spec second
  obtain ⟨low2, high2⟩ := within_iff.mp tail
  obtain ⟨low3, high3⟩ := within_iff.mp tail'
  simp only [UInt8.reduceToNat] at low high low2 high2 low3 high3
  change String.utf8EncodeChar (Char.ofNat
    ((((b.toNat - 0xf0) * 0x40 + (b1.toNat - 0x80)) * 0x40 + (b2.toNat - 0x80)) * 0x40 +
      (b3.toNat - 0x80))) = _
  have valid : Nat.isValidChar
      ((((b.toNat - 0xf0) * 0x40 + (b1.toNat - 0x80)) * 0x40 + (b2.toNat - 0x80)) * 0x40 +
        (b3.toNat - 0x80)) := by
    unfold Nat.isValidChar
    omega
  rw [String.utf8EncodeChar, val_ofNat valid, if_neg (by omega), if_neg (by omega),
    if_neg (by omega), ofNat_eq (b := b) (by omega), ofNat_eq (b := b1) (by omega),
    ofNat_eq (b := b2) (by omega), ofNat_eq (b := b3) (by omega)]

theorem scalar?_sound {b : UInt8} {rest : Bytes} {c : Char} (found : scalar? b rest = some c) :
    String.utf8EncodeChar c <+: b :: rest := by
  unfold scalar? at found
  split at found
  · rename_i small
    rw [← Option.some.inj found, encode_one small]
    exact ⟨rest, rfl⟩
  split at found
  · rename_i lead
    split at found
    · rename_i b1 tail
      split at found
      · rename_i inside
        rw [← Option.some.inj found, encode_two lead inside]
        exact ⟨tail, rfl⟩
      · cases found
    · cases found
  split at found
  · rename_i lead
    split at found
    · rename_i b1 b2 tail
      split at found
      · rename_i inside
        have both := Bool.and_eq_true_iff.mp inside
        rw [← Option.some.inj found, encode_three lead both.1 both.2]
        exact ⟨tail, rfl⟩
      · cases found
    · cases found
  split at found
  · rename_i lead
    split at found
    · rename_i b1 b2 b3 tail
      split at found
      · rename_i inside
        have outer := Bool.and_eq_true_iff.mp inside
        have inner := Bool.and_eq_true_iff.mp outer.1
        rw [← Option.some.inj found, encode_four lead inner.1 inner.2 outer.2]
        exact ⟨tail, rfl⟩
      · cases found
    · cases found
  · cases found

theorem encode_first (b : UInt8) (rest : Bytes) : (first b rest).encode <+: b :: rest := by
  unfold first
  split
  · rename_i c found
    exact scalar?_sound found
  · exact ⟨rest, rfl⟩

theorem within_secondBounds {b b1 : UInt8} (tail : 0x80 ≤ b1.toNat ∧ b1.toNat ≤ 0xbf)
    (long : b.toNat = 0xe0 → 0xa0 ≤ b1.toNat) (plain : b.toNat = 0xed → b1.toNat ≤ 0x9f)
    (long' : b.toNat = 0xf0 → 0x90 ≤ b1.toNat) (last : b.toNat = 0xf4 → b1.toNat ≤ 0x8f) :
    within (secondBounds b).1 (secondBounds b).2 b1 = true := by
  have number (n : UInt8) : (b == n) = true ↔ b.toNat = n.toNat := by
    rw [beq_iff_eq, UInt8.toNat_inj]
  rw [within_iff]
  unfold secondBounds
  simp only [number]
  repeat' split
  all_goals
    simp only [UInt8.reduceToNat] at *
    omega

theorem scalar?_one {b : UInt8} (small : b.toNat < 0x80) (rest : Bytes) :
    scalar? b rest = some (Char.ofNat b.toNat) := by
  unfold scalar?
  exact if_pos (UInt8.lt_iff_toNat_lt.mpr small)

theorem scalar?_two {b b1 : UInt8} (lead : within 0xc2 0xdf b = true) (tail : isTail b1 = true)
    (rest : Bytes) :
    scalar? b (b1 :: rest) = some (Char.ofNat (assemble (b.toNat - 0xc0) [b1])) := by
  rw [scalar?, if_neg (not_lt_of_within lead (by decide)), if_pos lead]
  exact if_pos tail

theorem scalar?_three {b b1 b2 : UInt8} (lead : within 0xe0 0xef b = true)
    (second : within (secondBounds b).1 (secondBounds b).2 b1 = true) (tail : isTail b2 = true)
    (rest : Bytes) :
    scalar? b (b1 :: b2 :: rest) = some (Char.ofNat (assemble (b.toNat - 0xe0) [b1, b2])) := by
  have bounds := within_iff.mp lead
  rw [scalar?, if_neg (not_lt_of_within lead (by decide)),
    if_neg (not_within (Or.inr (Nat.lt_of_lt_of_le (by decide) bounds.1))), if_pos lead]
  exact if_pos (Bool.and_eq_true_iff.mpr ⟨second, tail⟩)

theorem scalar?_four {b b1 b2 b3 : UInt8} (lead : within 0xf0 0xf4 b = true)
    (second : within (secondBounds b).1 (secondBounds b).2 b1 = true) (tail : isTail b2 = true)
    (tail' : isTail b3 = true) (rest : Bytes) :
    scalar? b (b1 :: b2 :: b3 :: rest) =
      some (Char.ofNat (assemble (b.toNat - 0xf0) [b1, b2, b3])) := by
  have bounds := within_iff.mp lead
  rw [scalar?, if_neg (not_lt_of_within lead (by decide)),
    if_neg (not_within (Or.inr (Nat.lt_of_lt_of_le (by decide) bounds.1))),
    if_neg (not_within (Or.inr (Nat.lt_of_lt_of_le (by decide) bounds.1))), if_pos lead]
  exact if_pos (Bool.and_eq_true_iff.mpr ⟨Bool.and_eq_true_iff.mpr ⟨second, tail⟩, tail'⟩)

theorem isTail_ofNat (n : Nat) : isTail (UInt8.ofNat (n % 64 + 128)) = true := by
  have small := Nat.mod_lt n (by decide : 0 < 64)
  rw [isTail, within_iff, toNat_ofNat (by omega)]
  simp only [UInt8.reduceToNat]
  omega

/-- The sequence of a character is read as that character, whatever follows. -/
theorem scalar?_encode (c : Char) (rest : Bytes) {b : UInt8} {tail : Bytes}
    (encoded : String.utf8EncodeChar c = b :: tail) : scalar? b (tail ++ rest) = some c := by
  have valid : c.toNat < 0xd800 ∨ (0xdfff < c.toNat ∧ c.toNat < 0x110000) := c.valid
  have back : Char.ofNat c.toNat = c := Char.ofNat_toNat c
  change (if c.toNat ≤ 127 then [UInt8.ofNat c.toNat]
    else if c.toNat ≤ 2047 then
      [UInt8.ofNat (c.toNat / 64 % 32 + 192), UInt8.ofNat (c.toNat % 64 + 128)]
    else if c.toNat ≤ 65535 then
      [UInt8.ofNat (c.toNat / 4096 % 16 + 224), UInt8.ofNat (c.toNat / 64 % 64 + 128),
        UInt8.ofNat (c.toNat % 64 + 128)]
    else
      [UInt8.ofNat (c.toNat / 262144 % 8 + 240), UInt8.ofNat (c.toNat / 4096 % 64 + 128),
        UInt8.ofNat (c.toNat / 64 % 64 + 128), UInt8.ofNat (c.toNat % 64 + 128)]) = _ at encoded
  generalize c.toNat = n at *
  subst back
  split at encoded
  · obtain ⟨head, more⟩ := List.cons.inj encoded
    have number : b.toNat = n := by rw [← head]; exact toNat_ofNat (by omega)
    rw [scalar?_one (by omega), number]
  split at encoded
  · obtain ⟨head, more⟩ := List.cons.inj encoded
    have number : b.toNat = n / 64 % 32 + 192 := by rw [← head]; exact toNat_ofNat (by omega)
    have number1 : (UInt8.ofNat (n % 64 + 128)).toNat = n % 64 + 128 := toNat_ofNat (by omega)
    have value : assemble (b.toNat - 0xc0) [UInt8.ofNat (n % 64 + 128)] = n := by
      simp only [assemble, List.foldl_cons, List.foldl_nil, number, number1]
      omega
    rw [← more]
    change scalar? b (_ :: rest) = _
    rw [scalar?_two (within_iff.mpr (by simp only [UInt8.reduceToNat]; omega)) (isTail_ofNat n),
      value]
  split at encoded
  · obtain ⟨head, more⟩ := List.cons.inj encoded
    have number : b.toNat = n / 4096 % 16 + 224 := by rw [← head]; exact toNat_ofNat (by omega)
    have number1 : (UInt8.ofNat (n / 64 % 64 + 128)).toNat = n / 64 % 64 + 128 :=
      toNat_ofNat (by omega)
    have number2 : (UInt8.ofNat (n % 64 + 128)).toNat = n % 64 + 128 := toNat_ofNat (by omega)
    have value : assemble (b.toNat - 0xe0)
        [UInt8.ofNat (n / 64 % 64 + 128), UInt8.ofNat (n % 64 + 128)] = n := by
      simp only [assemble, List.foldl_cons, List.foldl_nil, number, number1, number2]
      omega
    rw [← more]
    change scalar? b (_ :: _ :: rest) = _
    rw [scalar?_three (within_iff.mpr (by simp only [UInt8.reduceToNat]; omega))
      (within_secondBounds (by omega) (by omega) (by omega) (by omega) (by omega))
      (isTail_ofNat n), value]
  · obtain ⟨head, more⟩ := List.cons.inj encoded
    have number : b.toNat = n / 262144 % 8 + 240 := by rw [← head]; exact toNat_ofNat (by omega)
    have number1 : (UInt8.ofNat (n / 4096 % 64 + 128)).toNat = n / 4096 % 64 + 128 :=
      toNat_ofNat (by omega)
    have number2 : (UInt8.ofNat (n / 64 % 64 + 128)).toNat = n / 64 % 64 + 128 :=
      toNat_ofNat (by omega)
    have number3 : (UInt8.ofNat (n % 64 + 128)).toNat = n % 64 + 128 := toNat_ofNat (by omega)
    have value : assemble (b.toNat - 0xf0) [UInt8.ofNat (n / 4096 % 64 + 128),
        UInt8.ofNat (n / 64 % 64 + 128), UInt8.ofNat (n % 64 + 128)] = n := by
      simp only [assemble, List.foldl_cons, List.foldl_nil, number, number1, number2, number3]
      omega
    rw [← more]
    change scalar? b (_ :: _ :: _ :: rest) = _
    rw [scalar?_four (within_iff.mpr (by simp only [UInt8.reduceToNat]; omega))
      (within_secondBounds (by omega) (by omega) (by omega) (by omega) (by omega))
      (isTail_ofNat (n / 64)) (isTail_ofNat n), value]

end Piece

namespace Bytes

theorem ofPieces_scan (index : Nat) (text : Bytes) :
    ofPieces (Tokens.scan Piece.read index 0 text) = text := by
  induction text using WellFounded.induction (measure List.length).wf generalizing index with
  | h text ih =>
      cases text with
      | nil => rfl
      | cons b rest =>
          obtain ⟨size, sized⟩ := Nat.exists_eq_add_one_of_ne_zero
            (Nat.ne_of_gt (Piece.size_pos (Piece.first b rest)))
          have found : Piece.read index (b :: rest) = some (Piece.first b rest, size + 1) := by
            rw [Piece.read, sized]
          have smaller : (rest.drop size).length < (b :: rest).length :=
            Nat.lt_succ_of_le (List.length_drop ▸ Nat.sub_le _ _)
          obtain ⟨tail, split⟩ := Piece.encode_first b rest
          rw [Tokens.scan_some Piece.read found]
          change (Piece.first b rest).encode ++ ofPieces _ = _
          rw [ih _ smaller, ← List.drop_succ_cons (a := b), ← split, ← sized,
            ← Piece.length_encode, List.drop_left]

/-- The pieces of a text write it back. -/
theorem ofPieces_pieces (text : Bytes) : ofPieces text.pieces = text :=
  ofPieces_scan 0 text

theorem scan_ofChars (index : Nat) (chars : List Char) :
    Tokens.scan Piece.read index 0 (ofChars chars) = chars.map Piece.scalar := by
  induction chars generalizing index with
  | nil => rfl
  | cons c chars ih =>
      cases encoded : String.utf8EncodeChar c with
      | nil => exact absurd encoded String.utf8EncodeChar_ne_nil
      | cons b tail =>
          have whole : ofChars (c :: chars) = b :: (tail ++ ofChars chars) := by
            change String.utf8EncodeChar c ++ ofChars chars = _
            rw [encoded]
            rfl
          have size : c.utf8Size = tail.length + 1 := by
            rw [← String.length_utf8EncodeChar, encoded]
            rfl
          have found : Piece.read index (b :: (tail ++ ofChars chars)) =
              some (.scalar c, tail.length + 1) := by
            rw [Piece.read, Piece.first, Piece.scalar?_encode c (ofChars chars) encoded]
            dsimp only [Piece.size]
            rw [size]
          rw [whole, Tokens.scan_some Piece.read found, List.drop_left, ih]
          rfl

/-- A text that was written from characters is read as those characters. -/
theorem pieces_ofChars (chars : List Char) : (ofChars chars).pieces = chars.map Piece.scalar :=
  scan_ofChars 0 chars

theorem chars_ofChars (chars : List Char) : (ofChars chars).chars = chars := by
  rw [Bytes.chars, pieces_ofChars, List.map_map]
  exact List.map_id chars

/-- A text that was read without the replacement character is written by its characters. -/
theorem ofChars_chars {text : Bytes} (clean : Piece.replacement ∉ text.chars) :
    ofChars text.chars = text := by
  have same (pieces : List Piece) (clean : Piece.replacement ∉ pieces.map Piece.toChar) :
      ofChars (pieces.map Piece.toChar) = ofPieces pieces := by
    induction pieces with
    | nil => rfl
    | cons piece rest ih =>
        rw [List.map_cons, List.mem_cons, not_or] at clean
        cases piece with
        | scalar c => exact congrArg (String.utf8EncodeChar c ++ ·) (ih clean.2)
        | stray b => exact absurd rfl clean.1
  rw [Bytes.chars, same text.pieces clean, ofPieces_pieces]

end Bytes

end Dockerfile
