import Dockerfile.Text.Case
import Dockerfile.Text.Encoding
import Mathlib.Data.List.Chain
import Mathlib.Data.List.TakeWhile

/-!
# Upper case once and again

What a character goes to in upper case goes nowhere else: no run of the table starts from where
another one leads, and small and capital letters that follow each other alternate.  A text of ASCII
bytes goes byte by byte to what its characters go to, so upper case is the same law on characters
for every text.  Hence a text in upper case stays as it is, also if it is ASCII and the text that it
came from was not.
-/

namespace Dockerfile

namespace Byte

theorem toNat_toUpper (b : UInt8) : (toUpper b).toNat =
    if 0x61 ≤ b.toNat ∧ b.toNat ≤ 0x7a then b.toNat - 0x20 else b.toNat := by
  have lower : isLower b = true ↔ 0x61 ≤ b.toNat ∧ b.toNat ≤ 0x7a := by
    simp [isLower, UInt8.le_iff_toNat_le]
  rw [toUpper]
  by_cases letter : isLower b = true
  · have bounds := lower.mp letter
    rw [if_pos letter, if_pos bounds, UInt8.toNat_sub_of_le]
    · rfl
    · exact UInt8.le_iff_toNat_le.mpr (Nat.le_trans (by decide) bounds.1)
  · rw [if_neg letter, if_neg (mt lower.mpr letter)]

theorem toUpper_ascii {b : UInt8} (ascii : b < 0x80) : toUpper b < 0x80 := by
  have small : b.toNat < 0x80 := UInt8.lt_iff_toNat_lt.mp ascii
  rw [UInt8.lt_iff_toNat_lt, toNat_toUpper]
  change _ < 0x80
  split <;> omega

end Byte

namespace CaseRun

def stop (run : CaseRun) : Nat :=
  run.first + (run.count - 1) * run.step + 1

def targetStop (run : CaseRun) : Nat :=
  run.target + (run.count - 1) * run.step + 1

theorem exists_of_image? {run : CaseRun} {n m : Nat} (found : run.image? n = some m) :
    ∃ past, n = run.first + past ∧ m = run.target + past ∧ run.step ∣ past ∧
      past ≤ (run.count - 1) * run.step := by
  unfold image? at found
  split at found
  · rename_i inside
    obtain ⟨low, high, even⟩ := inside
    have steps : run.step ∣ n - run.first := Nat.dvd_of_mod_eq_zero even
    have left : run.step ∣ run.count * run.step - (n - run.first) :=
      Nat.dvd_sub (Nat.dvd_mul_left _ _) steps
    have room := Nat.le_of_dvd (by omega) left
    refine ⟨n - run.first, by omega, (Option.some.inj found).symm, steps, ?_⟩
    rw [Nat.sub_mul, Nat.one_mul]
    omega
  · cases found

/-- Images of the run and code points of the other one leave different remainders by the other
one's step. -/
def Alternates (run other : CaseRun) : Prop :=
  (run.count = 1 ∨ other.step ∣ run.step) ∧ run.target % other.step ≠ other.first % other.step

instance (run other : CaseRun) : Decidable (run.Alternates other) :=
  inferInstanceAs (Decidable (_ ∧ _))

/-- A run does not lead to a code point of a run that it alternates with. -/
theorem Alternates.image?_eq_none {run other : CaseRun} (alternate : run.Alternates other)
    {n m : Nat} (found : run.image? n = some m) : other.image? m = none := by
  rw [Option.eq_none_iff_forall_ne_some]
  intro image landed
  obtain ⟨past, -, rfl, steps, room⟩ := exists_of_image? found
  obtain ⟨onward, same, -, ⟨count, rfl⟩, -⟩ := exists_of_image? landed
  obtain ⟨aligned, apart⟩ := alternate
  obtain ⟨times, rfl⟩ : other.step ∣ past := by
    rcases aligned with single | multiple
    · rw [single, Nat.sub_self, Nat.zero_mul] at room
      rw [Nat.le_zero.mp room]
      exact Nat.dvd_zero _
    · exact Nat.dvd_trans multiple steps
  apply apart
  calc run.target % other.step
      = (run.target + other.step * times) % other.step := (Nat.add_mul_mod_self_left _ _ _).symm
    _ = (other.first + other.step * count) % other.step := by rw [same]
    _ = other.first % other.step := Nat.add_mul_mod_self_left _ _ _

/-- The runs that reach between the images of a run, if the runs are listed in order. -/
def around (runs : List CaseRun) (run : CaseRun) : List CaseRun :=
  (runs.dropWhile (·.stop.ble run.target)).takeWhile (·.first.blt run.targetStop)

/-- The runs are listed in order, and a run that reaches between the images of another one
alternates with it. -/
structure IsSettled (runs : List CaseRun) : Prop where
  ordered : (runs.map first).IsChain (· ≤ ·)
  -- Asked of every two runs, this would be some forty thousand comparisons for the table.
  alternate : ∀ run ∈ runs, ∀ other ∈ around runs run, run.Alternates other

theorem mem_takeWhile_of_ordered {runs : List CaseRun}
    (ordered : runs.Pairwise fun run other => run.first ≤ other.first) {run : CaseRun}
    (member : run ∈ runs) {n : Nat} (starts : run.first < n) :
    run ∈ runs.takeWhile (·.first.blt n) := by
  induction runs with
  | nil => exact member
  | cons next rest ih =>
      obtain ⟨least, ordered⟩ := List.pairwise_cons.mp ordered
      rcases List.mem_cons.mp member with rfl | later
      · rw [List.takeWhile_cons_of_pos (by simpa using starts)]
        exact List.mem_cons_self
      · have before := least run later
        rw [List.takeWhile_cons_of_pos (by simpa using Nat.lt_of_le_of_lt before starts)]
        exact List.mem_cons_of_mem _ (ih ordered later)

namespace IsSettled

variable {runs : List CaseRun} (settled : IsSettled runs)
include settled

theorem mem_around {run other : CaseRun} (member : other ∈ runs) (reaches : run.target < other.stop)
    (starts : other.first < run.targetStop) : other ∈ around runs run := by
  have ordered := List.pairwise_map.mp (List.isChain_iff_pairwise.mp settled.ordered)
  apply mem_takeWhile_of_ordered (ordered.sublist (List.dropWhile_sublist _)) _ starts
  -- What is dropped ends before the images start.
  rw [← List.takeWhile_append_dropWhile (p := (·.stop.ble run.target)) (l := runs)] at member
  rcases List.mem_append.mp member with before | later
  · have ends := List.mem_takeWhile_imp before
    rw [Nat.ble_eq] at ends
    omega
  · exact later

/-- No run starts from the image of a code point. -/
theorem image?_eq_none {run other : CaseRun} (member : run ∈ runs) (member' : other ∈ runs)
    {n m : Nat} (found : run.image? n = some m) : other.image? m = none := by
  by_cases near : other ∈ around runs run
  · exact (settled.alternate run member other near).image?_eq_none found
  · rw [Option.eq_none_iff_forall_ne_some]
    intro image landed
    obtain ⟨past, -, image, -, room⟩ := exists_of_image? found
    obtain ⟨onward, same, -, -, room'⟩ := exists_of_image? landed
    apply near
    apply settled.mem_around member'
    · rw [stop]
      omega
    · rw [targetStop]
      omega

end IsSettled

/-- A code point stays, or some run leads from it to its image. -/
theorem map_cases (runs : List CaseRun) (n : Nat) :
    map runs n = n ∨ ∃ run ∈ runs, run.image? n = some (map runs n) := by
  cases found : runs.findSome? (·.image? n) with
  | none =>
      left
      rw [map, found, Option.getD_none]
  | some m =>
      right
      rw [map, found, Option.getD_some]
      exact List.exists_of_findSome?_eq_some found

theorem map_eq_self {runs : List CaseRun} {n : Nat} (none : ∀ run ∈ runs, run.image? n = none) :
    map runs n = n := by
  rw [map, List.findSome?_eq_none_iff.mpr none, Option.getD_none]

theorem map_map {runs : List CaseRun} (settled : IsSettled runs) (n : Nat) :
    map runs (map runs n) = map runs n := by
  rcases map_cases runs n with stays | ⟨run, member, found⟩
  · rw [stays, stays]
  · apply map_eq_self
    intro other inside
    exact settled.image?_eq_none member inside found

theorem isSettled_upper : IsSettled upper where
  ordered := by decide +kernel
  alternate := by decide +kernel

/-- Upper case leads from characters to characters, never to a surrogate or out of range. -/
theorem isValidChar_map_upper {n : Nat} (valid : n.isValidChar) : (map upper n).isValidChar := by
  have proper : ∀ run ∈ upper, run.targetStop ≤ 0xd800 ∨
      0xdfff < run.target ∧ run.targetStop ≤ 0x110000 := by decide +kernel
  rcases map_cases upper n with stays | ⟨run, member, found⟩
  · rw [stays]
    exact valid
  · obtain ⟨past, -, image, -, room⟩ := exists_of_image? found
    have bounds := proper run member
    rw [targetStop] at bounds
    rw [image, Nat.isValidChar]
    omega

/-- The first run is that of the ASCII letters, and the others start beyond ASCII. -/
theorem map_upper_ascii {b : UInt8} (ascii : b < 0x80) :
    map upper b.toNat = (Byte.toUpper b).toNat := by
  have small : b.toNat < 0x80 := UInt8.lt_iff_toNat_lt.mp ascii
  have beyond : ∀ run ∈ upper.tail, 0x80 ≤ run.first := by decide +kernel
  have others : upper.tail.findSome? (·.image? b.toNat) = none := by
    rw [List.findSome?_eq_none_iff]
    intro run member
    have start := beyond run member
    exact if_neg (by omega)
  have first : map upper b.toNat = (image? ⟨0x61, 26, 1, 0x41⟩ b.toNat).getD b.toNat := by
    change ((⟨0x61, 26, 1, 0x41⟩ :: upper.tail).findSome? (·.image? b.toNat)).getD b.toNat = _
    rw [List.findSome?_cons, others]
    cases image? ⟨0x61, 26, 1, 0x41⟩ b.toNat <;> rfl
  rw [first, Byte.toNat_toUpper]
  dsimp only [image?]
  by_cases letter : 0x61 ≤ b.toNat ∧ b.toNat ≤ 0x7a
  · rw [if_pos letter, if_pos (by omega), Option.getD_some]
    omega
  · rw [if_neg letter, if_neg (by omega), Option.getD_none]

end CaseRun

theorem toNat_upperChar (c : Char) : (upperChar c).toNat = CaseRun.map CaseRun.upper c.toNat :=
  Piece.val_ofNat (CaseRun.isValidChar_map_upper c.valid)

theorem upperChar_upperChar (c : Char) : upperChar (upperChar c) = upperChar c := by
  rw [upperChar, toNat_upperChar, CaseRun.map_map CaseRun.isSettled_upper, ← upperChar]

theorem upperChar_ascii {b : UInt8} (ascii : b < 0x80) :
    upperChar (Char.ofNat b.toNat) = Char.ofNat (Byte.toUpper b).toNat := by
  have small : b.toNat < 0x80 := UInt8.lt_iff_toNat_lt.mp ascii
  have number : (Char.ofNat b.toNat).toNat = b.toNat := Piece.val_ofNat (Or.inl (by omega))
  rw [upperChar, number, CaseRun.map_upper_ascii ascii]

namespace Bytes

theorem isAscii_iff {text : Bytes} : text.isAscii = true ↔ ∀ b ∈ text, b < 0x80 := by
  simp [isAscii]

theorem ofChars_ascii {text : Bytes} (ascii : ∀ b ∈ text, b < 0x80) :
    ofChars (text.map fun b => Char.ofNat b.toNat) = text := by
  induction text with
  | nil => rfl
  | cons b rest ih =>
      obtain ⟨small, ascii⟩ := List.forall_mem_cons.mp ascii
      change String.utf8EncodeChar (Char.ofNat b.toNat) ++ ofChars _ = _
      rw [Piece.encode_one small, ih ascii, List.singleton_append]

theorem chars_ascii {text : Bytes} (ascii : ∀ b ∈ text, b < 0x80) :
    text.chars = text.map fun b => Char.ofNat b.toNat := by
  have read := chars_ofChars (text.map fun b => Char.ofNat b.toNat)
  rwa [ofChars_ascii ascii] at read

/-- Upper case is taken character by character, whether the text is ASCII or not. -/
theorem toUpper_eq (text : Bytes) : text.toUpper = ofChars (text.chars.map upperChar) := by
  unfold toUpper
  split
  · rename_i ascii
    rw [isAscii_iff] at ascii
    have upper : ∀ b ∈ text.map Byte.toUpper, b < 0x80 := by
      rw [List.forall_mem_map]
      intro b member
      exact Byte.toUpper_ascii (ascii b member)
    have same : text.chars.map upperChar =
        (text.map Byte.toUpper).map fun b => Char.ofNat b.toNat := by
      rw [chars_ascii ascii, List.map_map, List.map_map]
      exact List.map_congr_left fun b member => upperChar_ascii (ascii b member)
    rw [same, ofChars_ascii upper]
  · rfl

theorem chars_toUpper (text : Bytes) : text.toUpper.chars = text.chars.map upperChar := by
  rw [toUpper_eq, chars_ofChars]

theorem toUpper_toUpper (text : Bytes) : text.toUpper.toUpper = text.toUpper := by
  rw [toUpper_eq text.toUpper, chars_toUpper, List.map_map, toUpper_eq]
  congr 1
  exact List.map_congr_left fun c _ => upperChar_upperChar c

end Bytes

end Dockerfile
