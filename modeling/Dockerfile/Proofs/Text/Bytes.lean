import Dockerfile.Text.Bytes

/-!
# Slices and blanks

A slice inside a text has the length of its bounds and the text's own bytes.  What trimming takes
away is nothing but blanks, and what it leaves does not start or end with one.
-/

namespace Dockerfile

namespace Bytes

theorem length_slice {text : Bytes} (start : Nat) {stop : Nat} (inside : stop ≤ text.length) :
    (text.slice start stop).length = stop - start := by
  rw [slice, List.length_take, List.length_drop]
  omega

theorem slice_length (text : Bytes) (start : Nat) :
    text.slice start text.length = text.drop start := by
  rw [slice, List.take_of_length_le (Nat.le_of_eq List.length_drop)]

theorem slice_append_append (left middle right : Bytes) :
    slice (left ++ (middle ++ right)) left.length (left.length + middle.length) = middle := by
  rw [slice, List.drop_left, Nat.add_sub_cancel_left, List.take_left]

theorem getElem?_slice {text : Bytes} {start stop n : Nat} (inside : n < stop - start) :
    (text.slice start stop)[n]? = text[start + n]? := by
  rw [slice, List.getElem?_take, List.getElem?_drop, if_pos inside]

theorem getElem?_of_slice {text : Bytes} {start stop n : Nat} {b : UInt8}
    (found : (text.slice start stop)[n]? = some b) : text[start + n]? = some b := by
  rw [slice, List.getElem?_take, List.getElem?_drop] at found
  split at found
  · exact found
  · cases found

theorem mem_of_mem_slice {text : Bytes} {start stop : Nat} {b : UInt8}
    (member : b ∈ text.slice start stop) : b ∈ text :=
  List.mem_of_mem_drop (List.mem_of_mem_take member)

theorem drop_slice (text : Bytes) (start stop n : Nat) :
    (text.slice start stop).drop n = text.slice (start + n) stop := by
  rw [slice, slice, List.drop_take, List.drop_drop, Nat.sub_sub]

theorem slice_slice {text : Bytes} {start stop m n : Nat} (inside : start + n ≤ stop) :
    (text.slice start stop).slice m n = text.slice (start + m) (start + n) := by
  rw [slice, drop_slice, slice, slice, List.take_take]
  congr 1
  omega

theorem slice_append_slice (text : Bytes) {i j k : Nat} (first : i ≤ j) (second : j ≤ k) :
    text.slice i j ++ text.slice j k = text.slice i k := by
  have size : k - i = (j - i) + (k - j) := by omega
  rw [slice, slice, slice, size, List.take_add, List.drop_drop, Nat.add_sub_cancel' first]

theorem slice_eq_cons {text : Bytes} {i stop : Nat} {b : UInt8} (less : i < stop)
    (found : text[i]? = some b) : text.slice i stop = b :: text.slice (i + 1) stop := by
  obtain ⟨inside, rfl⟩ := List.getElem?_eq_some_iff.mp found
  have size : stop - i = stop - (i + 1) + 1 := by omega
  rw [slice, List.drop_eq_getElem_cons inside, size, List.take_succ_cons]
  rfl

theorem slice_eq_concat {text : Bytes} {start i : Nat} {b : UInt8} (le : start ≤ i)
    (found : text[i]? = some b) : text.slice start (i + 1) = text.slice start i ++ [b] := by
  have size : i + 1 - start = i - start + 1 := by omega
  have last : (text.drop start)[i - start]? = some b := by
    rw [List.getElem?_drop, Nat.add_sub_cancel' le]
    exact found
  rw [slice, size, List.take_add_one, last]
  rfl

theorem length_takeWhile_le (kind : UInt8 → Bool) (text : Bytes) :
    (text.takeWhile kind).length ≤ text.length :=
  (List.takeWhile_sublist kind).length_le

theorem takeWhile_slice_isPrefix (kind : UInt8 → Bool) (text : Bytes) (start stop : Nat) :
    (text.slice start stop).takeWhile kind <+: text.drop start :=
  (List.takeWhile_prefix kind).trans (List.take_prefix _ _)

theorem drop_length_takeWhile (kind : UInt8 → Bool) (text : Bytes) :
    text.drop (text.takeWhile kind).length = text.dropWhile kind := by
  have cut : (text.takeWhile kind ++ text.dropWhile kind).drop (text.takeWhile kind).length =
      text.dropWhile kind := List.drop_left
  rwa [List.takeWhile_append_dropWhile] at cut

/-- A run that something else follows is the leading run. -/
theorem takeWhile_append_eq {kind : UInt8 → Bool} {run rest : Bytes}
    (inside : ∀ b ∈ run, kind b = true) (stops : ∀ b, rest.head? = some b → kind b = false) :
    (run ++ rest).takeWhile kind = run := by
  rw [List.takeWhile_append_of_pos inside]
  cases rest with
  | nil => rw [List.takeWhile_nil, List.append_nil]
  | cons b more =>
      rw [List.takeWhile_cons_of_neg (by rw [stops b rfl]; decide), List.append_nil]

theorem getElem?_of_lt_takeWhile {kind : UInt8 → Bool} {text : Bytes} {n : Nat}
    (less : n < (text.takeWhile kind).length) : ∃ b, text[n]? = some b ∧ kind b = true := by
  have found := List.getElem?_eq_getElem less
  refine ⟨_, ?_, List.all_eq_true.mp List.all_takeWhile _ (List.getElem_mem less)⟩
  have whole : (text.takeWhile kind ++ text.dropWhile kind)[n]? = (text.takeWhile kind)[n]? :=
    List.getElem?_append_left less
  rw [List.takeWhile_append_dropWhile] at whole
  rw [whole, found]

def AllBlank (text : Bytes) : Prop :=
  ∀ b ∈ text, Byte.isBlank b = true

instance (text : Bytes) : Decidable text.AllBlank :=
  decidable_of_iff (text.all Byte.isBlank = true) List.all_eq_true

theorem ascii_of_isBlank {b : UInt8} (blank : Byte.isBlank b = true) : b < 0x80 := by
  rcases Bool.or_eq_true_iff.mp blank with same | same
  · rw [beq_iff_eq.mp same]
    decide
  · rw [beq_iff_eq.mp same]
    decide

theorem allBlank_takeWhile (text : Bytes) : AllBlank (text.takeWhile Byte.isBlank) :=
  List.all_eq_true.mp List.all_takeWhile

theorem takeWhile_append_trimLeft (text : Bytes) :
    text.takeWhile Byte.isBlank ++ text.trimLeft = text :=
  List.takeWhile_append_dropWhile

theorem drop_indent (text : Bytes) : text.drop text.indent = text.trimLeft :=
  drop_length_takeWhile Byte.isBlank text

theorem indent_le (text : Bytes) : text.indent ≤ text.length :=
  length_takeWhile_le Byte.isBlank text

/-- Nothing but blanks stands before the indent, and no blank at it. -/
theorem isBlank_of_lt_indent {text : Bytes} {n : Nat} (less : n < text.indent) {b : UInt8}
    (found : text[n]? = some b) : Byte.isBlank b = true := by
  obtain ⟨other, same, blank⟩ := getElem?_of_lt_takeWhile less
  rwa [Option.some.inj (found.symm.trans same)]

theorem not_isBlank_head_trimLeft {text rest : Bytes} {b : UInt8}
    (left : text.trimLeft = b :: rest) : Byte.isBlank b = false := by
  have head := List.head?_dropWhile_not Byte.isBlank text
  rw [← trimLeft, left] at head
  exact head

theorem trimLeft_eq_nil_iff {text : Bytes} : text.trimLeft = [] ↔ AllBlank text := by
  constructor
  · intro none
    have split := takeWhile_append_trimLeft text
    rw [none, List.append_nil] at split
    rw [← split]
    exact allBlank_takeWhile text
  · intro blank
    have gone : (text ++ []).dropWhile Byte.isBlank = [].dropWhile Byte.isBlank :=
      List.dropWhile_append_of_pos blank
    rwa [List.append_nil] at gone

/-- A text is divided before its longest end of bytes of one kind. -/
theorem dropWhile_append_takeWhile_reverse (kind : UInt8 → Bool) (text : Bytes) :
    (text.reverse.dropWhile kind).reverse ++ (text.reverse.takeWhile kind).reverse = text := by
  rw [← List.reverse_append, List.takeWhile_append_dropWhile, List.reverse_reverse]

theorem getLast_dropWhile_reverse {kind : UInt8 → Bool} {text : Bytes} {b : UInt8}
    (last : (text.reverse.dropWhile kind).reverse.getLast? = some b) : kind b = false := by
  have head := List.head?_dropWhile_not kind text.reverse
  rw [List.getLast?_reverse] at last
  rw [last] at head
  exact head

theorem exists_trimRight_append (text : Bytes) :
    ∃ blanks, text = text.trimRight ++ blanks ∧ AllBlank blanks := by
  refine ⟨(text.reverse.takeWhile Byte.isBlank).reverse, ?_, ?_⟩
  · exact (dropWhile_append_takeWhile_reverse Byte.isBlank text).symm
  · intro b member
    exact allBlank_takeWhile text.reverse b (List.mem_reverse.mp member)

theorem trimRight_append_blanks {text blanks : Bytes} (blank : AllBlank blanks) :
    trimRight (text ++ blanks) = text.trimRight := by
  have blank' : ∀ b ∈ blanks.reverse, Byte.isBlank b = true :=
    fun b member => blank b (List.mem_reverse.mp member)
  rw [trimRight, List.reverse_append, List.dropWhile_append_of_pos blank', trimRight]

theorem trimRight_concat {text : Bytes} {b : UInt8} (solid : Byte.isBlank b = false) :
    trimRight (text ++ [b]) = text ++ [b] := by
  rw [trimRight, List.reverse_concat, List.dropWhile_cons_of_neg (by rw [solid]; decide),
    List.reverse_cons, List.reverse_reverse]

theorem not_isBlank_getLast_trimRight {text : Bytes} {b : UInt8}
    (last : text.trimRight.getLast? = some b) : Byte.isBlank b = false :=
  getLast_dropWhile_reverse last

theorem trimRight_eq_self {text : Bytes}
    (solid : ∀ b, text.getLast? = some b → Byte.isBlank b = false) : text.trimRight = text := by
  rcases List.eq_nil_or_concat text with rfl | ⟨front, b, rfl⟩
  · rfl
  · rw [List.concat_eq_append] at solid ⊢
    exact trimRight_concat (solid b List.getLast?_concat)

/-- Trimming stops at the last byte that is no blank. -/
theorem trimRight_eq {text left blanks : Bytes} (split : text = left ++ blanks)
    (blank : AllBlank blanks) (solid : ∀ b, left.getLast? = some b → Byte.isBlank b = false) :
    text.trimRight = left := by
  rw [split, trimRight_append_blanks blank, trimRight_eq_self solid]

theorem indent_add_length_trim_le (text : Bytes) :
    text.indent + text.trim.length ≤ text.length := by
  obtain ⟨blanks, split, -⟩ := exists_trimRight_append text.trimLeft
  have whole := congrArg List.length (takeWhile_append_trimLeft text)
  have right := congrArg List.length split
  rw [List.length_append] at whole right
  rw [indent, trim]
  omega

theorem trim_eq_nil_iff {text : Bytes} : text.trim = [] ↔ AllBlank text := by
  obtain ⟨blanks, split, blank⟩ := exists_trimRight_append text.trimLeft
  rw [← trimLeft_eq_nil_iff, trim]
  constructor
  · intro empty
    rw [empty, List.nil_append] at split
    cases left : text.trimLeft with
    | nil => rfl
    | cons b tail =>
        have solid := not_isBlank_head_trimLeft left
        rw [blank b (by rw [← split, left]; exact List.mem_cons_self)] at solid
        cases solid
  · intro empty
    rw [empty]
    rfl

theorem indent_lt_length_iff (text : Bytes) : text.indent < text.length ↔ text.trim ≠ [] := by
  rw [Ne, trim_eq_nil_iff, ← trimLeft_eq_nil_iff, ← drop_indent, List.drop_eq_nil_iff, Nat.not_le]

theorem trimLeft_append (left right : Bytes) : trimLeft (left ++ right) =
    if left.trimLeft.isEmpty then right.trimLeft else left.trimLeft ++ right :=
  List.dropWhile_append

/-- A text is its trimmed part with blanks at either side of it. -/
theorem exists_trim_append (text : Bytes) : ∃ front back, text = front ++ (text.trim ++ back) ∧
    front.length = text.indent ∧ AllBlank front ∧ AllBlank back := by
  obtain ⟨back, split, blank⟩ := exists_trimRight_append text.trimLeft
  refine ⟨text.takeWhile Byte.isBlank, back, ?_, rfl, allBlank_takeWhile text, blank⟩
  rw [trim, ← split, takeWhile_append_trimLeft]

theorem allBlank_before_trim (text : Bytes) : AllBlank (text.slice 0 text.indent) := by
  obtain ⟨front, back, split, indent, blank, -⟩ := exists_trim_append text
  have cut := slice_append_append [] front (text.trim ++ back)
  rw [List.nil_append, ← split, List.length_nil, Nat.zero_add, indent] at cut
  rwa [cut]

theorem slice_trim (text : Bytes) :
    text.slice text.indent (text.indent + text.trim.length) = text.trim := by
  obtain ⟨front, back, split, indent, -⟩ := exists_trim_append text
  have cut := slice_append_append front text.trim back
  rwa [← split, indent] at cut

theorem allBlank_after_trim (text : Bytes) :
    AllBlank (text.slice (text.indent + text.trim.length) text.length) := by
  obtain ⟨front, back, split, indent, -, blank⟩ := exists_trim_append text
  have cut : (front ++ text.trim ++ back).drop (front ++ text.trim).length = back := List.drop_left
  rw [List.append_assoc, ← split, List.length_append, indent, ← slice_length] at cut
  rwa [cut]

theorem not_isBlank_head_trim {text : Bytes} {b : UInt8} (first : text.trim.head? = some b) :
    Byte.isBlank b = false := by
  obtain ⟨back, split, -⟩ := exists_trimRight_append text.trimLeft
  obtain ⟨rest, shape⟩ := List.head?_eq_some_iff.mp first
  rw [← trim, shape, List.cons_append] at split
  exact not_isBlank_head_trimLeft split

/-- What is cut off before the blanks at the end does not change where they start. -/
theorem trimRight_drop {text : Bytes} {k : Nat} (inside : k < text.trimRight.length) :
    trimRight (text.drop k) = text.trimRight.drop k := by
  obtain ⟨blanks, split, blank⟩ := exists_trimRight_append text
  have cut : text.drop k = text.trimRight.drop k ++ blanks :=
    (congrArg (List.drop k) split).trans (List.drop_append_of_le_length (Nat.le_of_lt inside))
  refine trimRight_eq cut blank ?_
  intro b last
  rw [List.getLast?_drop, if_neg (by omega)] at last
  exact not_isBlank_getLast_trimRight last

/-- A leading run that lies in the start of a text is the leading run of the start. -/
theorem takeWhile_take {kind : UInt8 → Bool} {text : Bytes} {k : Nat}
    (inside : (text.takeWhile kind).length ≤ k) :
    (text.take k).takeWhile kind = text.takeWhile kind := by
  rw [← List.take_takeWhile, List.take_of_length_le inside]

theorem dropLast_drop (text : Bytes) (k : Nat) :
    (text.drop k).dropLast = text.dropLast.drop k := by
  rw [List.dropLast_eq_take, List.dropLast_eq_take, List.drop_take, List.length_drop,
    Nat.sub_right_comm]

theorem indent_take {text : Bytes} {k : Nat} (inside : text.indent ≤ k) :
    indent (text.take k) = text.indent :=
  congrArg List.length (takeWhile_take inside)

theorem indent_concat {b : UInt8} (solid : Byte.isBlank b = false) (text : Bytes) :
    indent (text ++ [b]) = text.indent := by
  rw [indent, List.takeWhile_append]
  split
  · simp_all [indent]
  · rfl

end Bytes

end Dockerfile
