import Dockerfile.Form
import Dockerfile.Proofs.Word
import Mathlib.Data.List.TakeWhile

/-!
# Where the flags of an argument end

The form of an argument is decided by what follows its flags.  There, every blank ends a flag, also
a blank in quotes, whereas a quoted run stays in one word of the argument.  So both agree where the
flags end as long as every part of a leading flag between its blanks is a flag itself; otherwise an
array is looked for inside a flag.
-/

namespace Dockerfile

namespace Word

/-- The part between blanks, quoted or not, that starts at an index. -/
def readPart (index : Nat) (text : Bytes) : Option (Word × Nat) :=
  match (text.takeWhile (!Byte.isBlank ·)).length with
  | 0 => none
  | n + 1 => some (⟨text.take (n + 1), index, index + (n + 1)⟩, n + 1)

def parts (text : Bytes) : List Word :=
  tokens readPart text

theorem readPart_eq_some {index size : Nat} {text : Bytes} {part : Word}
    (found : readPart index text = some (part, size)) :
    size = (text.takeWhile (!Byte.isBlank ·)).length ∧ 0 < size ∧
      part = ⟨text.takeWhile (!Byte.isBlank ·), index, index + size⟩ := by
  unfold readPart at found
  split at found
  · cases found
  · rename_i n counted
    obtain ⟨rfl, rfl⟩ := Prod.mk.inj (Option.some.inj found)
    have front := List.prefix_iff_eq_take.mp (List.takeWhile_prefix (l := text) (!Byte.isBlank ·))
    rw [counted] at front
    exact ⟨counted.symm, Nat.succ_pos n, by rw [← front]⟩

theorem readPart_eq_none {index : Nat} {b : UInt8} {rest : Bytes}
    (passed : readPart index (b :: rest) = none) : Byte.isBlank b = true := by
  unfold readPart at passed
  split at passed
  · rename_i counted
    cases blank : Byte.isBlank b with
    | true => rfl
    | false =>
        rw [List.takeWhile_cons_of_pos (by rw [blank]; rfl)] at counted
        cases counted
  · cases passed

/-- A text starts with two hyphens if its first part does. -/
theorem isFlag_takeWhile (text : Bytes) (start stop : Nat) :
    (⟨text.takeWhile (!Byte.isBlank ·), start, stop⟩ : Word).isFlag =
      (utf8 "--").isPrefixOf text := by
  rw [Bool.eq_iff_iff, isFlag, List.isPrefixOf_iff_prefix, List.isPrefixOf_iff_prefix]
  constructor
  · exact fun front => front.trans (List.takeWhile_prefix _)
  · rintro ⟨rest, rfl⟩
    have solid : (utf8 "--").all (!Byte.isBlank ·) = true := by decide
    rw [List.takeWhile_append_of_pos (List.all_eq_true.mp solid)]
    exact List.prefix_append _ _

theorem not_isBlank_head {text : Bytes} (filled : 0 < length none text) {b : UInt8}
    (head : text.head? = some b) : Byte.isBlank b = false := by
  obtain ⟨rest, rfl⟩ := List.head?_eq_some_iff.mp head
  cases blank : Byte.isBlank b with
  | false => rfl
  | true =>
      rw [length_eq_zero_iff.mpr blank] at filled
      exact absurd filled (Nat.lt_irrefl 0)

/-- Every part of the word between its blanks is a flag. -/
def IsWhole (word : Word) : Prop :=
  ∀ part ∈ parts word.text, part.isFlag = true

instance (word : Word) : Decidable word.IsWhole :=
  inferInstanceAs (Decidable (∀ part ∈ parts word.text, part.isFlag = true))

theorem start_lt_of_mem_parts {text : Bytes} {part : Word} (member : part ∈ parts text) :
    part.start < text.length := by
  refine Tokens.scan_induction readPart text
    (motive := fun _ parts => ∀ part ∈ parts, part.start < text.length) ?_ ?_ ?_ ?_ 0 part member
  · intro n rest part size found
    exact (readPart_eq_some found).2.1
  · exact fun _ _ => nofun
  · exact fun _ _ _ _ ih => ih
  · intro n part size parts inside taken ih
    obtain ⟨-, -, rfl⟩ := readPart_eq_some taken
    exact List.forall_mem_cons.mpr ⟨inside, ih⟩

theorem operands_eq_nil_iff {words : List Word} :
    operands words = [] ↔ ∀ word ∈ words, word.isFlag = true := by
  rw [operands, List.dropWhile_eq_nil_iff]

theorem mem_of_operands_eq_cons {words rest : List Word} {first : Word}
    (found : operands words = first :: rest) : first ∈ words := by
  refine (List.dropWhile_sublist isFlag).subset ?_
  change first ∈ operands words
  rw [found]
  exact List.mem_cons_self

/-- The text from the first of some words on; nothing if there is none. -/
def onward (text : Bytes) : List Word → Bytes
  | [] => []
  | word :: _ => text.drop word.start

end Word

namespace Form

open Word

theorem dropFlags_trimLeft (text : Bytes) : dropFlags false text.trimLeft = dropFlags false text := by
  induction text with
  | nil => rfl
  | cons b rest ih =>
      by_cases blank : Byte.isBlank b = true
      · rw [Bytes.trimLeft, List.dropWhile_cons_of_pos blank, dropFlags, if_pos blank]
        exact ih
      · rw [Bytes.trimLeft, List.dropWhile_cons_of_neg blank]

theorem dropFlags_true (text : Bytes) :
    dropFlags true text = dropFlags false (text.dropWhile (!Byte.isBlank ·)) := by
  induction text with
  | nil => rfl
  | cons b rest ih =>
      cases blank : Byte.isBlank b with
      | true =>
          rw [List.dropWhile_cons_of_neg (by rw [blank]; decide), dropFlags, dropFlags,
            if_pos blank, blank]
          rfl
      | false =>
          rw [List.dropWhile_cons_of_pos (by rw [blank]; rfl), dropFlags, blank]
          exact ih

/-- A flag in front is passed over up to the next blank. -/
theorem dropFlags_of_flag {text : Bytes} (flag : (utf8 "--").isPrefixOf text = true) :
    dropFlags false text = dropFlags false (text.dropWhile (!Byte.isBlank ·)) := by
  obtain ⟨rest, rfl⟩ := List.isPrefixOf_iff_prefix.mp flag
  exact dropFlags_true _

theorem dropFlags_eq_self {text : Bytes} (solid : ∀ b, text.head? = some b → Byte.isBlank b = false)
    (plain : ¬ (utf8 "--").isPrefixOf text = true) : dropFlags false text = text := by
  cases text with
  | nil => rfl
  | cons b rest =>
      rw [dropFlags, if_neg (by rw [solid b rfl]; decide), if_neg]
      intro both
      obtain ⟨first, second⟩ := Bool.and_eq_true_iff.mp both
      obtain ⟨more, rfl⟩ := List.head?_eq_some_iff.mp (beq_iff_eq.mp second)
      rw [beq_iff_eq.mp first] at plain
      exact plain (List.isPrefixOf_iff_prefix.mpr ⟨more, rfl⟩)

/-- What follows a word before a blank does not make it start with a hyphen. -/
theorem head?_append_beq_minus (word : Bytes) {rest : Bytes}
    (ends : ∀ b, rest.head? = some b → Byte.isBlank b = true) :
    ((word ++ rest).head? == some Byte.minus) = (word.head? == some Byte.minus) := by
  cases word with
  | cons b word => rfl
  | nil =>
      rw [List.nil_append, List.head?_nil]
      refine beq_eq_false_iff_ne.mpr ?_
      intro minus
      cases ends _ minus

theorem isSuffix_dropFlags (inFlag : Bool) (text : Bytes) : dropFlags inFlag text <:+ text := by
  induction text generalizing inFlag with
  | nil => cases inFlag <;> exact List.suffix_refl []
  | cons b rest ih =>
      have more (inFlag : Bool) := (ih inFlag).trans (List.suffix_cons b rest)
      cases inFlag with
      | true => exact more _
      | false =>
          rw [dropFlags]
          split
          · exact more _
          · split
            · exact more _
            · exact List.suffix_refl _

theorem length_dropFlags_lt {text : Bytes} (flag : (utf8 "--").isPrefixOf text = true) :
    (dropFlags false text).length < text.length := by
  obtain ⟨rest, rfl⟩ := List.isPrefixOf_iff_prefix.mp flag
  exact Nat.lt_succ_of_le (isSuffix_dropFlags true (Byte.minus :: rest)).length_le

/-- What follows the flags starts at the first part that is none. -/
theorem dropFlags_eq_onward (text : Bytes) :
    dropFlags false text = onward text (operands (parts text)) := by
  refine Tokens.scan_induction readPart text
    (motive := fun n parts => dropFlags false (text.drop n) = onward text (operands parts))
    ?_ ?_ ?_ ?_ 0
  · intro n rest part size found
    exact (readPart_eq_some found).2.1
  · intro n past
    rw [List.drop_eq_nil_of_le past]
    rfl
  · intro n parts inside passed ih
    rw [List.drop_eq_getElem_cons inside] at passed ⊢
    rw [dropFlags, if_pos (readPart_eq_none passed)]
    exact ih
  · intro n part size parts inside taken ih
    obtain ⟨sized, positive, rfl⟩ := readPart_eq_some taken
    rw [operands]
    by_cases flag : (utf8 "--").isPrefixOf (text.drop n) = true
    · rw [List.dropWhile_cons_of_pos ((isFlag_takeWhile _ _ _).trans flag), dropFlags_of_flag flag,
        ← Bytes.drop_length_takeWhile, ← sized, List.drop_drop]
      exact ih
    · rw [List.dropWhile_cons_of_neg (by rw [isFlag_takeWhile]; exact flag)]
      refine dropFlags_eq_self ?_ flag
      intro b head
      obtain ⟨rest, split⟩ := List.head?_eq_some_iff.mp head
      cases blank : Byte.isBlank b with
      | false => rfl
      | true =>
          rw [split, List.takeWhile_cons_of_neg (by rw [blank]; decide)] at sized
          rw [sized] at positive
          exact absurd positive (Nat.lt_irrefl 0)

/-- If what follows the flags starts at an index, so does the first part that is no flag. -/
theorem start_of_dropFlags {text : Bytes} {k : Nat} (inside : k < text.length)
    (left : dropFlags false text = text.drop k) :
    ∃ first rest, operands (parts text) = first :: rest ∧ first.start = k := by
  rw [dropFlags_eq_onward] at left
  have counted := congrArg List.length left
  rw [List.length_drop] at counted
  cases found : operands (parts text) with
  | nil =>
      rw [found, onward, List.length_nil] at counted
      omega
  | cons first rest =>
      have bound := start_lt_of_mem_parts (mem_of_operands_eq_cons found)
      rw [found, onward, List.length_drop] at counted
      exact ⟨first, rest, rfl, by omega⟩

/-- A word is whole exactly if it is passed over altogether. -/
theorem isWhole_iff (word : Word) : word.IsWhole ↔ dropFlags false word.text = [] := by
  rw [IsWhole, ← operands_eq_nil_iff, dropFlags_eq_onward]
  cases found : operands (parts word.text) with
  | nil => exact ⟨fun _ => rfl, fun _ => rfl⟩
  | cons part rest =>
      have inside := start_lt_of_mem_parts (mem_of_operands_eq_cons found)
      constructor
      · exact nofun
      · intro empty
        exact absurd (List.drop_eq_nil_iff.mp empty) (Nat.not_le_of_lt inside)

/-- Before a blank, what is passed over in a word does not depend on what follows it. -/
theorem dropFlags_append (inFlag : Bool) (word : Bytes) {rest : Bytes}
    (ends : ∀ b, rest.head? = some b → Byte.isBlank b = true) :
    dropFlags inFlag (word ++ rest) =
      if dropFlags inFlag word = [] then dropFlags false rest else dropFlags inFlag word ++ rest := by
  induction word generalizing inFlag with
  | nil =>
      rw [List.nil_append, if_pos (by cases inFlag <;> rfl)]
      cases inFlag with
      | false => rfl
      | true =>
          cases rest with
          | nil => rfl
          | cons b more =>
              have blank := ends b rfl
              rw [dropFlags, dropFlags, if_pos blank, blank]
              rfl
  | cons b word ih =>
      cases inFlag with
      | true => exact ih _
      | false =>
          rw [List.cons_append, dropFlags, dropFlags]
          by_cases blank : Byte.isBlank b = true
          · rw [if_pos blank, if_pos blank]
            exact ih false
          · rw [if_neg blank, if_neg blank, head?_append_beq_minus word ends]
            split
            · exact ih true
            · rw [if_neg (List.cons_ne_nil b word), List.cons_append]

/-- A flag that is not passed over altogether is left at an index inside it. -/
theorem exists_dropFlags_append {word rest : Bytes} (flag : (utf8 "--").isPrefixOf word = true)
    (ends : ∀ b, rest.head? = some b → Byte.isBlank b = true) (left : dropFlags false word ≠ []) :
    ∃ k, 0 < k ∧ k < word.length ∧ dropFlags false (word ++ rest) = (word ++ rest).drop k := by
  have shorter := length_dropFlags_lt flag
  have filled := List.length_pos_iff.mpr left
  have inside : word.length - (dropFlags false word).length ≤ word.length := Nat.sub_le _ _
  refine ⟨word.length - (dropFlags false word).length, by omega, by omega, ?_⟩
  rw [dropFlags_append false word ends, if_neg left, List.drop_append_of_le_length inside,
    ← List.suffix_iff_eq_drop.mp (isSuffix_dropFlags false word)]

/-- What follows the flags in front of a text, told by its words: it starts at the first operand if
every leading flag is whole, and otherwise inside a leading flag. -/
inductive EndsFlags (text : Bytes) (words : List Word) : Bytes → Prop
  | whole (whole : ∀ flag ∈ words.takeWhile isFlag, flag.IsWhole) :
      EndsFlags text words (onward text (operands words))
  | inside {flag : Word} {k : Nat} (leads : flag ∈ words.takeWhile isFlag)
      (torn : ¬ flag.IsWhole) (after : flag.start < k) (before : k < flag.stop) :
      EndsFlags text words (text.drop k)

namespace EndsFlags

variable {text : Bytes} {words : List Word} {word : Word}

theorem cons {body : Bytes} (ends : EndsFlags text words body) (flag : word.isFlag = true)
    (whole : word.IsWhole) : EndsFlags text (word :: words) body := by
  have leading : (word :: words).takeWhile isFlag = word :: words.takeWhile isFlag :=
    List.takeWhile_cons_of_pos flag
  cases ends with
  | whole others =>
      rw [show operands words = operands (word :: words) from
        (List.dropWhile_cons_of_pos flag).symm]
      exact .whole (by rw [leading]; exact List.forall_mem_cons.mpr ⟨whole, others⟩)
  | inside leads torn after before =>
      exact .inside (by rw [leading]; exact List.mem_cons_of_mem _ leads) torn after before

theorem of_operand (plain : ¬ word.isFlag = true) :
    EndsFlags text (word :: words) (text.drop word.start) := by
  have first : operands (word :: words) = word :: words := List.dropWhile_cons_of_neg plain
  rw [show text.drop word.start = onward text (operands (word :: words)) by rw [first]; rfl]
  exact .whole (by rw [List.takeWhile_cons_of_neg plain]; exact nofun)

/-- One word more in front: it is passed over, or the flags end before it or in it. -/
theorem of_word {rest : Bytes} (stands : text.drop word.start = word.text ++ rest)
    (sized : word.stop = word.start + word.text.length) (filled : word.text ≠ [])
    (solid : ∀ b, word.text.head? = some b → Byte.isBlank b = false)
    (ends : ∀ b, rest.head? = some b → Byte.isBlank b = true)
    (later : EndsFlags text words (dropFlags false rest)) :
    EndsFlags text (word :: words) (dropFlags false (text.drop word.start)) := by
  by_cases flag : word.isFlag = true
  · by_cases passed : dropFlags false word.text = []
    · rw [stands, dropFlags_append false _ ends, if_pos passed]
      exact later.cons flag ((isWhole_iff word).mpr passed)
    · obtain ⟨k, positive, less, left⟩ := exists_dropFlags_append flag ends passed
      rw [← stands, List.drop_drop] at left
      rw [left]
      have leads : word ∈ (word :: words).takeWhile isFlag := by
        rw [List.takeWhile_cons_of_pos flag]
        exact List.mem_cons_self
      exact .inside leads (mt (isWhole_iff word).mp passed) (by omega) (by omega)
  · have kept := dropFlags_eq_self solid flag
    have same : dropFlags false (text.drop word.start) = text.drop word.start := by
      rw [stands, dropFlags_append false _ ends, kept, if_neg filled]
    rw [same]
    exact of_operand flag

end EndsFlags

/-- What follows the flags starts at the first operand, or inside a leading flag that is not
whole. -/
theorem endsFlags_dropFlags (text : Bytes) : EndsFlags text (all text) (dropFlags false text) := by
  refine Tokens.scan_induction read text
    (motive := fun n words => EndsFlags text words (dropFlags false (text.drop n)))
    ?_ ?_ ?_ ?_ 0
  · intro n rest word size found
    exact (read_eq_some found).2.1
  · intro n past
    rw [List.drop_eq_nil_of_le past]
    exact .whole nofun
  · intro n words inside passed ih
    have blank := read_eq_none passed
    rw [List.drop_eq_getElem_cons inside, length_eq_zero_iff] at blank
    rw [List.drop_eq_getElem_cons inside, dropFlags, if_pos blank]
    exact ih
  · intro n word size words _ taken later
    obtain ⟨counted, positive, rfl⟩ := read_eq_some taken
    have sized : ((text.drop n).take size).length = size := by
      rw [List.length_take, Nat.min_eq_left]
      exact counted ▸ length_le none _
    refine .of_word ?_ ?_ ?_ ?_ ?_ later
    · exact (List.take_append_drop size _).symm.trans (by rw [List.drop_drop])
    · rw [sized]
    · exact List.length_pos_iff.mp (sized.symm ▸ positive)
    · intro b head
      rw [List.head?_take, if_neg (Nat.ne_of_gt positive)] at head
      exact not_isBlank_head (counted ▸ positive) head
    · intro b next
      rw [List.head?_drop, ← List.getElem?_drop, counted] at next
      exact isBlank_length next

/-- Nothing is an array, so an array is read from the first of some words if there is one. -/
theorem isSome_read?_onward (text : Bytes) (words : List Word) :
    (StringArray.read? (onward text words)).isSome = true ↔
      ∃ first rest, words = first :: rest ∧
        (StringArray.read? (text.drop first.start)).isSome = true := by
  cases words with
  | nil => exact ⟨nofun, nofun⟩
  | cons first rest =>
      constructor
      · exact fun read => ⟨first, rest, rfl, read⟩
      · rintro ⟨_, _, same, read⟩
        obtain ⟨rfl, rfl⟩ := List.cons.inj same
        exact read

theorem classify_eq_array_iff {word : Bytes}
    (dual : (Keyword.ofWord? word).any Keyword.hasArrayForm = true) (text : Bytes) :
    classify word text = .array ↔ (StringArray.read? (dropFlags false text)).isSome = true := by
  rw [classify, dual, Bool.true_and]
  split
  · exact ⟨fun _ => ‹_›, fun _ => rfl⟩
  · exact ⟨nofun, fun read => absurd read ‹_›⟩

/-- An argument is an array exactly if one is read from its first part that is no flag.  Where every
leading flag is whole this is the first operand, and otherwise it stands inside a leading flag. -/
theorem classify_after_flags (word text : Bytes)
    (dual : (Keyword.ofWord? word).any Keyword.hasArrayForm = true) :
    (classify word text = .array ↔
        ∃ first rest, operands (parts text) = first :: rest ∧
          (StringArray.read? (text.drop first.start)).isSome = true) ∧
      ((∀ flag ∈ (all text).takeWhile isFlag, flag.IsWhole) →
        (classify word text = .array ↔
          ∃ first rest, operands (all text) = first :: rest ∧
            (StringArray.read? (text.drop first.start)).isSome = true)) ∧
      ((∃ flag ∈ (all text).takeWhile isFlag, ¬ flag.IsWhole) →
        ∃ flag ∈ (all text).takeWhile isFlag, ¬ flag.IsWhole ∧
          ∃ first rest, operands (parts text) = first :: rest ∧
            flag.start < first.start ∧ first.start < flag.stop) := by
  have read := classify_eq_array_iff dual text
  have ends := endsFlags_dropFlags text
  refine ⟨?_, ?_, ?_⟩
  · rw [read, dropFlags_eq_onward, isSome_read?_onward]
  · intro whole
    generalize dropFlags false text = body at read ends
    cases ends with
    | whole _ => rw [read, isSome_read?_onward]
    | inside leads torn _ _ => exact absurd (whole _ leads) torn
  · rintro ⟨torn, leads, notWhole⟩
    generalize left : dropFlags false text = body at ends
    cases ends with
    | whole whole => exact absurd (whole torn leads) notWhole
    | @inside flag k leads torn after before =>
        have stands := (all_standsIn text).1 flag ((List.takeWhile_sublist _).subset leads)
        obtain ⟨first, rest, found, rfl⟩ :=
          start_of_dropFlags (Nat.lt_of_lt_of_le before stands.bound) left
        exact ⟨flag, leads, torn, first, rest, found, after, before⟩

/-- A quoted blank parts a flag.  Where the second part is a flag again the array after it is read,
and where it is none, what is read starts there. -/
theorem classify_after_flags_quoted :
    (Keyword.ofWord? (utf8 "run")).any Keyword.hasArrayForm = true ∧
      (∀ flag ∈ (all (utf8 "--env=\"a --b\" [\"make\"]")).takeWhile isFlag, flag.IsWhole) ∧
      classify (utf8 "run") (utf8 "--env=\"a --b\" [\"make\"]") = .array ∧
      ∃ flag ∈ (all (utf8 "--env=\"a b\" [\"make\"]")).takeWhile isFlag, ¬ flag.IsWhole ∧
        ∃ first rest, operands (parts (utf8 "--env=\"a b\" [\"make\"]")) = first :: rest ∧
          flag.start < first.start ∧ first.start < flag.stop := by
  have dual : (Keyword.ofWord? (utf8 "run")).any Keyword.hasArrayForm = true := by decide
  have whole : ∀ flag ∈ (all (utf8 "--env=\"a --b\" [\"make\"]")).takeWhile isFlag,
      flag.IsWhole := by decide +kernel
  have torn : ∃ flag ∈ (all (utf8 "--env=\"a b\" [\"make\"]")).takeWhile isFlag,
      ¬ flag.IsWhole := by decide +kernel
  refine ⟨dual, whole, ?_, (classify_after_flags _ _ dual).2.2 torn⟩
  refine ((classify_after_flags _ _ dual).2.1 whole).mpr ⟨⟨utf8 "[\"make\"]", 14, 22⟩, [], ?_, ?_⟩
  · decide +kernel
  · decide +kernel

/-- The first operand need not decide: an array after a flag with a quoted blank is not read, and one
inside such a flag is. -/
theorem classify_parts_flag :
    (Keyword.ofWord? (utf8 "RUN")).any Keyword.hasArrayForm = true ∧
      operands (all (utf8 "--mount=type=bind,source=\"a b\" [\"make\"]")) =
        [⟨utf8 "[\"make\"]", 31, 39⟩] ∧
      (StringArray.read?
        ((utf8 "--mount=type=bind,source=\"a b\" [\"make\"]").drop 31)).isSome = true ∧
      classify (utf8 "RUN") (utf8 "--mount=type=bind,source=\"a b\" [\"make\"]") = .plain ∧
      operands (all (utf8 "--a=\"x [\"b\"]")) = [] ∧
      classify (utf8 "RUN") (utf8 "--a=\"x [\"b\"]") = .array := by
  decide +kernel

end Form

end Dockerfile
