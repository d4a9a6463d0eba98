import Dockerfile.Proofs.Form
import Dockerfile.Proofs.Json.StringArray
import Dockerfile.Proofs.Keyword
import Dockerfile.Proofs.Text.Boundary

/-!
# Arguments in array form

Under a keyword in any case that takes an array, an argument has array form however its strings are
written and whatever flags stand in front.  It has array form only if what follows the flags is a
JSON array of strings, where `null` passes for a string as well; an element of any other kind makes
it plain text.
-/

namespace Dockerfile

namespace Bytes

theorem chars_cons_ascii {b : UInt8} (ascii : b < 0x80) (rest : Bytes) :
    chars (b :: rest) = Char.ofNat b.toNat :: chars rest := by
  rw [chars, ← List.nil_append (b :: rest), pieces_append_ascii ascii]
  rfl

end Bytes

namespace Form

open Json (Enclosed Items Kind Renders Spells SpellsAll Value)
open StringArray (Admits AllWhite Holds read?)

/-- Words that start with two hyphens and hold no blank, each with blanks after it. -/
inductive AreFlags : Bytes → Prop
  | nil : AreFlags []
  | cons {flag gap more : Bytes} (marked : utf8 "--" <+: flag)
      (unbroken : ∀ b ∈ flag, Byte.isBlank b = false) (filled : gap ≠ []) (blank : gap.AllBlank)
      (later : AreFlags more) : AreFlags (flag ++ (gap ++ more))

theorem dropFlags_blanks {gap : Bytes} (blank : gap.AllBlank) (text : Bytes) :
    dropFlags false (gap ++ text) = dropFlags false text := by
  rw [← dropFlags_trimLeft, Bytes.trimLeft, List.dropWhile_append_of_pos blank, ← Bytes.trimLeft,
    dropFlags_trimLeft]

theorem dropFlags_flags {flags : Bytes} (areFlags : AreFlags flags) (text : Bytes) :
    dropFlags false (flags ++ text) = dropFlags false text := by
  induction areFlags with
  | nil => rfl
  | @cons flag gap more marked unbroken filled blank later ih =>
      have front : (utf8 "--").isPrefixOf (flag ++ (gap ++ more) ++ text) = true := by
        rw [List.isPrefixOf_iff_prefix, List.append_assoc]
        exact marked.trans (List.prefix_append _ _)
      obtain ⟨b, rest, rfl⟩ := List.exists_cons_of_ne_nil filled
      have stops : Byte.isBlank b = true := blank b List.mem_cons_self
      have passed : (flag ++ (b :: rest ++ more) ++ text).dropWhile (!Byte.isBlank ·) =
          b :: rest ++ (more ++ text) := by
        rw [List.append_assoc, List.dropWhile_append_of_pos (by simpa using unbroken)]
        simp [stops]
      rw [dropFlags_of_flag front, passed, dropFlags_blanks blank, ih]

/-- What is passed over, if anything is left: the rest of a flag that has begun, blanks, and
flags. -/
theorem exists_flags {inFlag : Bool} {text : Bytes} (left : dropFlags inFlag text ≠ []) :
    ∃ word gap flags, text = word ++ (gap ++ (flags ++ dropFlags inFlag text)) ∧
      (∀ b ∈ word, Byte.isBlank b = false) ∧ gap.AllBlank ∧ AreFlags flags ∧
      if inFlag then gap ≠ [] else word = [] := by
  fun_induction dropFlags inFlag text with
  | case1 => exact absurd rfl left
  | case2 b rest ih =>
      obtain ⟨word, gap, flags, split, unbroken, blank, areFlags, state⟩ := ih left
      cases ends : Byte.isBlank b with
      | true =>
          rw [ends] at split state
          obtain rfl : word = [] := by simpa using state
          exact ⟨[], b :: gap, flags, congrArg (b :: ·) split, nofun,
            List.forall_mem_cons.mpr ⟨ends, blank⟩, areFlags, nofun⟩
      | false =>
          rw [ends] at split state
          exact ⟨b :: word, gap, flags, congrArg (b :: ·) split,
            List.forall_mem_cons.mpr ⟨ends, unbroken⟩, blank, areFlags, by simpa using state⟩
  | case3 b rest ends ih =>
      obtain ⟨word, gap, flags, split, -, blank, areFlags, rfl⟩ := ih left
      exact ⟨[], b :: gap, flags, congrArg (b :: ·) split, nofun,
        List.forall_mem_cons.mpr ⟨ends, blank⟩, areFlags, rfl⟩
  | case4 b rest solid hyphens ih =>
      obtain ⟨word, gap, flags, split, unbroken, blank, areFlags, filled⟩ := ih left
      obtain ⟨first, second⟩ : b = Byte.minus ∧ rest.head? = some Byte.minus := by
        simpa using hyphens
      -- The second hyphen belongs to the flag, as no hyphen is a blank.
      obtain ⟨more, rfl⟩ : ∃ more, word = Byte.minus :: more := by
        have ends : ∀ c, (gap ++ (flags ++ dropFlags true rest)).head? = some c →
            Byte.isBlank c = true := by
          obtain ⟨c, gap, rfl⟩ := List.exists_cons_of_ne_nil (by simpa using filled)
          rintro _ ⟨⟩
          exact blank c List.mem_cons_self
        have leads := head?_append_beq_minus word ends
        rw [← split, second] at leads
        exact List.head?_eq_some_iff.mp (by simpa using leads.symm)
      refine ⟨[], [], b :: Byte.minus :: more ++ (gap ++ flags), ?_, nofun, nofun, ?_, rfl⟩
      · simpa using congrArg (b :: ·) split
      · refine .cons ⟨more, by rw [first]; rfl⟩ ?_ (by simpa using filled) blank areFlags
        exact List.forall_mem_cons.mpr ⟨by simpa using solid, unbroken⟩
  | case5 b rest => exact ⟨[], [], [], rfl, nofun, nofun, .nil, rfl⟩

/-! ## Arrays behind flags -/

section

variable {α : Type} {item : α → List Char → Prop} {items : List α}

theorem not_holds_nil : ¬ Holds item items [] := by
  rintro ⟨front, core, back, whole, -, -, array⟩
  change [] = _ at whole
  cases array <;> simp at whole

/-- An ASCII byte in front of an array is its bracket or white space. -/
theorem holds_cons_ascii {b : UInt8} {rest : Bytes} (ascii : b < 0x80)
    (holds : Holds item items (b :: rest)) :
    Char.ofNat b.toNat = '[' ∨ isWhiteSpace (Char.ofNat b.toNat) = true ∧
      Holds item items rest := by
  obtain ⟨front, core, back, whole, before, after, array⟩ := holds
  rw [Bytes.chars_cons_ascii ascii] at whole
  cases front with
  | nil =>
      left
      cases array <;> exact (List.cons.inj whole).1
  | cons c front =>
      obtain ⟨same, whole⟩ := List.cons.inj whole
      obtain ⟨white, before⟩ := List.forall_mem_cons.mp before
      exact Or.inr ⟨same ▸ white, front, core, back, whole, before, after, array⟩

/-- No array starts with a hyphen, so no more than blanks in front of it are passed over. -/
theorem holds_dropFlags {text : Bytes} (holds : Holds item items text) :
    Holds item items (dropFlags false text) := by
  induction text with
  | nil => exact holds
  | cons b rest ih =>
      rw [dropFlags]
      split
      · rename_i blank
        rcases holds_cons_ascii (Bytes.ascii_of_isBlank blank) holds with bracket | ⟨-, later⟩
        · obtain rfl | rfl : b = Byte.space ∨ b = Byte.tab := by simpa [Byte.isBlank] using blank
          · exact absurd bracket (by decide)
          · exact absurd bracket (by decide)
        · exact ih later
      · split
        · rename_i hyphens
          obtain ⟨rfl, -⟩ : b = Byte.minus ∧ rest.head? = some Byte.minus := by simpa using hyphens
          rcases holds_cons_ascii (by decide) holds with bracket | ⟨white, -⟩
          · exact absurd bracket (by decide)
          · exact absurd white (by decide)
        · exact holds

/-- After blanks and flags, the argument is an array of the items. -/
def Carries (item : α → List Char → Prop) (items : List α) (argument : Bytes) : Prop :=
  ∃ gap flags body, argument = gap ++ (flags ++ body) ∧ gap.AllBlank ∧ AreFlags flags ∧
    Holds item items body

/-- What stands after blanks and flags is what is left when these are dropped. -/
theorem carries_iff {argument : Bytes} :
    Carries item items argument ↔ Holds item items (dropFlags false argument) := by
  constructor
  · rintro ⟨gap, flags, body, rfl, blank, areFlags, holds⟩
    rw [dropFlags_blanks blank, dropFlags_flags areFlags]
    exact holds_dropFlags holds
  · intro holds
    have left : dropFlags false argument ≠ [] := by
      intro none
      rw [none] at holds
      exact not_holds_nil holds
    obtain ⟨_, gap, flags, split, -, blank, areFlags, rfl⟩ := exists_flags left
    exact ⟨gap, flags, _, split, blank, areFlags, holds⟩

end

/-- An argument has array form exactly if the keyword takes an array and one is read behind the
flags. -/
theorem classify_eq_array_iff_spelled {word argument : Bytes} :
    classify word argument = .array ↔
      (∃ keyword : Keyword, word.toUpper = keyword.spelling ∧ keyword.hasArrayForm = true) ∧
        (read? (dropFlags false argument)).isSome = true := by
  have dual : (Keyword.ofWord? word).any Keyword.hasArrayForm = true ↔
      ∃ keyword : Keyword, word.toUpper = keyword.spelling ∧ keyword.hasArrayForm = true := by
    simp [Option.any_eq_true, Keyword.ofWord?_eq_some_iff]
  rw [classify, ← dual, ← Bool.and_eq_true_iff]
  split <;> simp [*]

theorem classify_eq_plain {word argument : Bytes} (other : classify word argument ≠ .array) :
    classify word argument = .plain := by
  cases form : classify word argument with
  | plain => rfl
  | array => exact absurd form other

/-- However a list of strings is written as an array, with white space around it, it is read back,
and under a keyword in any case that takes an array the argument has array form, also with flags in
front.  Under other words every argument is plain text. -/
theorem rendering_recognised {values : List String} {front core back : List Char}
    (rendering : Enclosed Renders '[' ']' values core) (before : AllWhite front)
    (after : AllWhite back) :
    read? (Bytes.ofChars (front ++ (core ++ back))) = some (values.map utf8) ∧
    (∀ (keyword : Keyword) (word flags : Bytes), keyword.hasArrayForm = true →
      word.map Byte.toUpper = keyword.spelling → AreFlags flags →
      classify word (flags ++ Bytes.ofChars (front ++ (core ++ back))) = .array) ∧
    ∀ word argument : Bytes,
      (∀ keyword : Keyword, word.toUpper = keyword.spelling → keyword.hasArrayForm = false) →
      classify word argument = .plain := by
  have holds : Holds Renders values (Bytes.ofChars (front ++ (core ++ back))) :=
    ⟨front, core, back, Bytes.chars_ofChars _, before, after, rendering⟩
  refine ⟨StringArray.read?_of_renders holds, ?_, ?_⟩
  · intro keyword word flags takesArray spelled areFlags
    rw [classify_eq_array_iff_spelled, dropFlags_flags areFlags,
      StringArray.read?_of_renders (holds_dropFlags holds)]
    exact ⟨⟨keyword, Keyword.toUpper_of_spelled spelled, takesArray⟩, rfl⟩
  · intro word argument single
    apply classify_eq_plain
    intro array
    obtain ⟨⟨keyword, spelled, takesArray⟩, -⟩ := classify_eq_array_iff_spelled.mp array
    rw [single keyword spelled] at takesArray
    cases takesArray

/-- A letter by its number, a raw bracket, a surrogate pair and a short escape, with white space
beyond ASCII around the array and two flags in front of it. -/
theorem rendering_recognised_mixed :
    let text := utf8 "\u00a0[ \"\\u0061[\\uD83d\\uDE00\\n\" ]\u2003"
    read? text = some [utf8 "a[😀\n"] ∧
    classify (utf8 "rUn") (utf8 "--mount=x --y\t " ++ text) = .array ∧
    classify (utf8 "env") text = .plain := by
  have letter : Spells 'a' ['\x5c', 'u', '0', '0', '6', '1'] :=
    .unit (.unit ⟨0, 0, 6, 1, Or.inl rfl, Or.inl rfl, Or.inl rfl, Or.inl rfl, rfl⟩)
  have bracket : Spells '[' ['['] := .char (.raw (by decide) (by decide) (by decide))
  have high : Json.Part.IsWritten (.unit 0xd83d) ['\x5c', 'u', 'D', '8', '3', 'd'] :=
    .unit ⟨13, 8, 3, 13, Or.inr rfl, Or.inl rfl, Or.inl rfl, Or.inl rfl, rfl⟩
  have low : Json.Part.IsWritten (.unit 0xde00) ['\x5c', 'u', 'D', 'E', '0', '0'] :=
    .unit ⟨13, 14, 0, 0, Or.inr rfl, Or.inr rfl, Or.inl rfl, Or.inl rfl, rfl⟩
  have face := Spells.pair (c := '😀') (by decide) (by decide) (by decide) high low
  have newline : Spells '\n' ['\x5c', 'n'] := .char (.short (by decide))
  have spelled := SpellsAll.cons letter (.cons bracket (.cons face (.cons newline .nil)))
  have space : Json.IsGap [' '] := by simp [Json.IsGap]
  have renders : Renders "a[😀\n" _ := .intro spelled
  have rendering : Enclosed Renders '[' ']' _ _ := .filled (.last space renders space)
  have before : AllWhite ['\u00a0'] := List.forall_mem_singleton.mpr (by decide)
  have after : AllWhite ['\u2003'] := List.forall_mem_singleton.mpr (by decide)
  have solid {flag : Bytes} (all : flag.all (!Byte.isBlank ·) = true) :
      ∀ b ∈ flag, Byte.isBlank b = false := by simpa using all
  have flags : AreFlags (utf8 "--mount=x" ++ (utf8 " " ++ (utf8 "--y" ++ (utf8 "\t " ++ [])))) :=
    .cons ⟨utf8 "mount=x", rfl⟩ (solid rfl) nofun (by decide)
      (.cons ⟨utf8 "y", rfl⟩ (solid rfl) nofun (by decide) .nil)
  obtain ⟨read, array, plain⟩ := rendering_recognised rendering before after
  exact ⟨read, array .run _ _ rfl (by decide) flags,
    plain _ _ (by intro keyword; cases keyword <;> decide)⟩

theorem quote_mem_of_items {kinds : List Kind} {text : List Char} (items : Items Value kinds text)
    (literal : ∀ kind ∈ kinds, kind = .string) : '\x22' ∈ text := by
  have quoted {text : List Char} (written : Value .string text) : '\x22' ∈ text := by
    cases written with
    | string written => cases written; exact List.mem_cons_self
  cases items with
  | last before written after =>
      obtain rfl := literal _ List.mem_cons_self
      simp [quoted written]
  | cons before written after later =>
      obtain rfl := literal _ List.mem_cons_self
      simp [quoted written]

/-- A text is read exactly if it is an array of strings and `null`, and an argument has array form
exactly if the keyword takes an array and it is such an array behind its flags.  An element of
another kind, at any place, makes it unreadable and plain text. -/
theorem array_of_strings_or_null (text : Bytes) :
    ((read? text).isSome = true ↔
      ∃ kinds, Holds Value kinds text ∧ ∀ kind ∈ kinds, Admits kind) ∧
    (∀ kinds, Holds Value kinds text → (∃ kind ∈ kinds, ¬ Admits kind) → read? text = none) ∧
    (∀ word, classify word text = .array ↔
      (∃ keyword : Keyword, word.toUpper = keyword.spelling ∧ keyword.hasArrayForm = true) ∧
        ∃ kinds, Carries Value kinds text ∧ ∀ kind ∈ kinds, Admits kind) ∧
    ∀ word kinds, Carries Value kinds text → (∃ kind ∈ kinds, ¬ Admits kind) →
      classify word text = .plain := by
  refine ⟨StringArray.isSome_read?_iff, fun kinds => StringArray.read?_of_not_admits, ?_, ?_⟩
  · intro word
    rw [classify_eq_array_iff_spelled, StringArray.isSome_read?_iff]
    simp only [carries_iff]
  · intro word kinds carries other
    apply classify_eq_plain
    intro array
    obtain ⟨-, found⟩ := classify_eq_array_iff_spelled.mp array
    rw [StringArray.read?_of_not_admits (carries_iff.mp carries) other] at found
    cases found

/-- A `null` passes for a string: the array of it is read as an empty string and has array form, but
it is no array of string literals. -/
theorem null_passes_for_string :
    Holds Value [.null] (utf8 "[null]") ∧ read? (utf8 "[null]") = some [utf8 ""] ∧
    classify (utf8 "CMD") (utf8 "[null]") = .array ∧
    ¬ ∃ kinds, Holds Value kinds (utf8 "[null]") ∧ ∀ kind ∈ kinds, kind = .string := by
  have none : Json.IsGap [] := nofun
  have array : Enclosed Value '[' ']' _ _ := .filled (.last none .null none)
  refine ⟨⟨[], _, [], rfl, nofun, nofun, array⟩, rfl, rfl, ?_⟩
  rintro ⟨kinds, ⟨front, core, back, whole, before, after, array⟩, literal⟩
  have same := StringArray.strip_eq before after array
  rw [← whole] at same
  cases array with
  | @empty gap between =>
      have name : 'n' ∈ StringArray.strip (utf8 "[null]").chars := by decide
      have inside : 'n' ∈ gap := by simpa [same] using name
      exact absurd (between _ inside) (by decide)
  | filled items =>
      have quote : '\x22' ∉ StringArray.strip (utf8 "[null]").chars := by decide
      rw [same] at quote
      exact quote (by simp [quote_mem_of_items items literal])

end Form

end Dockerfile
