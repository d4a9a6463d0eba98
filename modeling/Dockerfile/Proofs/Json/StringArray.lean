import Dockerfile.Json.StringArray
import Dockerfile.Proofs.Json.Lexing
import Dockerfile.Text.Encoding
import Mathlib.Data.List.Forall2

/-!
# Which texts are read as arrays of strings

A text is read as an array of strings exactly if, white space around it apart, it is a JSON array
whose elements are string literals or `null`, and then the elements are read in order, `null` as the
empty string.  Every way to write a list of strings is among these texts and is read as that list,
and no array that has an element of another kind is among them.
-/

namespace Dockerfile

open Json (IsGap Items Enclosed Token Kind lex)

namespace Json

section

variable {α β : Type} {item : α → List Char → Prop} {other : β → List Char → Prop}
  {related : α → β → Prop}

theorem Items.relabel {items : List α} {text : List Char} (written : Items item items text)
    (each : ∀ a ∈ items, ∀ text, item a text → ∃ b, other b text ∧ related a b) :
    ∃ others, Items other others text ∧ List.Forall₂ related items others := by
  induction written with
  | last before written after =>
      obtain ⟨b, writes, same⟩ := each _ List.mem_cons_self _ written
      exact ⟨[b], .last before writes after, .cons same .nil⟩
  | cons before written after later ih =>
      obtain ⟨b, writes, same⟩ := each _ List.mem_cons_self _ written
      obtain ⟨others, more, rest⟩ := ih fun a member => each a (List.mem_cons_of_mem _ member)
      exact ⟨b :: others, .cons before writes after more, .cons same rest⟩

theorem Enclosed.relabel {left right : Char} {items : List α} {text : List Char}
    (written : Enclosed item left right items text)
    (each : ∀ a ∈ items, ∀ text, item a text → ∃ b, other b text ∧ related a b) :
    ∃ others, Enclosed other left right others text ∧ List.Forall₂ related items others := by
  cases written with
  | empty between => exact ⟨[], .empty between, .nil⟩
  | filled written =>
      obtain ⟨others, writes, same⟩ := written.relabel each
      exact ⟨others, .filled writes, same⟩

end

end Json

namespace StringArray

def IsElement (value text : List Char) : Prop :=
  ∃ token, element? token = some value ∧ token.IsWritten text

theorem native_of_element? {token : Token} {value : List Char}
    (found : element? token = some value) : token.isForeign = false := by
  cases token with
  | null => rfl
  | string literal => rfl
  | _ => cases found

/-! ## The elements in brackets -/

theorem lex_comma (text : List Char) : lex (',' :: text) = (lex text).map (.comma :: ·) :=
  Json.lex_of_isWritten .comma text

theorem exists_tokens_of_items {values : List (List Char)} {body : List Char}
    (items : Items IsElement values body) :
    ∃ tokens, lex (body ++ [']']) = some tokens ∧ elements? tokens = some values := by
  induction items with
  | last before written after =>
      obtain ⟨token, reads, written⟩ := written
      refine ⟨[token, .closeArray], ?_, by simp [elements?, reads]⟩
      have close : lex [']'] = some [.closeArray] := rfl
      simp [Json.lex_gap before, Json.lex_of_isWritten written, Json.lex_gap after, close]
  | cons before written after later ih =>
      obtain ⟨token, reads, written⟩ := written
      obtain ⟨tokens, cut, rest⟩ := ih
      refine ⟨token :: .comma :: tokens, ?_, by simp [elements?, reads, rest]⟩
      simp [Json.lex_gap before, Json.lex_of_isWritten written, Json.lex_gap after, lex_comma, cut]

/-- Tokens that are read as elements were written as these elements, up to the closing bracket. -/
theorem items_of_elements? {tokens : List Token} {values : List (List Char)} {text : List Char}
    (found : elements? tokens = some values) (cut : lex text = some tokens) :
    ∃ body gap, text = body ++ ']' :: gap ∧ IsGap gap ∧ Items IsElement values body := by
  fun_induction elements? tokens generalizing values text with
  | case1 token =>
      obtain ⟨value, reads, rfl⟩ := Option.map_eq_some_iff.mp found
      obtain ⟨front, spelled, rest, rfl, before, written, rest'⟩ :=
        Json.exists_isWritten_of_lex cut (native_of_element? reads)
      obtain ⟨back, _, gap, rfl, after, ⟨⟩, none⟩ := Json.exists_isWritten_of_lex rest' rfl
      exact ⟨front ++ (spelled ++ back), gap, by simp, Json.isGap_of_lex none,
        .last before ⟨token, reads, written⟩ after⟩
  | case2 token later value values' read reads ih =>
      cases found
      obtain ⟨front, spelled, rest, rfl, before, written, rest'⟩ :=
        Json.exists_isWritten_of_lex cut (native_of_element? reads)
      obtain ⟨back, _, more, rfl, after, ⟨⟩, cut'⟩ := Json.exists_isWritten_of_lex rest' rfl
      obtain ⟨body, gap, rfl, isGap, items⟩ := ih read cut'
      exact ⟨front ++ (spelled ++ (back ++ ',' :: body)), gap, by simp, isGap,
        .cons before ⟨token, reads, written⟩ after items⟩
  | case3 => cases found
  | case4 => cases found

theorem ofTokens?_openArray {tokens : List Token} (filled : tokens ≠ [.closeArray]) :
    ofTokens? (.openArray :: tokens) = elements? tokens := by
  rw [ofTokens?]
  exact filled

theorem lex_openArray (text : List Char) : lex ('[' :: text) = (lex text).map (.openArray :: ·) :=
  Json.lex_of_isWritten .openArray text

theorem exists_tokens_of_enclosed {values : List (List Char)} {core : List Char}
    (array : Enclosed IsElement '[' ']' values core) :
    ∃ tokens, lex core = some tokens ∧ ofTokens? tokens = some values := by
  cases array with
  | empty between =>
      refine ⟨[.openArray, .closeArray], ?_, rfl⟩
      rw [lex_openArray, Json.lex_gap between]
      rfl
  | filled items =>
      obtain ⟨tokens, cut, read⟩ := exists_tokens_of_items items
      refine ⟨.openArray :: tokens, by rw [lex_openArray, cut]; rfl, ?_⟩
      rw [ofTokens?_openArray, read]
      rintro rfl
      cases read

/-- Tokens that are read as an array were written as that array, with white space around it. -/
theorem enclosed_of_ofTokens? {tokens : List Token} {values : List (List Char)} {text : List Char}
    (found : ofTokens? tokens = some values) (cut : lex text = some tokens) :
    ∃ front core back, text = front ++ (core ++ back) ∧ IsGap front ∧ IsGap back ∧
      Enclosed IsElement '[' ']' values core := by
  unfold ofTokens? at found
  split at found
  · cases found
    obtain ⟨front, _, rest, rfl, before, ⟨⟩, rest'⟩ := Json.exists_isWritten_of_lex cut rfl
    obtain ⟨gap, _, back, rfl, between, ⟨⟩, none⟩ := Json.exists_isWritten_of_lex rest' rfl
    exact ⟨front, '[' :: (gap ++ [']']), back, by simp, before, Json.isGap_of_lex none,
      .empty between⟩
  · obtain ⟨front, _, rest, rfl, before, ⟨⟩, rest'⟩ := Json.exists_isWritten_of_lex cut rfl
    obtain ⟨body, back, rfl, after, items⟩ := items_of_elements? found rest'
    exact ⟨front, '[' :: (body ++ [']']), back, by simp, before, after, .filled items⟩
  · cases found

/-! ## White space around the array -/

def AllWhite (text : List Char) : Prop :=
  ∀ c ∈ text, isWhiteSpace c = true

theorem AllWhite.append {left right : List Char} (first : AllWhite left) (second : AllWhite right) :
    AllWhite (left ++ right) :=
  List.forall_mem_append.mpr ⟨first, second⟩

theorem allWhite_of_isGap {gap : List Char} (isGap : IsGap gap) : AllWhite gap := by
  intro c member
  rcases isGap c member with rfl | rfl | rfl | rfl <;> rfl

theorem exists_strip (text : List Char) :
    ∃ front back, text = front ++ (strip text ++ back) ∧ AllWhite front ∧ AllWhite back := by
  refine ⟨text.takeWhile isWhiteSpace,
    ((text.dropWhile isWhiteSpace).reverse.takeWhile isWhiteSpace).reverse, ?_, ?_, ?_⟩
  · rw [strip, ← List.reverse_append, List.takeWhile_append_dropWhile, List.reverse_reverse,
      List.takeWhile_append_dropWhile]
  · exact List.all_eq_true.mp List.all_takeWhile
  · intro c member
    exact List.all_eq_true.mp List.all_takeWhile c (List.mem_reverse.mp member)

theorem strip_eq {α : Type} {item : α → List Char → Prop} {items : List α}
    {front core back : List Char} (before : AllWhite front) (after : AllWhite back)
    (array : Enclosed item '[' ']' items core) : strip (front ++ (core ++ back)) = core := by
  obtain ⟨body, rfl⟩ : ∃ body, core = '[' :: (body ++ [']']) := by
    cases array with
    | empty => exact ⟨_, rfl⟩
    | filled => exact ⟨_, rfl⟩
  have after' : ∀ c ∈ back.reverse, isWhiteSpace c = true :=
    fun c member => after c (List.mem_reverse.mp member)
  rw [strip, List.dropWhile_append_of_pos before, List.cons_append,
    List.dropWhile_cons_of_neg (by decide)]
  simp [List.dropWhile_append_of_pos after', show isWhiteSpace ']' = false by decide]

/-- The text is a JSON array of the items with white space around it; a stray byte counts as the
replacement character. -/
def Holds {α : Type} (item : α → List Char → Prop) (items : List α) (text : Bytes) : Prop :=
  ∃ front core back, text.chars = front ++ (core ++ back) ∧ AllWhite front ∧ AllWhite back ∧
    Enclosed item '[' ']' items core

/-- A text is read as an array of strings exactly if it holds one. -/
theorem read?_eq_some_iff {text : Bytes} {strings : List Bytes} :
    read? text = some strings ↔
      ∃ values, Holds IsElement values text ∧ strings = values.map Bytes.ofChars := by
  unfold read?
  constructor
  · intro found
    split at found
    · rename_i tokens cut
      obtain ⟨values, read, rfl⟩ := Option.map_eq_some_iff.mp found
      obtain ⟨gap, core, gap', split, isGap, isGap', array⟩ := enclosed_of_ofTokens? read cut
      obtain ⟨front, back, whole, before, after⟩ := exists_strip text.chars
      refine ⟨values, ⟨front ++ gap, core, gap' ++ back, ?_, ?_, ?_, array⟩, rfl⟩
      · rw [whole, split]
        simp
      · exact before.append (allWhite_of_isGap isGap)
      · exact (allWhite_of_isGap isGap').append after
    · cases found
  · rintro ⟨values, ⟨front, core, back, whole, before, after, array⟩, rfl⟩
    obtain ⟨tokens, cut, read⟩ := exists_tokens_of_enclosed array
    rw [whole, strip_eq before after array, cut]
    simp [read]

/-! ## Every way to write strings -/

end StringArray

namespace Json

/-- A unit that is the number of a character stands for that character, whatever follows. -/
theorem joinParts_unit (c : Char) (parts : List Part) :
    joinParts (.unit c.toNat :: parts) = c :: joinParts parts := by
  have valid : c.toNat < 0xd800 ∨ 0xdfff < c.toNat ∧ c.toNat < 0x110000 := c.valid
  have noHigh : isHighSurrogate c.toNat = false := by
    simp only [isHighSurrogate, Bool.and_eq_false_iff, decide_eq_false_iff_not]
    omega
  have noLow : isLowSurrogate c.toNat = false := by
    simp only [isLowSurrogate, Bool.and_eq_false_iff, decide_eq_false_iff_not]
    omega
  cases parts with
  | nil => simp [joinParts, loneUnit, noHigh, noLow]
  | cons part parts =>
      cases part with
      | char other => simp [joinParts, loneUnit, noHigh, noLow]
      | unit low => simp [joinParts, loneUnit, noHigh, noLow]

/-- Two units of a surrogate pair stand for the character that they make up. -/
theorem joinParts_pair {c : Char} {high low : Nat} (isHigh : 0xd800 ≤ high ∧ high < 0xdc00)
    (isLow : 0xdc00 ≤ low ∧ low < 0xe000)
    (number : c.toNat = 0x10000 + (high - 0xd800) * 0x400 + (low - 0xdc00)) (parts : List Part) :
    joinParts (.unit high :: .unit low :: parts) = c :: joinParts parts := by
  rw [joinParts, if_pos (by simp [isHighSurrogate, isLowSurrogate, isHigh, isLow]), ← number,
    Char.ofNat_toNat]

/-- However the characters of a string are written, the parts stand for them. -/
theorem SpellsAll.exists_parts {chars body : List Char} (spelled : SpellsAll chars body) :
    ∃ parts, Part.AreWritten parts body ∧ joinParts parts = chars := by
  induction spelled with
  | nil => exact ⟨[], .nil, rfl⟩
  | cons first later ih =>
      obtain ⟨parts, written, rfl⟩ := ih
      cases first with
      | char one => exact ⟨_, .cons one written, rfl⟩
      | unit one => exact ⟨_, .cons one written, joinParts_unit _ _⟩
      | pair isHigh isLow number one two =>
          rw [List.append_assoc]
          exact ⟨_, .cons one (.cons two written), joinParts_pair isHigh isLow number _⟩

end Json

namespace StringArray

open Json (Renders Value)

theorem isElement_of_renders {value : String} {text : List Char} (renders : Renders value text) :
    IsElement value.toList text := by
  cases renders with
  | intro spelled =>
      obtain ⟨parts, written, same⟩ := spelled.exists_parts
      exact ⟨.string (Json.joinParts parts), by rw [same]; rfl, .string (.intro written)⟩

/-- A list of strings is read back from every way to write it. -/
theorem read?_of_renders {values : List String} {text : Bytes} (holds : Holds Renders values text) :
    read? text = some (values.map utf8) := by
  obtain ⟨front, core, back, whole, before, after, array⟩ := holds
  have each : ∀ value ∈ values, ∀ text, Renders value text →
      ∃ other, IsElement other text ∧ value.toList = other :=
    fun value _ text renders => ⟨_, isElement_of_renders renders, rfl⟩
  obtain ⟨others, elements, same⟩ := array.relabel each
  obtain rfl : values.map String.toList = others := by
    rwa [← List.forall₂_map_left_iff, List.forall₂_eq_eq_eq] at same
  refine read?_eq_some_iff.mpr ⟨_, ⟨front, core, back, whole, before, after, elements⟩, ?_⟩
  rw [List.map_map]
  rfl

/-! ## Elements of other kinds -/

/-- The kinds of values that may stand for a string. -/
def Admits (kind : Kind) : Prop :=
  kind = .string ∨ kind = .null

theorem exists_admitted {value text : List Char} (element : IsElement value text) :
    ∃ kind, Value kind text ∧ Admits kind := by
  obtain ⟨token, reads, written⟩ := element
  cases written with
  | null => exact ⟨.null, .null, Or.inr rfl⟩
  | string written => exact ⟨.string, .string written, Or.inl rfl⟩
  | _ => cases reads

theorem exists_element {kind : Kind} {text : List Char} (written : Value kind text)
    (admitted : Admits kind) : ∃ value, IsElement value text := by
  cases written with
  | null => exact ⟨[], .null, rfl, .null⟩
  | @string parts _ written => exact ⟨Json.joinParts parts, _, rfl, .string written⟩
  | _ => rcases admitted with same | same <;> cases same

/-- What strings, `null` and a closing bracket do not start with. -/
def StartsOtherwise (text : List Char) : Prop :=
  ∃ c rest, text = c :: rest ∧ Json.isSpace c = false ∧ c ≠ '\x22' ∧ c ≠ 'n' ∧ c ≠ ']'

theorem startsOtherwise_of_isDigit {c : Char} (digit : c.isDigit = true) (rest : List Char) :
    StartsOtherwise (c :: rest) := by
  refine ⟨c, rest, rfl, ?_, ?_, ?_, ?_⟩
  · cases space : Json.isSpace c with
    | false => rfl
    | true => rcases Json.isSpace_iff.mp space with rfl | rfl | rfl | rfl <;> cases digit
  all_goals
    rintro rfl
    cases digit

theorem startsOtherwise_of_isNumber {text : List Char} (number : Json.IsNumber text) :
    StartsOtherwise text := by
  cases number with
  | @intro sign whole fraction exponent signed counted parted raised =>
      rcases signed with rfl | rfl
      · rcases counted with rfl | ⟨⟨filled, digits⟩, -⟩
        · exact startsOtherwise_of_isDigit rfl _
        · obtain ⟨c, more, rfl⟩ := List.exists_cons_of_ne_nil filled
          exact startsOtherwise_of_isDigit (digits c List.mem_cons_self) _
      · exact ⟨'-', _, rfl, rfl, by decide, by decide, by decide⟩

theorem startsOtherwise_of_not_admits {kind : Kind} {text : List Char} (written : Value kind text)
    (other : ¬ Admits kind) : StartsOtherwise text := by
  cases written with
  | null => exact absurd (Or.inr rfl) other
  | string => exact absurd (Or.inl rfl) other
  | yes => exact ⟨'t', _, rfl, rfl, by decide, by decide, by decide⟩
  | no => exact ⟨'f', _, rfl, rfl, by decide, by decide, by decide⟩
  | number written => exact startsOtherwise_of_isNumber written
  | array written => cases written <;> exact ⟨'[', _, rfl, rfl, by decide, by decide, by decide⟩
  | object written =>
      cases written <;> exact ⟨'\x7b', _, rfl, rfl, by decide, by decide, by decide⟩

theorem StartsOtherwise.exists_token {text : List Char} (starts : StartsOtherwise text)
    {rest : List Char} {tokens : List Token} (cut : lex (text ++ rest) = some tokens) :
    ∃ token later, tokens = token :: later ∧ element? token = none ∧ token ≠ .closeArray := by
  obtain ⟨c, more, rfl, solid, noQuote, noName, noBracket⟩ := starts
  obtain ⟨token, size, later, rfl, read, -⟩ := Json.exists_readToken_of_lex solid cut
  refine ⟨token, later, rfl, ?_⟩
  cases foreign : token.isForeign with
  | true =>
      cases token with
      | openArray | closeArray | comma | null | string => cases foreign
      | openObject | closeObject | colon | boolean | number => exact ⟨rfl, nofun⟩
  | false =>
      -- An element or a bracket is written in front, so it begins with its own character.
      obtain ⟨front, others, split, -, written⟩ := Json.isWritten_of_readToken read foreign
      cases written with
      | openArray | comma => exact ⟨rfl, nofun⟩
      | closeArray => exact absurd (List.cons.inj split).1 noBracket
      | null => exact absurd (List.cons.inj split).1 noName
      | string written =>
          cases written
          exact absurd (List.cons.inj split).1 noQuote

theorem elements?_of_startsOtherwise {text rest : List Char} (starts : StartsOtherwise text)
    {tokens : List Token} (cut : lex (text ++ rest) = some tokens) :
    elements? tokens = none ∧ tokens ≠ [.closeArray] := by
  obtain ⟨token, later, rfl, refused, noBracket⟩ := starts.exists_token cut
  refine ⟨?_, by simp [noBracket]⟩
  unfold elements?
  split
  · simp_all
  · simp_all
  · rfl

/-- Items of which one is of another kind are not read as elements. -/
theorem elements?_of_not_admits {kinds : List Kind} {body : List Char}
    (items : Items Value kinds body) (other : ∃ kind ∈ kinds, ¬ Admits kind) {rest : List Char}
    {tokens : List Token} (cut : lex (body ++ rest) = some tokens) :
    elements? tokens = none ∧ tokens ≠ [.closeArray] := by
  -- The tokens are followed up to the first item of another kind; what comes after it is not read.
  induction items generalizing tokens with
  | @last kind front text back before written after =>
      rw [List.append_assoc, Json.lex_gap before, List.append_assoc] at cut
      have refused : ¬ Admits kind := by simpa using other
      exact elements?_of_startsOtherwise (startsOtherwise_of_not_admits written refused) cut
  | @cons kind kinds front text back more before written after later ih =>
      rw [List.append_assoc, Json.lex_gap before, List.append_assoc] at cut
      by_cases admitted : Admits kind
      · have others : ∃ kind ∈ kinds, ¬ Admits kind := by simpa [admitted] using other
        obtain ⟨value, token, reads, spelled⟩ := exists_element written admitted
        rw [Json.lex_of_isWritten spelled, List.append_assoc, Json.lex_gap after,
          List.cons_append, lex_comma, Option.map_map, Option.map_eq_some_iff] at cut
        obtain ⟨tokens, cutMore, rfl⟩ := cut
        exact ⟨by simp [elements?, (ih others cutMore).1], by simp⟩
      · exact elements?_of_startsOtherwise (startsOtherwise_of_not_admits written admitted) cut

/-- An array that has an element of another kind is not read. -/
theorem read?_of_not_admits {kinds : List Kind} {text : Bytes} (holds : Holds Value kinds text)
    (other : ∃ kind ∈ kinds, ¬ Admits kind) : read? text = none := by
  obtain ⟨front, core, back, whole, before, after, array⟩ := holds
  rw [read?, whole, strip_eq before after array]
  cases array with
  | empty => simp at other
  | @filled _ body items =>
      rw [lex_openArray]
      cases cut : lex (body ++ [']']) with
      | none => rfl
      | some tokens =>
          obtain ⟨refused, filled⟩ := elements?_of_not_admits items other cut
          simp [ofTokens?_openArray filled, refused]

/-- What is read is exactly an array of strings and `null`. -/
theorem isSome_read?_iff {text : Bytes} :
    (read? text).isSome = true ↔
      ∃ kinds, Holds Value kinds text ∧ ∀ kind ∈ kinds, Admits kind := by
  rw [Option.isSome_iff_exists]
  constructor
  · rintro ⟨strings, found⟩
    obtain ⟨values, ⟨front, core, back, whole, before, after, array⟩, -⟩ :=
      read?_eq_some_iff.mp found
    obtain ⟨kinds, elements, related⟩ : ∃ kinds, Enclosed Value '[' ']' kinds core ∧
        List.Forall₂ (fun _ => Admits) values kinds :=
      array.relabel fun _ _ _ => exists_admitted
    refine ⟨kinds, ⟨front, core, back, whole, before, after, elements⟩, ?_⟩
    exact ((List.forall₂_and_left kinds values).mp
      (related.flip.imp fun _ _ admits => ⟨admits, trivial⟩)).1
  · rintro ⟨kinds, ⟨front, core, back, whole, before, after, array⟩, admitted⟩
    have each : ∀ kind ∈ kinds, ∀ text, Value kind text → ∃ value, IsElement value text ∧ True :=
      fun kind member text written => by simpa using exists_element written (admitted kind member)
    obtain ⟨values, elements, -⟩ := array.relabel each
    exact ⟨_, read?_eq_some_iff.mpr
      ⟨values, ⟨front, core, back, whole, before, after, elements⟩, rfl⟩⟩

end StringArray

end Dockerfile
