import Dockerfile.Proofs.Json.Grammar

/-!
# Tokens and what they are written as

Reading a string literal, and a token of the kinds that arrays of strings are made of, is the
inverse of writing it: what is written is read whatever follows, and what is read was written in
front.  So a text is cut into such tokens exactly if it is these tokens with white space around
them.
-/

namespace Dockerfile

namespace Json

/-! ## String literals -/

theorem hexValue?_eq_some_iff {c : Char} {n : Nat} : hexValue? c = some n ↔ IsHexDigit c n := by
  constructor
  · intro found
    have small : c.toNat < 0x67 := by
      unfold hexValue? at found
      dsimp only at found
      repeat' split at found
      all_goals first | omega | cases found
    have table : ∀ m < 0x67, ∀ n ∈ hexValue? (Char.ofNat m),
        lowerDigits[n]? = some (Char.ofNat m) ∨ upperDigits[n]? = some (Char.ofNat m) := by
      decide
    simpa [IsHexDigit] using table c.toNat small n (by simpa using found)
  · have lower : ∀ digit ∈ lowerDigits.zipIdx, hexValue? digit.1 = some digit.2 := by decide
    have upper : ∀ digit ∈ upperDigits.zipIdx, hexValue? digit.1 = some digit.2 := by decide
    rintro (found | found)
    · exact lower (c, n) (List.mem_zipIdx_iff_getElem?.mpr found)
    · exact upper (c, n) (List.mem_zipIdx_iff_getElem?.mpr found)

theorem unit?_eq_some_iff {n : Nat} {a b c d : Char} :
    unit? a b c d = some n ↔ IsUnit n a b c d := by
  unfold unit? IsUnit
  simp only [← hexValue?_eq_some_iff]
  constructor
  · intro found
    split at found
    · rename_i i j k l one two three four
      exact ⟨i, j, k, l, one, two, three, four, (Option.some.inj found).symm⟩
    · cases found
  · rintro ⟨i, j, k, l, one, two, three, four, rfl⟩
    simp [one, two, three, four]

theorem shortEscape?_eq_some_iff {e c : Char} :
    shortEscape? e = some c ↔ (e, c) ∈ shortEscapes := by
  constructor
  · intro found
    unfold shortEscape? at found
    split at found
    all_goals first | cases found; decide | cases found
  · have table : ∀ entry ∈ shortEscapes, shortEscape? entry.1 = some entry.2 := by decide
    exact table (e, c)

section

variable (rest : List Char)

theorem readParts_raw {c : Char} (visible : 0x20 ≤ c.toNat) (noQuote : c ≠ '\x22')
    (noEscape : c ≠ '\x5c') : readParts (c :: rest) =
      (readParts rest).map fun (parts, size) => (.char c :: parts, size + 1) := by
  rw [readParts]
  · rw [if_neg (by simp [noEscape, visible])]
    cases readParts rest <;> rfl
  all_goals simp_all

theorem readParts_short {e c : Char} (listed : (e, c) ∈ shortEscapes) :
    readParts ('\x5c' :: e :: rest) =
      (readParts rest).map fun (parts, size) => (.char c :: parts, size + 2) := by
  rw [readParts]
  · rw [shortEscape?_eq_some_iff.mpr listed]
    cases readParts rest <;> rfl
  · rintro a b c d rest rfl
    simp [shortEscapes] at listed

theorem readParts_unit {n : Nat} {a b c d : Char} (digits : IsUnit n a b c d) :
    readParts ('\x5c' :: 'u' :: a :: b :: c :: d :: rest) =
      (readParts rest).map fun (parts, size) => (.unit n :: parts, size + 6) := by
  rw [readParts, unit?_eq_some_iff.mpr digits]
  cases readParts rest <;> rfl

end

/-- What is written up to a closing quote is read, whatever follows. -/
theorem readParts_of_areWritten {parts : List Part} {body : List Char}
    (written : Part.AreWritten parts body) (rest : List Char) :
    readParts (body ++ '\x22' :: rest) = some (parts, body.length + 1) := by
  induction written with
  | nil => rfl
  | cons first later ih =>
      cases first with
      | raw visible noQuote noEscape =>
          simp [readParts_raw _ visible noQuote noEscape, ih]
      | short listed => simp [readParts_short _ listed, ih]
      | unit digits => simp [readParts_unit _ digits, ih]

/-- In front of a text, the given parts are written and then a closing quote; so many characters are
taken by both. -/
def ClosesAfter (text : List Char) (parts : List Part) (size : Nat) : Prop :=
  ∃ body rest, text = body ++ '\x22' :: rest ∧ size = body.length + 1 ∧ Part.AreWritten parts body

theorem ClosesAfter.cons {part : Part} {text more : List Char} {parts : List Part} {size : Nat}
    (first : Part.IsWritten part text) (later : ClosesAfter more parts size) :
    ClosesAfter (text ++ more) (part :: parts) (size + text.length) := by
  obtain ⟨body, rest, rfl, rfl, written⟩ := later
  refine ⟨text ++ body, rest, by simp, ?_, .cons first written⟩
  rw [List.length_append]
  omega

/-- What is read was written up to a closing quote. -/
theorem closesAfter_of_readParts {text : List Char} {parts : List Part} {size : Nat}
    (found : readParts text = some (parts, size)) : ClosesAfter text parts size := by
  fun_induction readParts text generalizing parts size with
  | case1 => cases found
  | case2 rest =>
      cases found
      exact ⟨[], rest, rfl, rfl, .nil⟩
  | case3 a b c d rest n parts size read digits ih =>
      cases found
      exact (ih read).cons (.unit (unit?_eq_some_iff.mp digits))
  | case4 => cases found
  | case5 e rest noUnit c parts size read listed ih =>
      cases found
      exact (ih read).cons (.short (shortEscape?_eq_some_iff.mp listed))
  | case6 => cases found
  | case7 => cases found
  | case8 c rest noQuote noUnit noShort plain parts size read ih =>
      cases found
      simp only [Bool.or_eq_true, beq_iff_eq, decide_eq_true_eq, not_or, Nat.not_lt] at plain
      exact (ih read).cons (.raw plain.2 noQuote plain.1)
  | case9 => cases found

/-! ## Tokens -/

namespace Token

/-- The tokens that arrays of strings are made of, as they are written; `null` is among them. -/
inductive IsWritten : Token → List Char → Prop
  | openArray : IsWritten .openArray ['[']
  | closeArray : IsWritten .closeArray [']']
  | comma : IsWritten .comma [',']
  | null : IsWritten .null ['n', 'u', 'l', 'l']
  | string {parts : List Part} {text : List Char} (written : IsLiteral parts text) :
      IsWritten (.string (joinParts parts)) text

def isForeign : Token → Bool
  | .openObject | .closeObject | .colon | .boolean _ | .number _ => true
  | _ => false

end Token

variable {token : Token} {tokens : List Token}

theorem readToken_of_isWritten {text : List Char} (written : token.IsWritten text)
    (rest : List Char) : readToken (text ++ rest) = some (token, text.length) := by
  cases written with
  | openArray => rfl
  | closeArray => rfl
  | comma => rfl
  | null => rfl
  | string written =>
      cases written with
      | intro written =>
          have read := readParts_of_areWritten written rest
          simp [readToken, read]

theorem isWritten_of_readToken {text : List Char} {size : Nat}
    (found : readToken text = some (token, size)) (native : token.isForeign = false) :
    ∃ front rest, text = front ++ rest ∧ size = front.length ∧ token.IsWritten front := by
  unfold readToken at found
  split at found
  · cases found
    exact ⟨['['], _, rfl, rfl, .openArray⟩
  · cases found
    exact ⟨[']'], _, rfl, rfl, .closeArray⟩
  · cases found
    cases native
  · cases found
    cases native
  · cases found
    exact ⟨[','], _, rfl, rfl, .comma⟩
  · cases found
    cases native
  · cases found
    exact ⟨['n', 'u', 'l', 'l'], _, rfl, rfl, .null⟩
  · cases found
    cases native
  · cases found
    cases native
  · obtain ⟨⟨parts, taken⟩, read, same⟩ := Option.map_eq_some_iff.mp found
    cases same
    obtain ⟨body, rest, rfl, rfl, written⟩ := closesAfter_of_readParts read
    exact ⟨'\x22' :: (body ++ ['\x22']), rest, by simp, by simp, .string (.intro written)⟩
  · obtain ⟨literal, -, same⟩ := Option.map_eq_some_iff.mp found
    cases same
    cases native

/-! ## Cutting into tokens -/

theorem isSpace_iff {c : Char} :
    isSpace c = true ↔ c = ' ' ∨ c = '\t' ∨ c = '\n' ∨ c = '\r' := by
  simp [isSpace, or_assoc]

theorem lexFrom_eq_drop (skip : Nat) (text : List Char) :
    lexFrom skip text = lexFrom 0 (text.drop skip) := by
  induction text generalizing skip with
  | nil => simp [lexFrom]
  | cons c rest ih =>
      cases skip with
      | zero => rfl
      | succ skip => exact ih skip

theorem lex_gap {gap : List Char} (isGap : IsGap gap) (rest : List Char) :
    lex (gap ++ rest) = lex rest := by
  induction gap with
  | nil => rfl
  | cons c gap ih =>
      obtain ⟨space, more⟩ := List.forall_mem_cons.mp isGap
      rw [List.cons_append, lex, lexFrom, if_pos (isSpace_iff.mpr space)]
      exact ih more

/-- What follows a token does not depend on it. -/
theorem lex_of_readToken {c : Char} {rest : List Char} {size : Nat} (solid : isSpace c = false)
    (found : readToken (c :: rest) = some (token, size + 1)) :
    lex (c :: rest) = (lex (rest.drop size)).map (token :: ·) := by
  rw [lex, lexFrom, if_neg (by simp [solid]), found]
  exact congrArg (Option.map (token :: ·)) (lexFrom_eq_drop size rest)

theorem Token.IsWritten.exists_solid_head {text : List Char} (written : token.IsWritten text) :
    ∃ c rest, text = c :: rest ∧ isSpace c = false := by
  cases written with
  | openArray => exact ⟨_, _, rfl, rfl⟩
  | closeArray => exact ⟨_, _, rfl, rfl⟩
  | comma => exact ⟨_, _, rfl, rfl⟩
  | null => exact ⟨_, _, rfl, rfl⟩
  | string written =>
      cases written
      exact ⟨_, _, rfl, rfl⟩

/-- A written token is the first one. -/
theorem lex_of_isWritten {text : List Char} (written : token.IsWritten text) (rest : List Char) :
    lex (text ++ rest) = (lex rest).map (token :: ·) := by
  have read := readToken_of_isWritten written rest
  obtain ⟨c, more, rfl, solid⟩ := written.exists_solid_head
  rw [List.cons_append] at read ⊢
  rw [lex_of_readToken solid read, List.drop_left]

/-- A text that starts with no white space has a first token, and the others are cut from what
follows it. -/
theorem exists_readToken_of_lex {c : Char} {rest : List Char} (solid : isSpace c = false)
    (found : lex (c :: rest) = some tokens) :
    ∃ token size later, tokens = token :: later ∧ readToken (c :: rest) = some (token, size) ∧
      lex (rest.drop (size - 1)) = some later := by
  rw [lex, lexFrom, if_neg (by simp [solid])] at found
  split at found
  · cases found
  · rename_i token size read
    obtain ⟨later, others, rfl⟩ := Option.map_eq_some_iff.mp found
    rw [lexFrom_eq_drop] at others
    exact ⟨token, size, later, rfl, read, others⟩

theorem exists_gap (text : List Char) :
    ∃ gap rest, text = gap ++ rest ∧ IsGap gap ∧ ∀ c, rest.head? = some c → isSpace c = false := by
  refine ⟨text.takeWhile isSpace, text.dropWhile isSpace, ?_, ?_, ?_⟩
  · rw [List.takeWhile_append_dropWhile]
  · intro c member
    exact isSpace_iff.mp (List.all_eq_true.mp List.all_takeWhile c member)
  · intro c head
    have stops := List.head?_dropWhile_not isSpace text
    rw [head] at stops
    exact stops

theorem isGap_of_lex {text : List Char} (found : lex text = some []) : IsGap text := by
  obtain ⟨gap, rest, rfl, isGap, solid⟩ := exists_gap text
  rw [lex_gap isGap] at found
  cases rest with
  | nil => rwa [List.append_nil]
  | cons c rest =>
      obtain ⟨token, size, later, same, -⟩ := exists_readToken_of_lex (solid c rfl) found
      cases same

theorem exists_isWritten_of_lex {text : List Char} (found : lex text = some (token :: tokens))
    (native : token.isForeign = false) :
    ∃ gap front rest, text = gap ++ (front ++ rest) ∧ IsGap gap ∧ token.IsWritten front ∧
      lex rest = some tokens := by
  obtain ⟨gap, rest, rfl, isGap, solid⟩ := exists_gap text
  rw [lex_gap isGap] at found
  cases rest with
  | nil => cases found
  | cons c more =>
      obtain ⟨_, size, _, ⟨⟩, read, others⟩ := exists_readToken_of_lex (solid c rfl) found
      obtain ⟨front, rest, split, rfl, written⟩ := isWritten_of_readToken read native
      obtain ⟨first, tail, rfl, -⟩ := written.exists_solid_head
      obtain ⟨rfl, rfl⟩ := List.cons.inj split
      refine ⟨gap, c :: tail, rest, by simp, isGap, written, ?_⟩
      simpa using others

end Json

end Dockerfile
