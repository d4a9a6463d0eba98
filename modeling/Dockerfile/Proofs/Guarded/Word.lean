import Dockerfile.Proofs.Guarded.Argument
import Dockerfile.Proofs.Stage

/-!
# Guarded words, flags and stages

The words of an argument are found by running over blanks and then over a word, byte by byte.  A
flag's name and value are cut from its word, and a stage's name is the third of the operands.  Every
word is as long as its indexes say and every flag starts with two hyphens, so all cuts are in range.
-/

namespace Dockerfile

namespace Guarded

def wordStop (text : Bytes) (start : Nat) : Run Nat :=
  loop (fun ((i, state) : Nat × Option Quote) =>
    if i < text.length then do
      let b ← entry text i
      match Quote.next state b with
      | some state => return .inl (i + 1, state)
      | none => return .inr i
    else return .inr i) (text.length + 1) (start, none)

def words (text : Bytes) : Run (List Word) :=
  loop (fun ((i, found) : Nat × List Word) =>
    if i < text.length then do
      let start ← advance Byte.isBlank text text.length i
      if text.length ≤ start then return .inr found
      else
        let stop ← wordStop text start
        let bytes ← part text start stop
        return .inl (stop, found ++ [⟨bytes, start, stop⟩])
    else return .inr found) (text.length + 1) (0, [])

def toFlag (word : Word) : Run Flag :=
  match word.text.findIdx? (· == Byte.equals) with
  | some equals => do
      let stop := word.start + equals
      let value ← part word.text (equals + 1) word.text.length
      let name ← part word.text 2 ((stop : Int) - word.start)
      return ⟨⟨name, word.start + 2, stop⟩, some ⟨value, stop + 1, word.stop⟩⟩
  | none => do
      let name ← part word.text 2 ((word.stop : Int) - word.start)
      return ⟨⟨name, word.start + 2, word.stop⟩, none⟩

def leadingFlags : List Word → Run (List Flag)
  | [] => return []
  | word :: rest =>
      if word.isFlag then return (← toFlag word) :: (← leadingFlags rest) else return []

def operands (words : List Word) : Run (List Word) :=
  match words.findIdx? (!Word.isFlag ·) with
  | some i => part words i words.length
  | none => return []

def aliasWord (argument : Argument) : Run (Option Word) := do
  let found ← operands (← words argument.text)
  if found.length < 3 then return none
  else
    let middle ← entry found 1
    if middle.text.spellsAs then return some (← entry found 2) else return none

def toStage (index : Nat) (argument : Argument) : Run (Option Stage) := do
  match ← aliasWord argument with
  | some word =>
      let span ← spanOnLine argument word.start word.stop
      let line := ((argument.segmentAt? word.start).map (·.line)).getD 0
      return some ⟨word.text, span, line, index⟩
  | none => return none

def stages : (index : Nat) → List Instruction → Run (List Stage)
  | _, [] => return []
  | index, i :: rest =>
      if i.opensStage then do
        let stage ← toStage index i.argument
        return stage.toList ++ (← stages (index + 1) rest)
      else stages index rest

theorem wordStop_eq (text : Bytes) (start : Nat) :
    wordStop text start = .ok (start + Word.length none (text.drop start)) := by
  refine loop_eq (s := (start, none))
    (fun ((i, state) : Nat × Option Quote) => i + Word.length state (text.drop i))
    (fun _ => True) (fun ((i, _) : Nat × Option Quote) => text.length - i) ?_ trivial
    (Nat.lt_succ_of_le (Nat.sub_le _ _))
  rintro ⟨i, state⟩ -
  dsimp only
  by_cases less : i < text.length
  · rw [if_pos less, entry_eq rfl (List.getElem?_eq_getElem less), ok_bind,
      List.drop_eq_getElem_cons less, Word.length]
    cases Quote.next state text[i] with
    | none => exact Or.inl rfl
    | some next =>
        refine Or.inr ⟨_, rfl, trivial, by dsimp only; omega, ?_⟩
        dsimp only
        omega
  · rw [if_neg less, List.drop_eq_nil_of_le (Nat.le_of_not_lt less)]
    exact Or.inl rfl

theorem scan_trimLeft (i : Nat) (text : Bytes) :
    Tokens.scan Word.read i 0 text =
      Tokens.scan Word.read (i + text.indent) 0 text.trimLeft := by
  induction text generalizing i with
  | nil => rfl
  | cons b rest ih =>
      by_cases blank : Byte.isBlank b = true
      · have none : Word.read i (b :: rest) = none := by
          rw [Word.read, Word.length_eq_zero_iff.mpr blank]
        rw [Tokens.scan_none _ none, ih, Bytes.indent, Bytes.indent, Bytes.trimLeft,
          Bytes.trimLeft, List.takeWhile_cons_of_pos blank, List.dropWhile_cons_of_pos blank,
          List.length_cons, Nat.add_assoc, Nat.add_comm 1]
      · rw [Bytes.indent, Bytes.trimLeft, List.takeWhile_cons_of_neg blank,
          List.dropWhile_cons_of_neg blank]
        rfl

/-- A word that starts at a byte that is no blank is the next one of the scan. -/
theorem scan_word {text : Bytes} {start : Nat} (inside : start < text.length)
    (solid : Byte.isBlank text[start] = false) :
    ∃ stop, start + Word.length none (text.drop start) = stop ∧ start < stop ∧
      stop ≤ text.length ∧ Tokens.scan Word.read start 0 (text.drop start) =
        ⟨text.slice start stop, start, stop⟩ :: Tokens.scan Word.read stop 0 (text.drop stop) := by
  have short := Word.length_le none (text.drop start)
  have cut := List.drop_eq_getElem_cons inside
  rw [List.length_drop] at short
  have filled : Word.length none (text.drop start) ≠ 0 := by
    rw [cut]
    intro none
    rw [Word.length_eq_zero_iff.mp none] at solid
    cases solid
  obtain ⟨n, size⟩ := Nat.exists_eq_add_one_of_ne_zero filled
  have read : Word.read start (text.drop start) =
      some (⟨text.slice start (start + (n + 1)), start, start + (n + 1)⟩, n + 1) := by
    rw [Word.read, size, Bytes.slice, Nat.add_sub_cancel_left]
  refine ⟨_, rfl, by omega, by omega, ?_⟩
  rw [cut] at read
  rw [size, cut, Tokens.scan_some _ read, List.drop_drop, Nat.add_assoc, Nat.add_comm 1]

theorem words_eq (text : Bytes) : words text = .ok (Word.all text) := by
  refine loop_eq (s := (0, []))
    (fun ((i, found) : Nat × List Word) => found ++ Tokens.scan Word.read i 0 (text.drop i))
    (fun _ => True) (fun ((i, _) : Nat × List Word) => text.length - i) ?_ trivial
    (Nat.lt_succ_self _)
  rintro ⟨i, found⟩ -
  dsimp only
  by_cases less : i < text.length
  · have passed := scan_trimLeft i (text.drop i)
    have left := Bytes.drop_indent (text.drop i)
    rw [if_pos less, advance_tail, ok_bind, ← Bytes.indent, passed]
    rw [← left, List.drop_drop]
    rw [List.drop_drop] at left
    have after := Nat.le_add_right i (Bytes.indent (text.drop i))
    generalize i + Bytes.indent (text.drop i) = start at left after
    by_cases past : text.length ≤ start
    · rw [if_pos past, List.drop_eq_nil_of_le past, Tokens.scan_nil, List.append_nil]
      exact Or.inl rfl
    · have inside := Nat.lt_of_not_le past
      rw [List.drop_eq_getElem_cons inside] at left
      obtain ⟨stop, reached, longer, bound, next⟩ :=
        scan_word inside (Bytes.not_isBlank_head_trimLeft left.symm)
      rw [if_neg past, wordStop_eq, ok_bind, reached, part_eq rfl rfl (Nat.le_of_lt longer) bound,
        next]
      refine Or.inr ⟨_, rfl, trivial, by dsimp only; omega, ?_⟩
      rw [List.append_assoc]
      rfl
  · rw [if_neg less, List.drop_eq_nil_of_le (Nat.le_of_not_lt less), Tokens.scan_nil,
      List.append_nil]
    exact Or.inl rfl

/-- Where the first equals sign of a word stands that starts with two hyphens. -/
theorem findIdx?_equals {word : Word} {body : Bytes} (split : utf8 "--" ++ body = word.text) :
    word.text.findIdx? (· == Byte.equals) =
      match body.dropWhile (· != Byte.equals) with
      | [] => none
      | _ :: _ => some ((body.takeWhile (· != Byte.equals)).length + 2) := by
  rw [findIdx?_eq, ← split]
  rfl

theorem toFlag_eq {text : Bytes} {word : Word} (stands : word.StandsIn text)
    (flag : word.isFlag = true) : toFlag word = .ok (Flag.ofWord word) := by
  obtain ⟨body, split⟩ := List.isPrefixOf_iff_prefix.mp flag
  have filled := stands.filled
  have size := Bytes.length_slice word.start stands.bound
  rw [← stands.bytes] at size
  have rest : word.text.drop 2 = body := by
    rw [← split]
    rfl
  have length : word.text.length = body.length + 2 := by
    rw [← split]
    rfl
  have parts := List.takeWhile_append_dropWhile (l := body) (p := (· != Byte.equals))
  rw [toFlag, Flag.ofWord, findIdx?_equals split, rest]
  dsimp only
  generalize body.takeWhile (· != Byte.equals) = name at parts
  generalize body.dropWhile (· != Byte.equals) = value at parts
  have leads : name <+: word.text.drop 2 := by
    rw [rest]
    exact ⟨value, parts⟩
  have cut : part word.text 2 (2 + name.length : Nat) = .ok name :=
    part_front leads (show 2 ≤ word.text.length by omega)
  have counted := congrArg List.length parts
  rw [List.length_append] at counted
  cases value with
  | nil =>
      have stop : word.stop = word.start + 2 + name.length := by
        rw [List.length_nil] at counted
        omega
      have whole : (word.stop : Int) - word.start = (2 + name.length : Nat) := by omega
      dsimp only
      rw [whole, cut, stop]
      rfl
  | cons b value =>
      rw [List.length_cons] at counted
      have stop : word.start + (name.length + 2) = word.start + 2 + name.length := by omega
      have whole : ((word.start + (name.length + 2) : Nat) : Int) - word.start =
          (2 + name.length : Nat) := by omega
      have tail : word.text.drop (name.length + 2 + 1) = value := by
        rw [Nat.add_comm name.length, Nat.add_assoc, ← List.drop_drop, rest, ← parts,
          ← List.drop_drop, List.drop_left]
        rfl
      have ends := part_tail (show name.length + 2 + 1 ≤ word.text.length by omega)
      rw [tail, Int.natCast_succ] at ends
      dsimp only
      rw [whole, ends, ok_bind, cut, ok_bind, stop]
      rfl

theorem leadingFlags_eq {text : Bytes} {words : List Word}
    (stand : ∀ word ∈ words, word.StandsIn text) :
    leadingFlags words = .ok (Flag.leading words) := by
  induction words with
  | nil => rfl
  | cons word rest ih =>
      obtain ⟨here, later⟩ := List.forall_mem_cons.mp stand
      rw [leadingFlags, Flag.leading]
      by_cases flag : word.isFlag = true
      · rw [if_pos flag, toFlag_eq here flag, ok_bind, ih later, List.takeWhile_cons_of_pos flag]
        rfl
      · rw [if_neg flag, List.takeWhile_cons_of_neg flag]
        rfl

theorem operands_eq (words : List Word) : operands words = .ok (Word.operands words) := by
  have split : words.dropWhile Word.isFlag = words.drop (words.findIdx (!Word.isFlag ·)) :=
    List.dropWhile_eq_drop_findIdx_not
  rw [operands, Word.operands]
  cases found : words.findIdx? (!Word.isFlag ·) with
  | none =>
      rw [List.findIdx?_eq_none_iff_findIdx_eq.mp found, List.drop_length] at split
      rw [split]
      rfl
  | some i =>
      obtain ⟨inside, same⟩ := List.findIdx?_eq_some_iff_findIdx_eq.mp found
      rw [split, same]
      exact part_tail (Nat.le_of_lt inside)

theorem aliasWord_eq (argument : Argument) :
    aliasWord argument = .ok (Stage.alias? argument) := by
  rw [aliasWord, words_eq, ok_bind, operands_eq, ok_bind, Stage.alias?]
  rcases Word.operands (Word.all argument.text) with _ | ⟨image, _ | ⟨middle, _ | ⟨name, rest⟩⟩⟩
  · rfl
  · rfl
  · rfl
  · rw [if_neg (by rw [List.length_cons, List.length_cons, List.length_cons]; omega)]
    change (if middle.text.spellsAs = true then _ else _) = _
    dsimp only
    split <;> rfl

theorem toStage_eq (index : Nat) {text : Bytes} {argument : Argument}
    (built : Assembled text argument) :
    toStage index argument = .ok (Stage.ofArgument? index argument) := by
  rw [toStage, Stage.ofArgument?, aliasWord_eq, ok_bind]
  cases found : Stage.alias? argument with
  | none => rfl
  | some word =>
      have stands := (Word.all_standsIn argument.text).1 word (Stage.alias?_mem found)
      dsimp only
      rw [built.spanOnLine_eq stands.bound]
      rfl

theorem stages_eq (index : Nat) {text : Bytes} {instructions : List Instruction}
    (built : ∀ i ∈ instructions, Assembled text i.argument) :
    stages index instructions = .ok (Stage.collect index instructions) := by
  induction instructions generalizing index with
  | nil => rfl
  | cons i rest ih =>
      obtain ⟨here, later⟩ := List.forall_mem_cons.mp built
      rw [stages, Stage.collect]
      by_cases opens : i.opensStage = true
      · rw [if_pos opens, if_pos opens, toStage_eq index here, ok_bind, ih _ later]
        rfl
      · rw [if_neg opens, if_neg opens]
        exact ih index later

end Guarded

end Dockerfile
