import Dockerfile.Proofs.Form
import Dockerfile.Proofs.Guarded.Argument
import Dockerfile.Proofs.Guarded.Statement
import Dockerfile.Proofs.Statement.Layout

/-!
# Guarded instructions

The instructions of a document, read line by line.  Each round of the reader starts with the
contract that it has moved past the line before, cuts the line, and puts the argument of a
statement together.  The contract holds because every statement takes at least one line.
-/

namespace Dockerfile

namespace Guarded

def skipFlags (text : Bytes) : Run Bytes :=
  loop (fun text : Bytes =>
    if (utf8 "--").isPrefixOf text then
      match text.findIdx? Byte.isBlank with
      | some i => do
          let rest ← part text i text.length
          return .inl (Bytes.trimLeft rest)
      | none => return .inr []
    else return .inr text) (text.length + 1) text.trimLeft

def classify (word text : Bytes) : Run Form :=
  if (Keyword.ofWord? word).any Keyword.hasArrayForm then do
    let body ← skipFlags text
    return if (StringArray.read? body).isSome then .array else .plain
  else return .plain

def toInstruction (text : Bytes) (escape : UInt8) (s : Statement) : Run Instruction := do
  let argument ← assemble text escape s.stretches s.stop
  let form ← classify s.word.toUpper argument.text
  return ⟨s.word.toUpper, Keyword.ofWord? s.word, s.keyword, argument, form, s.raw⟩

def progressDetail (before : Int) : Bytes :=
  utf8 "lexer must advance past line " ++ signedDecimal before

/-- How far the reader of instructions is: the next line, the line where the round before started,
and what has been read. -/
structure Reader where
  line : Nat
  before : Int
  read : List Instruction

def Reader.step (text : Bytes) (starts : List Nat) (escape : UInt8) (r : Reader) : Run Reader := do
  require (Contract.check .invariant (r.before < r.line) (progressDetail r.before))
  let (start, stop, content) ← lineAt text starts r.line
  if ← isIgnored content then return ⟨r.line + 1, r.line, r.read⟩
  else
    let keyword := start + content.length - content.trimLeft.length
    let (s, continued) ← opening text escape r.line start stop keyword
    let (line, s) ← continuing text starts escape (r.line + 1) s continued
    let i ← toInstruction text escape s
    -- The number of the line is logged.
    let _ ← lineOf starts keyword
    return ⟨line, r.line, r.read ++ [i]⟩

def readInstructions (text : Bytes) (starts : List Nat) (escape : UInt8) (line : Nat) :
    Run (List Instruction) :=
  loop (fun r : Reader =>
    if r.line < starts.length then return .inl (← r.step text starts escape)
    else return .inr r.read) (starts.length + 1) ⟨line, -1, []⟩

theorem not_isBlank_of_head?_trimLeft {text : Bytes} {b : UInt8}
    (head : text.trimLeft.head? = some b) : Byte.isBlank b = false := by
  obtain ⟨rest, left⟩ := List.head?_eq_some_iff.mp head
  exact Bytes.not_isBlank_head_trimLeft left

theorem skipFlags_eq (text : Bytes) : skipFlags text = .ok (Form.dropFlags false text) := by
  have short (text : Bytes) : text.trimLeft.length ≤ text.length :=
    (List.dropWhile_sublist _).length_le
  rw [← Form.dropFlags_trimLeft]
  refine loop_eq (Form.dropFlags false)
    (fun text => ∀ b, text.head? = some b → Byte.isBlank b = false) List.length ?_
    (fun _ head => not_isBlank_of_head?_trimLeft head) (Nat.lt_succ_of_le (short text))
  intro text solid
  by_cases flag : (utf8 "--").isPrefixOf text = true
  · have value := Form.dropFlags_of_flag flag
    obtain ⟨rest, rfl⟩ := List.isPrefixOf_iff_prefix.mp flag
    have fewer : ((utf8 "--" ++ rest).dropWhile (!Byte.isBlank ·)).length ≤ rest.length :=
      (List.dropWhile_sublist (l := rest) _).length_le
    rw [if_pos flag, findIdx?_eq, value]
    cases split : (utf8 "--" ++ rest).dropWhile (!Byte.isBlank ·) with
    | nil => exact Or.inl rfl
    | cons b tail =>
        have inside := Bytes.length_takeWhile_le (!Byte.isBlank ·) (utf8 "--" ++ rest)
        rw [split] at fewer
        dsimp only
        rw [part_tail inside, ok_bind, Bytes.drop_length_takeWhile, split]
        refine Or.inr ⟨_, rfl, fun _ head => not_isBlank_of_head?_trimLeft head, ?_,
          Form.dropFlags_trimLeft _⟩
        have longer : (utf8 "--" ++ rest).length = rest.length + 2 := rfl
        have trimmed := short (b :: tail)
        omega
  · refine Or.inl ?_
    rw [if_neg flag, Form.dropFlags_eq_self solid flag]
    rfl

theorem classify_eq (word text : Bytes) : classify word text = .ok (Form.classify word text) := by
  rw [classify, Form.classify, skipFlags_eq]
  cases (Keyword.ofWord? word).any Keyword.hasArrayForm <;> rfl

theorem toInstruction_eq {text : Bytes} {s : Statement} (laid : Stretch.Laid text s.stretches)
    (escape : UInt8) :
    toInstruction text escape s = .ok (Instruction.ofStatement text escape s) := by
  rw [toInstruction, assemble_eq laid, ok_bind, classify_eq]
  rfl

theorem length_sub_trimLeft (text : Bytes) : text.length - text.trimLeft.length = text.indent := by
  have whole := congrArg List.length (Bytes.takeWhile_append_trimLeft text)
  rw [List.length_append] at whole
  rw [Bytes.indent]
  omega

/-- The statement that starts on a line that counts, and where the lines after it start. -/
theorem scan_none_eq {doc : Document} (escape : UInt8) {n : Nat} {here : Line}
    (found : doc.lines[n]? = some here) (counts : here.isIgnored = false) :
    let (line, s) := outcome doc escape (n + 1) (Statement.first escape here)
      (here.isContinued escape)
    Statement.scan escape none (doc.lines.drop n) =
        s :: Statement.scan escape none (doc.lines.drop line) ∧
      n < line ∧ line ≤ doc.lines.length := by
  obtain ⟨less, rfl⟩ := List.getElem?_eq_some_iff.mp found
  rw [List.drop_eq_getElem_cons less, Statement.scan, if_neg (by rw [counts]; decide)]
  dsimp only
  cases doc.lines[n].isContinued escape with
  | false => exact ⟨rfl, Nat.lt_succ_self n, less⟩
  | true =>
      rw [if_pos rfl, scan_some_eq, outcome]
      generalize Statement.first escape doc.lines[n] = s
      have rest := isSuffix_complete escape s (doc.lines.drop (n + 1))
      have suffix := rest.trans (List.drop_suffix _ _)
      have short := rest.length_le
      rw [List.length_drop] at short
      dsimp only
      rw [← List.suffix_iff_eq_drop.mp suffix]
      exact ⟨rfl, by omega, Nat.sub_le _ _⟩

namespace Reader

variable {doc : Document} {r : Reader} {here : Line}

theorem step_of_isIgnored (escape : UInt8) (found : doc.lines[r.line]? = some here)
    (moved : r.before < r.line) (ignored : here.isIgnored = true) :
    r.step doc.text (starts doc) escape = .ok ⟨r.line + 1, r.line, r.read⟩ := by
  rw [step, require_check (decide_eq_true moved), ok_bind, lineAt_eq found, ok_bind]
  dsimp only
  rw [isIgnored_eq, ok_bind, if_pos ignored]
  rfl

theorem step_of_counts (escape : UInt8) (found : doc.lines[r.line]? = some here)
    (moved : r.before < r.line) (counts : here.isIgnored = false) {line : Nat} {s : Statement}
    (reads : outcome doc escape (r.line + 1) (Statement.first escape here)
      (here.isContinued escape) = (line, s)) (laid : Stretch.Laid doc.text s.stretches) :
    r.step doc.text (starts doc) escape =
      .ok ⟨line, r.line, r.read ++ [Instruction.ofStatement doc.text escape s]⟩ := by
  have stands := Document.standsIn_text (List.mem_of_getElem? found)
  have number := Document.number_of_getElem? found
  have opens := opening_eq stands escape
  obtain ⟨less, -⟩ := List.getElem?_eq_some_iff.mp found
  have short : here.content.trimLeft.length ≤ here.content.length :=
    (List.dropWhile_sublist _).length_le
  rw [number] at opens
  rw [step, require_check (decide_eq_true moved), ok_bind, lineAt_eq found, ok_bind]
  dsimp only
  rw [isIgnored_eq, ok_bind, if_neg (by rw [counts]; decide), Nat.add_sub_assoc short,
    length_sub_trimLeft, opens, ok_bind]
  dsimp only
  rw [continuing_eq escape _ _ less, ok_bind, reads]
  dsimp only
  rw [toInstruction_eq laid, ok_bind, lineOf_eq]
  rfl

end Reader

theorem laid_of_mem_statements {doc : Document} {s : Statement} (member : s ∈ doc.statements) :
    Stretch.Laid doc.text s.stretches := by
  rw [Document.statements_eq] at member
  obtain ⟨g, inside, rfl⟩ := List.mem_map.mp member
  exact Document.laid_stretches inside

/-- What the reader keeps: it has moved on, and every statement that is still to come lies in the
text. -/
def Reader.Holds (doc : Document) (r : Reader) : Prop :=
  r.before < r.line ∧ r.line ≤ doc.lines.length ∧
    ∀ s ∈ Statement.scan doc.escape none (doc.lines.drop r.line), Stretch.Laid doc.text s.stretches

theorem readInstructions_eq (doc : Document) :
    readInstructions doc.text (starts doc) doc.escape (Directive.block doc.lines).length =
      .ok doc.instructions := by
  have start : Reader.Holds doc ⟨(Directive.block doc.lines).length, -1, []⟩ :=
    ⟨by dsimp only; omega, Directive.length_block_le _, fun _ => laid_of_mem_statements⟩
  refine loop_eq (fun r : Reader => r.read ++
    (Statement.scan doc.escape none (doc.lines.drop r.line)).map
      (Instruction.ofStatement doc.text doc.escape)) (Reader.Holds doc)
    (fun r : Reader => doc.lines.length - r.line) ?_ start ?enough
  case enough =>
    rw [length_starts]
    dsimp only
    omega
  rintro r ⟨moved, inside, laid⟩
  rw [length_starts]
  by_cases less : r.line < doc.lines.length
  · have found := List.getElem?_eq_getElem less
    have cut := List.drop_eq_getElem_cons less
    rw [if_pos less]
    generalize doc.lines[r.line] = here at found cut
    cases ignored : here.isIgnored with
    | true =>
        have passed : Statement.scan doc.escape none (doc.lines.drop r.line) =
            Statement.scan doc.escape none (doc.lines.drop (r.line + 1)) := by
          rw [cut, Statement.scan, if_pos ignored]
        rw [r.step_of_isIgnored doc.escape found moved ignored, passed]
        rw [passed] at laid
        refine Or.inr ⟨_, rfl, ⟨?_, less, laid⟩, ?_, rfl⟩ <;> dsimp only <;> omega
    | false =>
        have next := scan_none_eq doc.escape found ignored
        generalize reads : outcome doc doc.escape (r.line + 1) (Statement.first doc.escape here)
          (here.isContinued doc.escape) = result at next
        obtain ⟨line, s⟩ := result
        obtain ⟨scanned, later, bound⟩ := next
        rw [scanned] at laid
        obtain ⟨here, rest⟩ := List.forall_mem_cons.mp laid
        rw [r.step_of_counts doc.escape found moved ignored reads here, scanned]
        refine Or.inr ⟨_, rfl, ⟨?_, bound, rest⟩, ?_, ?_⟩
        · dsimp only
          omega
        · dsimp only
          omega
        · rw [List.append_assoc]
          rfl
  · rw [if_neg less, List.drop_eq_nil_of_le (Nat.le_of_not_lt less)]
    refine Or.inl ?_
    rw [Statement.scan, List.map_nil, List.append_nil]
    rfl

end Guarded

end Dockerfile
