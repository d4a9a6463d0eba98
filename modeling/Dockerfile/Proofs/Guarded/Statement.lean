import Dockerfile.Directive
import Dockerfile.Proofs.Guarded.Document
import Dockerfile.Proofs.Statement.Groups

/-!
# Guarded directives and statements

The directives in front of a document and the lines of a statement, with the cut of every line, the
searches for the ends of its parts and the loops over the lines guarded.  A line's usable part ends
between its first byte that is no blank and the line's end, so every cut of it is in range.
-/

namespace Dockerfile

namespace Guarded

def lineAt (text : Bytes) (starts : List Nat) (line : Nat) : Run (Nat × Nat × Bytes) := do
  let span := (← lineSpan text starts line).getD ⟨0, 0⟩
  let bytes ← part text span.start span.stop
  return (← natural span.start, ← natural span.stop, bytes)

def escapeAfter (settles : Bool) (value : Bytes) (escape : UInt8) : Run UInt8 :=
  if settles && (value == [Byte.backslash] || value == [Byte.backtick]) then entry value 0
  else return escape

structure Heading where
  line : Nat
  directives : List Directive
  seen : Bool
  escape : UInt8

def Heading.add (h : Heading) (name value : Bytes) (start stop : Nat) : Run Heading := do
  let named := name == utf8 "escape"
  let escape ← escapeAfter (named && !h.seen) value h.escape
  return ⟨h.line + 1, h.directives ++ [⟨name, value, h.line, ⟨start, stop⟩⟩], h.seen || named,
    escape⟩

/-- Read the directives: the number of the line after them, themselves, and the escape byte. -/
def readDirectives (text : Bytes) (starts : List Nat) : Run (Nat × List Directive × UInt8) :=
  loop (fun h : Heading =>
    if h.line < starts.length then do
      let (start, stop, bytes) ← lineAt text starts h.line
      match Directive.parse? bytes with
      | some (name, value) =>
          if Directive.isKnown name then return .inl (← h.add name value start stop)
          else return .inr (h.line, h.directives, h.escape)
      | none => return .inr (h.line, h.directives, h.escape)
    else return .inr (h.line, h.directives, h.escape)) (starts.length + 1)
    ⟨0, [], false, Byte.backslash⟩

def isIgnored (content : Bytes) : Run Bool :=
  if content.trimLeft.isEmpty then return true
  else do
    let b ← entry content.trimLeft 0
    return b == Byte.hash

def lineContent (text : Bytes) (escape : UInt8) (start stop : Nat) : Run (Nat × Bool) := do
  let last ← retreat Byte.isBlank text start stop
  let first ← retreat (· == escape) text start last
  return if (last - first) % 2 == 1 then (last - 1, true) else (last, false)

def opening (text : Bytes) (escape : UInt8) (line start stop keyword : Nat) :
    Run (Statement × Bool) := do
  let (last, continued) ← lineContent text escape start stop
  let wordStop ← advance (!Byte.isBlank ·) text last keyword
  let word ← part text keyword wordStop
  let argument ← advance Byte.isBlank text last wordStop
  let s : Statement :=
    { line := line
      word := word
      keyword := ⟨keyword, wordStop⟩
      stretches := Statement.stretch line argument last
      stop := if argument = last then wordStop else last
      raw := ⟨keyword, stop⟩ }
  return (s, continued)

/-- The lines that continue a statement: the number of the line after them, and the statement. -/
def continuing (text : Bytes) (starts : List Nat) (escape : UInt8) (line : Nat) (s : Statement)
    (continued : Bool) : Run (Nat × Statement) :=
  loop (fun ((line, s, continued) : Nat × Statement × Bool) =>
    if continued ∧ line < starts.length then do
      let (start, stop, bytes) ← lineAt text starts line
      if ← isIgnored bytes then return .inl (line + 1, s, continued)
      else
        let (last, continued) ← lineContent text escape start stop
        let longer : Statement :=
          { s with
            stretches := s.stretches ++ Statement.stretch line start last
            stop := if start < last then last else s.stop
            raw := ⟨s.raw.start, stop⟩ }
        return .inl (line + 1, longer, continued)
    else return .inr (line, s)) (starts.length + 1) (line, s, continued)

theorem lineAt_eq {doc : Document} {n : Nat} {line : Line} (found : doc.lines[n]? = some line) :
    lineAt doc.text (starts doc) n = .ok (line.start, line.stop, line.content) := by
  have stands := Document.standsIn_text (List.mem_of_getElem? found)
  have order : line.start ≤ line.stop := Nat.le_add_right _ _
  rw [lineAt, lineSpan_eq, ok_bind, found, Option.map_some, Option.getD_some, Line.span]
  dsimp only
  rw [part_eq rfl rfl order stands.stop_le, ok_bind, stands.slice_content, natural_eq, ok_bind,
    natural_eq]
  rfl

theorem escapeAfter_eq (settles : Bool) (d : Directive) (escape : UInt8) :
    escapeAfter settles d.value escape =
      .ok (if settles then (Directive.escapeByte? d).getD escape else escape) := by
  rw [escapeAfter, Directive.escapeByte?]
  cases settles with
  | false => rfl
  | true =>
      by_cases first : d.value = [Byte.backslash]
      · rw [first]
        rfl
      · by_cases second : d.value = [Byte.backtick]
        · rw [second]
          rfl
        · rw [beq_false_of_ne first, beq_false_of_ne second]
          rfl

theorem isIgnored_eq (line : Line) : isIgnored line.content = .ok line.isIgnored := by
  rw [isIgnored, Line.isIgnored]
  cases line.content.trimLeft <;> rfl

theorem lineContent_eq {text : Bytes} {line : Line} (stands : line.StandsIn text)
    (escape : UInt8) : lineContent text escape line.start line.stop =
      .ok (line.start + (line.usable escape).length, line.isContinued escape) := by
  have order : line.start ≤ line.stop := Nat.le_add_right _ _
  have last := stands.stop_le
  obtain ⟨blanks, split, -⟩ := Bytes.exists_trimRight_append line.content
  have room := (show line.content.trimRight <+: line.content from ⟨blanks, split.symm⟩)
  have solid : retreat Byte.isBlank text line.start line.stop =
      .ok (line.start + line.content.trimRight.length) := by
    rw [retreat_eq _ order last, stands.slice_content, Bytes.trimRight, List.length_reverse]
  have run : retreat (· == escape) text line.start (line.start + line.content.trimRight.length) =
      .ok (line.start + (line.content.trimRight.reverse.dropWhile (· == escape)).length) := by
    have shorter := room.length_le
    rw [retreat_eq _ (Nat.le_add_right _ _) (by rw [Line.stop] at last; omega),
      stands.slice_start shorter, ← List.prefix_iff_eq_take.mp room]
  have size : line.start + line.content.trimRight.length -
      (line.start + (line.content.trimRight.reverse.dropWhile (· == escape)).length) =
        Line.escapeRun escape line.content.trimRight := by
    have whole := congrArg List.length
      (Bytes.dropWhile_append_takeWhile_reverse (· == escape) line.content.trimRight)
    rw [List.length_append, List.length_reverse, List.length_reverse, ← Line.escapeRun] at whole
    omega
  rw [lineContent, solid, ok_bind, run, ok_bind, size, ← Line.isContinued]
  cases continued : line.isContinued escape with
  | true =>
      rw [if_pos rfl, Line.trimRight_of_isContinued continued, List.length_append,
        List.length_singleton]
      rfl
  | false =>
      rw [if_neg (by decide), Line.trimRight_of_not_isContinued continued]
      rfl

theorem opening_eq {text : Bytes} {line : Line} (stands : line.StandsIn text)
    (escape : UInt8) :
    opening text escape line.number line.start line.stop (line.start + line.content.indent) =
      .ok (Statement.first escape line, line.isContinued escape) := by
  have inside := stands.stop_le
  have shorter := (line.isPrefix_usable escape).length_le
  have reaches := line.content.indent_le
  have usable (n : Nat) : text.slice (line.start + n)
      (line.start + (line.usable escape).length) = (line.usable escape).drop n := by
    rw [stands.slice_eq shorter, Bytes.slice, ← List.drop_take,
      ← List.prefix_iff_eq_take.mp (line.isPrefix_usable escape)]
  rw [Line.stop] at inside
  have bound : line.start + (line.usable escape).length ≤ text.length := by omega
  have word := advance_eq (!Byte.isBlank ·) (line.start + line.content.indent) bound
  have leads := Bytes.takeWhile_slice_isPrefix (!Byte.isBlank ·) text
    (line.start + line.content.indent) (line.start + (line.usable escape).length)
  rw [usable] at word leads
  have argument := advance_eq Byte.isBlank (line.start + line.content.indent +
    (((line.usable escape).drop line.content.indent).takeWhile (!Byte.isBlank ·)).length) bound
  rw [Nat.add_assoc line.start, usable, ← Nat.add_assoc] at argument
  rw [opening, lineContent_eq stands, ok_bind]
  dsimp only
  rw [word, ok_bind, part_front leads (by omega), ok_bind, argument]
  rfl

theorem escape_cons_of_named {d : Directive} (named : (d.name == utf8 "escape") = true)
    (more : List Directive) :
    Directive.escape (d :: more) = (Directive.escapeByte? d).getD Byte.backslash := by
  have first := List.find?_cons_of_pos (p := fun d : Directive => d.name == utf8 "escape")
    (l := more) named
  rw [Directive.escape, Directive.escape?, first]
  rfl

theorem escape_cons_of_other {d : Directive} (other : (d.name == utf8 "escape") = false)
    (more : List Directive) : Directive.escape (d :: more) = Directive.escape more := by
  rw [Directive.escape, Directive.escape?, List.find?_cons_of_neg (by rw [other]; decide)]
  rfl

namespace Heading

/-- The escape byte once more directives have been read. -/
def settle (h : Heading) (more : List Directive) : UInt8 :=
  if h.seen then h.escape else Directive.escape more

/-- A directive that is taken in settles the escape byte as it does in a list. -/
theorem exists_add (h : Heading) (name value : Bytes) (start stop : Nat)
    (fresh : h.seen = false → h.escape = Byte.backslash) (more : List Directive) :
    ∃ next, h.add name value start stop = .ok next ∧ next.line = h.line + 1 ∧
      next.directives = h.directives ++ [⟨name, value, h.line, ⟨start, stop⟩⟩] ∧
      (next.seen = false → next.escape = Byte.backslash) ∧
      next.settle more = h.settle (⟨name, value, h.line, ⟨start, stop⟩⟩ :: more) := by
  let d : Directive := ⟨name, value, h.line, ⟨start, stop⟩⟩
  have settled := escapeAfter_eq (name == utf8 "escape" && !h.seen) d h.escape
  rw [add, settled]
  refine ⟨_, rfl, rfl, rfl, ?_⟩
  dsimp only [settle]
  cases seen : h.seen with
  | true =>
      rw [Bool.not_true, Bool.and_false]
      exact ⟨nofun, rfl⟩
  | false =>
      rw [fresh seen]
      cases named : name == utf8 "escape" with
      | true => exact ⟨nofun, (escape_cons_of_named (d := d) named more).symm⟩
      | false => exact ⟨fun _ => rfl, (escape_cons_of_other (d := d) named more).symm⟩

def answer (doc : Document) (h : Heading) : Nat × List Directive × UInt8 :=
  let more := Directive.block (doc.lines.drop h.line)
  (h.line + more.length, h.directives ++ more, h.settle more)

variable {doc : Document} {h : Heading}

theorem answer_of_block_eq_nil (fresh : h.seen = false → h.escape = Byte.backslash)
    (none : Directive.block (doc.lines.drop h.line) = []) :
    h.answer doc = (h.line, h.directives, h.escape) := by
  rw [answer, none, List.append_nil, settle]
  cases seen : h.seen with
  | true => rfl
  | false =>
      rw [fresh seen]
      rfl

theorem exists_add_answer (fresh : h.seen = false → h.escape = Byte.backslash)
    {name value : Bytes} {start stop : Nat}
    (block : Directive.block (doc.lines.drop h.line) = ⟨name, value, h.line, ⟨start, stop⟩⟩ ::
      Directive.block (doc.lines.drop (h.line + 1))) :
    ∃ next, h.add name value start stop = .ok next ∧ next.line = h.line + 1 ∧
      (next.seen = false → next.escape = Byte.backslash) ∧ next.answer doc = h.answer doc := by
  obtain ⟨next, taken, step, listed, still, settled⟩ := h.exists_add name value start stop fresh
    (Directive.block (doc.lines.drop (h.line + 1)))
  refine ⟨next, taken, step, still, ?_⟩
  rw [answer, answer, step, block, listed, settled, List.append_assoc, List.length_cons,
    Nat.add_assoc, Nat.add_comm 1]
  rfl

end Heading

theorem block_drop {doc : Document} {n : Nat} {line : Line} (found : doc.lines[n]? = some line) :
    Directive.block (doc.lines.drop n) =
      match Directive.ofLine? line with
      | some d => d :: Directive.block (doc.lines.drop (n + 1))
      | none => [] := by
  obtain ⟨less, rfl⟩ := List.getElem?_eq_some_iff.mp found
  rw [List.drop_eq_getElem_cons less]
  rfl

theorem readDirectives_eq (doc : Document) : readDirectives doc.text (starts doc) =
    .ok ((Directive.block doc.lines).length, Directive.block doc.lines,
      Directive.escape (Directive.block doc.lines)) := by
  rw [← Nat.zero_add (Directive.block doc.lines).length]
  refine loop_eq (s := ⟨0, [], false, Byte.backslash⟩) (Heading.answer doc)
    (fun h : Heading => h.seen = false → h.escape = Byte.backslash)
    (fun h : Heading => doc.lines.length - h.line) ?_ (fun _ => rfl) ?_
  · intro h fresh
    rw [length_starts]
    by_cases less : h.line < doc.lines.length
    · have found := List.getElem?_eq_getElem less
      have number := Document.number_of_getElem? found
      have block := block_drop found
      rw [if_pos less, lineAt_eq found, ok_bind]
      dsimp only
      generalize doc.lines[h.line] = line at number block
      rw [Directive.ofLine?, number] at block
      cases read : Directive.parse? line.content with
      | none =>
          rw [read] at block
          rw [Heading.answer_of_block_eq_nil fresh block]
          exact Or.inl rfl
      | some pair =>
          obtain ⟨name, value⟩ := pair
          rw [read] at block
          dsimp only at block ⊢
          by_cases known : Directive.isKnown name = true
          · rw [if_pos known] at block
            obtain ⟨next, taken, step, still, same⟩ := Heading.exists_add_answer fresh block
            rw [if_pos known, taken]
            exact Or.inr ⟨next, rfl, still, by omega, same⟩
          · rw [if_neg known] at block
            rw [if_neg known, Heading.answer_of_block_eq_nil fresh block]
            exact Or.inl rfl
    · have none : Directive.block (doc.lines.drop h.line) = [] := by
        rw [List.drop_eq_nil_of_le (Nat.le_of_not_lt less)]
        rfl
      rw [if_neg less, Heading.answer_of_block_eq_nil fresh none]
      exact Or.inl rfl
  · rw [length_starts]
    exact Nat.lt_succ_self _

def complete (escape : UInt8) : Statement → List Line → Statement × List Line
  | s, [] => (s, [])
  | s, line :: rest =>
      if line.isIgnored then complete escape s rest
      else if line.isContinued escape then complete escape (s.extend escape line) rest
      else (s.extend escape line, rest)

theorem scan_some_eq (escape : UInt8) (s : Statement) (lines : List Line) :
    Statement.scan escape (some s) lines =
      (complete escape s lines).1 :: Statement.scan escape none (complete escape s lines).2 := by
  induction lines generalizing s with
  | nil => rfl
  | cons line rest ih =>
      rw [Statement.scan, complete]
      dsimp only
      split
      · exact ih s
      · split
        · exact ih _
        · rfl

theorem isSuffix_complete (escape : UInt8) (s : Statement) (lines : List Line) :
    (complete escape s lines).2 <:+ lines := by
  induction lines generalizing s with
  | nil => exact List.suffix_rfl
  | cons line rest ih =>
      rw [complete]
      split
      · exact (ih s).trans (List.suffix_cons _ _)
      · split
        · exact (ih _).trans (List.suffix_cons _ _)
        · exact List.suffix_cons _ _

def outcome (doc : Document) (escape : UInt8) (line : Nat) (s : Statement) :
    (continued : Bool) → Nat × Statement
  | true =>
      (doc.lines.length - (complete escape s (doc.lines.drop line)).2.length,
        (complete escape s (doc.lines.drop line)).1)
  | false => (line, s)

theorem continuing_eq {doc : Document} (escape : UInt8) {line : Nat} (s : Statement)
    (continued : Bool) (inside : line ≤ doc.lines.length) :
    continuing doc.text (starts doc) escape line s continued =
      .ok (outcome doc escape line s continued) := by
  refine loop_eq (s := (line, s, continued))
    (fun ((line, s, continued) : Nat × Statement × Bool) => outcome doc escape line s continued)
    (fun ((line, _) : Nat × Statement × Bool) => line ≤ doc.lines.length)
    (fun ((line, _) : Nat × Statement × Bool) => doc.lines.length - line) ?_ inside ?_
  · rintro ⟨line, s, continued⟩ inside
    dsimp only at inside ⊢
    rw [length_starts]
    cases continued with
    | false =>
        rw [if_neg nofun]
        exact Or.inl rfl
    | true =>
        rw [outcome]
        by_cases less : line < doc.lines.length
        · have found := List.getElem?_eq_getElem less
          have number := Document.number_of_getElem? found
          have stands := Document.standsIn_text (List.mem_of_getElem? found)
          have cut := List.drop_eq_getElem_cons less
          rw [if_pos ⟨rfl, less⟩, lineAt_eq found, ok_bind, cut]
          dsimp only
          generalize doc.lines[line] = here at number stands
          rw [isIgnored_eq, ok_bind, complete]
          cases ignored : here.isIgnored with
          | true => exact Or.inr ⟨_, rfl, less, by dsimp only; omega, rfl⟩
          | false =>
              rw [if_neg (by decide), if_neg (by decide), lineContent_eq stands, ok_bind]
              dsimp only
              refine Or.inr ⟨(line + 1, s.extend escape here, here.isContinued escape), ?_, less,
                by dsimp only; omega, ?_⟩
              · rw [Statement.extend, number]
                rfl
              · cases here.isContinued escape with
                | true => rfl
                | false =>
                    rw [if_neg (by decide), List.length_drop]
                    dsimp only [outcome]
                    congr 1
                    omega
        · have last : line = doc.lines.length := by omega
          rw [if_neg (fun both => less both.2), List.drop_eq_nil_of_le (Nat.le_of_not_lt less),
            last]
          exact Or.inl rfl
  · dsimp only
    rw [length_starts]
    omega

end Guarded

end Dockerfile
