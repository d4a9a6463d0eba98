import Dockerfile.Proofs.Relocation.Analysis

/-!
# Line endings

A carriage return before a line feed belongs to the terminator of the line.  So a text without
carriage returns reads the same whichever of its line feeds get one: the lines keep their numbers
and contents, only offsets move, and positions do not count offsets.
-/

namespace Dockerfile

/-- The text with a carriage return before each chosen line feed; line feeds are chosen by their
offsets, and `index` is the offset of the first byte. -/
def Bytes.respell (chosen : Nat → Bool) : (index : Nat) → Bytes → Bytes
  | _, [] => []
  | index, b :: rest =>
      if b == Byte.lineFeed && chosen index then
        Byte.carriageReturn :: Byte.lineFeed :: respell chosen (index + 1) rest
      else b :: respell chosen (index + 1) rest

/-- The offset of a byte after carriage returns were put before chosen line feeds.  For a chosen
line feed it is that of its carriage return. -/
def Bytes.respellOffset (chosen : Nat → Bool) (text : Bytes) : Nat → Nat
  | 0 => 0
  | o + 1 =>
      respellOffset chosen text o + if text[o]? == some Byte.lineFeed && chosen o then 2 else 1

namespace Bytes

variable {chosen : Nat → Bool} {text : Bytes}

theorem respellOffset_lt {m n : Nat} (less : m < n) :
    respellOffset chosen text m < respellOffset chosen text n := by
  induction less with
  | refl =>
      rw [respellOffset]
      split <;> omega
  | step _ ih =>
      refine Nat.lt_of_lt_of_le ih ?_
      rw [respellOffset]
      exact Nat.le_add_right _ _

theorem respellOffset_of_ne {o : Nat} (other : text[o]? ≠ some Byte.lineFeed) :
    respellOffset chosen text (o + 1) = respellOffset chosen text o + 1 := by
  simp [respellOffset, other]

end Bytes

namespace Line

theorem chomp_cons {b : UInt8} (raw : Bytes) (other : b ≠ Byte.carriageReturn) :
    chomp (b :: raw) = b :: chomp raw := by
  cases raw with
  | nil => simp [chomp, other]
  | cons c raw =>
      unfold chomp
      rw [List.getLast?_cons_cons]
      split <;> rfl

def widen (b : UInt8) (start : Nat) : List Line → List Line
  | [] => []
  | line :: rest => ⟨line.number, start, b :: line.content⟩ :: rest

theorem place_lineFeed (number start : Nat) (text : Bytes) :
    place number start (cut (Byte.lineFeed :: text)) =
      ⟨number, start, []⟩ :: place (number + 1) (start + 1) (cut text) := by
  rw [cut_lineFeed]
  rfl

theorem place_carriageReturn (number start : Nat) (text : Bytes) :
    place number start (cut (Byte.carriageReturn :: Byte.lineFeed :: text)) =
      ⟨number, start, []⟩ :: place (number + 1) (start + 2) (cut text) := by
  rw [cut_of_ne (by decide) (cut_lineFeed text)]
  rfl

theorem place_cons {b : UInt8} (number start : Nat) (text : Bytes) (noFeed : b ≠ Byte.lineFeed)
    (noReturn : b ≠ Byte.carriageReturn) :
    place number start (cut (b :: text)) = widen b start (place number (start + 1) (cut text)) := by
  cases pieces : cut text with
  | nil => exact absurd pieces (cut_ne_nil text)
  | cons first rest =>
      have next : start + (b :: first).length + 1 = start + 1 + first.length + 1 := by
        rw [List.length_cons]
        omega
      rw [cut_of_ne noFeed pieces, place, chomp_cons first noReturn, next]
      rfl

theorem map_widen (r : Relocation) (b : UInt8) (start : Nat) (lines : List Line) :
    (widen b start lines).map (Line.move r) =
      widen b (r.offset start) (lines.map (Line.move r)) := by
  cases lines <;> rfl

end Line

def Directive.move (r : Relocation) (d : Directive) : Directive :=
  { d with line := r.number d.line, span := d.span.move r }

namespace Directive

variable {r : Relocation}

theorem ofLine?_move {line : Line} (keeps : r.Keeps line.span) :
    ofLine? (line.move r) = (ofLine? line).map (Directive.move r) := by
  unfold ofLine?
  rw [Line.content_move, Line.span_move keeps]
  cases parse? line.content with
  | none => rfl
  | some found =>
      dsimp only
      split <;> rfl

theorem block_move {lines : List Line} (keeps : ∀ line ∈ lines, r.Keeps line.span) :
    block (lines.map (Line.move r)) = (block lines).map (Directive.move r) := by
  induction lines with
  | nil => rfl
  | cons line rest ih =>
      have later := ih fun other member => keeps other (List.mem_cons_of_mem _ member)
      rw [List.map_cons, block, block, ofLine?_move (keeps line List.mem_cons_self), later]
      cases ofLine? line <;> rfl

theorem escape_move (directives : List Directive) :
    escape (directives.map (Directive.move r)) = escape directives := by
  simp only [escape, escape?, List.find?_map, Option.bind_map]
  rfl

end Directive

namespace Document

/-- The document with a carriage return before each chosen line feed. -/
def respell (doc : Document) (chosen : Nat → Bool) : Document :=
  ofText doc.uri (doc.text.respell chosen 0)

/-- Lines keep their numbers, and offsets move up by the carriage returns before them. -/
def respelling (doc : Document) (chosen : Nat → Bool) : Relocation where
  number := id
  offset := doc.text.respellOffset chosen
  increasing := Bytes.respellOffset_lt

variable {doc : Document} (chosen : Nat → Bool)

theorem keeps_respelling {line : Line} (member : line ∈ doc.lines) :
    (doc.respelling chosen).Keeps line.span := by
  refine Line.keeps_of_offset_add ?_
  intro n
  induction n with
  | zero => intro _; rfl
  | succ n ih =>
      intro inside
      have byte := (standsIn_text member).getElem?_eq inside
      have other : doc.text[line.start + n]? ≠ some Byte.lineFeed := by
        rw [byte]
        exact fun feed => lineFeed_not_mem member (List.mem_of_getElem? feed)
      calc (doc.respelling chosen).offset (line.start + (n + 1))
          = (doc.respelling chosen).offset (line.start + n) + 1 := Bytes.respellOffset_of_ne other
        _ = (doc.respelling chosen).offset line.start + (n + 1) := by
          rw [ih (Nat.le_of_succ_le inside), Nat.add_assoc]

theorem place_respell {number start : Nat} {rest : Bytes} (tail : doc.text.drop start = rest)
    (plain : Byte.carriageReturn ∉ rest) :
    Line.place number (doc.text.respellOffset chosen start)
        (Line.cut (Bytes.respell chosen start rest)) =
      (Line.place number start (Line.cut rest)).map (Line.move (doc.respelling chosen)) := by
  -- the induction is on the bytes; a byte that ends no line widens the line after it
  induction rest generalizing number start with
  | nil => rfl
  | cons b rest ih =>
      simp only [List.mem_cons, not_or] at plain
      have byte : doc.text[start]? = some b := by
        rw [← List.head?_drop, tail, List.head?_cons]
      have next : doc.text.drop (start + 1) = rest := by
        rw [← List.drop_drop, tail, List.drop_one, List.tail_cons]
      by_cases feed : b = Byte.lineFeed
      · subst feed
        cases picked : chosen start with
        | true =>
            have offset : doc.text.respellOffset chosen (start + 1) =
                doc.text.respellOffset chosen start + 2 := by
              simp [Bytes.respellOffset, byte, picked]
            simp only [Bytes.respell, picked, beq_self_eq_true, Bool.and_self, ↓reduceIte]
            rw [Line.place_carriageReturn, Line.place_lineFeed, ← offset, ih next plain.2]
            rfl
        | false =>
            have offset : doc.text.respellOffset chosen (start + 1) =
                doc.text.respellOffset chosen start + 1 := by
              simp [Bytes.respellOffset, picked]
            simp only [Bytes.respell, picked, Bool.and_false, Bool.false_eq_true, ↓reduceIte]
            rw [Line.place_lineFeed, Line.place_lineFeed, ← offset, ih next plain.2]
            rfl
      · have other : doc.text[start]? ≠ some Byte.lineFeed := by
          rw [byte]
          simpa using feed
        have offset : doc.text.respellOffset chosen (start + 1) =
            doc.text.respellOffset chosen start + 1 := Bytes.respellOffset_of_ne other
        have same : Bytes.respell chosen start (b :: rest) =
            b :: Bytes.respell chosen (start + 1) rest := by simp [Bytes.respell, feed]
        rw [same, Line.place_cons _ _ _ feed (Ne.symm plain.1),
          Line.place_cons _ _ _ feed (Ne.symm plain.1), ← offset, ih next plain.2, Line.map_widen]
        rfl

section

variable (plain : Byte.carriageReturn ∉ doc.text)
include plain

theorem lines_respell :
    (doc.respell chosen).lines = doc.lines.map (Line.move (doc.respelling chosen)) := by
  rw [(doc.respell chosen).lines_eq, doc.lines_eq]
  exact place_respell chosen List.drop_zero plain

theorem directives_respell : Directive.block (doc.respell chosen).lines =
    (Directive.block doc.lines).map (Directive.move (doc.respelling chosen)) := by
  rw [lines_respell chosen plain, Directive.block_move fun _ => keeps_respelling chosen]

/-- Other line endings take a document to one with the same lines. -/
theorem takes_respelling : (doc.respelling chosen).Takes doc (doc.respell chosen) where
  uri := rfl
  escape := by
    rw [escape, directives_respell chosen plain, Directive.escape_move, escape]
  lines := by
    intro n
    rw [lines_respell chosen plain, ← List.getElem?_map]
    rfl
  counting := by
    rw [countingLines, directives_respell chosen plain, lines_respell chosen plain,
      List.length_map, ← List.map_drop, Statement.counting_move]
    rfl
  keeps := fun _ => keeps_respelling chosen

end

theorem line_respelling (doc : Document) (chosen : Nat → Bool) (line : Int) :
    (doc.respelling chosen).line line = line := by
  cases line <;> rfl

/-- Whichever line feeds of a text get a carriage return before them, the answers are the same:
directives, instructions, declarations and stages up to offsets, and for every position the symbol
up to its offsets and the place of its definition. -/
theorem respell_same_answers (doc : Document) (plain : Byte.carriageReturn ∉ doc.text)
    (chosen : Nat → Bool) :
    let a := Analysis.ofDocument doc
    let a' := Analysis.ofDocument (doc.respell chosen)
    (a'.document.lineCount = a.document.lineCount ∧ a'.escape = a.escape ∧
      a'.directives.map (fun d => (d.name, d.value, d.line)) =
        a.directives.map (fun d => (d.name, d.value, d.line))) ∧
    a'.instructions.map (fun i => (i.name, i.keyword, i.form, i.argument.text)) =
      a.instructions.map (fun i => (i.name, i.keyword, i.form, i.argument.text)) ∧
    a'.declared.map (fun v => (v.name, v.line)) = a.declared.map (fun v => (v.name, v.line)) ∧
    a'.stages.map (fun s => (s.name, s.line, s.index)) =
      a.stages.map (fun s => (s.name, s.line, s.index)) ∧
    ∀ p : Position,
      (a'.symbolAt? p).map (fun symbol => (symbol.kind, symbol.name)) =
        (a.symbolAt? p).map (fun symbol => (symbol.kind, symbol.name)) ∧
      a'.definition? p = a.definition? p := by
  intro a a'
  have takes := takes_respelling chosen plain
  refine ⟨⟨?_, takes.escape, ?_⟩, ?_, ?_, ?_, ?_⟩
  · change (doc.respell chosen).lines.length = doc.lines.length
    rw [lines_respell chosen plain, List.length_map]
  · change (Directive.block (doc.respell chosen).lines).map _ = (Directive.block doc.lines).map _
    rw [directives_respell chosen plain, List.map_map]
    rfl
  · change (doc.respell chosen).instructions.map _ = doc.instructions.map _
    rw [takes.instructions_eq, List.map_map]
    rfl
  · change (Variable.all (doc.respell chosen).instructions).map _ =
      (Variable.all doc.instructions).map _
    rw [takes.declared_eq, List.map_map]
    simp [Function.comp_def, line_respelling]
  · change (Stage.all (doc.respell chosen).instructions).map _ =
      (Stage.all doc.instructions).map _
    rw [takes.stages_eq, List.map_map]
    simp [Function.comp_def, line_respelling]
  · intro p
    constructor
    · rw [takes.symbolAt?_eq rfl rfl, Option.map_map]
      rfl
    · have shifts : ∀ n < doc.lines.length, ∀ c, id (⟨UInt32.ofNat n, c⟩ : Position) =
          ⟨UInt32.ofNat ((doc.respelling chosen).number n), c⟩ := fun _ _ _ => rfl
      have same := takes.definition?_eq shifts (p := p) (q := p) rfl rfl
      change _ = (doc.definition? p).map id at same
      rw [Option.map_id] at same
      exact same

/-- With a carriage return before the second line feed only, the reference after it leads where it
led. -/
theorem respell_same_answers_mixed :
    ((ofText [] (utf8 "ARG s\nRUN a \\\n$s")).respell fun o => o == 13).text =
      utf8 "ARG s\nRUN a \\\r\n$s" ∧
    (Analysis.ofDocument ((ofText [] (utf8 "ARG s\nRUN a \\\n$s")).respell fun o =>
      o == 13)).definition? ⟨2, 1⟩ = some ⟨[], ⟨0, 4⟩, ⟨0, 5⟩⟩ := by
  have plain : Byte.carriageReturn ∉ (ofText [] (utf8 "ARG s\nRUN a \\\n$s")).text := by decide
  have old : (Analysis.ofDocument
      (ofText [] (utf8 "ARG s\nRUN a \\\n$s"))).definition? ⟨2, 1⟩ =
        some ⟨[], ⟨0, 4⟩, ⟨0, 5⟩⟩ := by decide +kernel
  obtain ⟨-, -, -, -, same⟩ := respell_same_answers _ plain fun o => o == 13
  exact ⟨by decide, (same ⟨2, 1⟩).2.trans old⟩

end Document

end Dockerfile
