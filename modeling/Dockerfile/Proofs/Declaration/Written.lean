import Dockerfile.Proofs.Declaration.Assignment
import Dockerfile.Proofs.Declaration.Lines
import Dockerfile.Proofs.Statement.Breaking
import Dockerfile.Proofs.Statement.Joining

/-!
# Written declarations

A declaration is written as a keyword and assignments with gaps between them.  A gap is blanks, and
it may turn to a later line: an escape byte ends the line, and comments and blank lines may follow.
However the assignments are spread over lines, these lines make one group, and each assignment is
read where it was written.
-/

namespace Dockerfile

def Byte.IsEscape (b : UInt8) : Prop :=
  b = Byte.backslash ∨ b = Byte.backtick

namespace Byte.IsEscape

variable {escape : UInt8} (known : IsEscape escape)
include known

theorem not_isBlank : Byte.isBlank escape = false := by
  rcases known with rfl | rfl <;> rfl

theorem ne_lineFeed : escape ≠ Byte.lineFeed := by
  rcases known with rfl | rfl <;> decide

theorem ne_carriageReturn : escape ≠ Byte.carriageReturn := by
  rcases known with rfl | rfl <;> decide

theorem quote_ne (q : Quote) : q.byte ≠ escape := by
  rcases known with rfl | rfl <;> cases q <;> decide

end Byte.IsEscape

structure Blanks where
  bytes : Bytes
  filled : bytes ≠ []
  blank : bytes.AllBlank

/-- The way to a later line: comments and blank lines to pass over, and the blanks before the next
assignment. -/
structure Turn where
  skipped : List Bytes
  oneLine : ∀ raw ∈ skipped, Byte.lineFeed ∉ raw
  silent : ∀ raw ∈ skipped, (⟨0, 0, Line.chomp raw⟩ : Line).IsSilent
  indent : Bytes
  indented : indent.AllBlank

/-- What stands between two assignments. -/
inductive Gap where
  | stay (blanks : Blanks)
  | turn (blanks : Blanks) (turn : Turn)

def Turn.passed (t : Turn) : Bytes :=
  t.skipped.flatMap (· ++ [Byte.lineFeed])

def Gap.text (escape : UInt8) : Gap → Bytes
  | .stay blanks => blanks.bytes
  | .turn blanks t => blanks.bytes ++ escape :: Byte.lineFeed :: (t.passed ++ t.indent)

abbrev Assignments := List (Gap × Assignment)

namespace Assignments

variable (escape : UInt8)

def text (rest : Assignments) : Bytes :=
  rest.flatMap fun (gap, a) => gap.text escape ++ a.text escape

def goesOn : Assignments → Bool
  | [] => false
  | (.stay _, _) :: rest => goesOn rest
  | (.turn _ _, _) :: _ => true

def usable : Assignments → Bytes
  | [] => []
  | (.stay blanks, a) :: rest => blanks.bytes ++ (a.text escape ++ usable rest)
  | (.turn blanks _, _) :: _ => blanks.bytes

def content (rest : Assignments) : Bytes :=
  usable escape rest ++ if goesOn rest then [escape] else []

/-- The later lines of the assignments, given the number of the line on which they start and the
offset where they do. -/
def lines : (number offset : Nat) → Assignments → List Line
  | _, _, [] => []
  | number, offset, (.stay blanks, a) :: rest =>
      lines number (offset + blanks.bytes.length + (a.text escape).length) rest
  | number, offset, (.turn blanks t, a) :: rest =>
      let next := number + 1 + t.skipped.length
      let start := offset + blanks.bytes.length + 2 + t.passed.length
      ⟨next, start, t.indent ++ a.text escape ++ content escape rest⟩ ::
        lines next (start + (t.indent ++ a.text escape).length) rest

/-- Each of the assignments with the text before it. -/
def layout : (before : Bytes) → Assignments → List (Bytes × Assignment)
  | _, [] => []
  | before, (gap, a) :: rest =>
      (before ++ gap.text escape, a) ::
        layout (before ++ gap.text escape ++ a.text escape) rest

end Assignments

/-- A declaration: blanks, a keyword in any case, blanks and assignments. -/
structure Declaration where
  keyword : Keyword
  declares : keyword.declaresVariables = true
  word : Bytes
  spelled : word.map Byte.toUpper = keyword.spelling
  indent : Bytes
  indented : indent.AllBlank
  gap : Blanks
  first : Assignment
  rest : Assignments

namespace Declaration

variable (d : Declaration) (escape : UInt8)

def opening : Bytes :=
  d.indent ++ (d.word ++ d.gap.bytes)

def text : Bytes :=
  d.opening ++ d.first.text escape ++ d.rest.text escape

def layout (before : Bytes) : List (Bytes × Assignment) :=
  (before ++ d.opening, d.first) ::
    d.rest.layout escape (before ++ d.opening ++ d.first.text escape)

end Declaration

/-! ## The lines of a declaration -/

theorem Bytes.AllBlank.lineFeed_not_mem {blanks : Bytes} (blank : blanks.AllBlank) :
    Byte.lineFeed ∉ blanks := by
  intro member
  exact absurd (blank _ member) (by decide)

/-- How a written line starts, up to the end of one of its assignments: it holds no line feed, it is
no comment, and it ends in a quote. -/
structure Line.Lead (start : Bytes) : Prop where
  oneLine : Byte.lineFeed ∉ start
  opens : ∃ b rest, start.trimLeft = b :: rest ∧ b ≠ Byte.hash
  quoted : ∃ body, ∃ q : Quote, start = body ++ [q.byte]

namespace Line

variable {escape : UInt8} (known : Byte.IsEscape escape)
include known

theorem Lead.append {start between : Bytes} (lead : Lead start)
    (oneLine : Byte.lineFeed ∉ between) (a : Assignment) :
    Lead (start ++ between ++ a.text escape) := by
  obtain ⟨b, rest, left, plain⟩ := lead.opens
  obtain ⟨body, ends⟩ := a.exists_text_eq_concat escape
  refine ⟨?_, ⟨b, rest ++ between ++ a.text escape, ?_, plain⟩,
    start ++ between ++ body, a.quote, ?_⟩
  · simp [lead.oneLine, oneLine, a.lineFeed_not_mem_text escape known.ne_lineFeed]
  · rw [List.append_assoc, Bytes.trimLeft_append, left]
    simp
  · simp [ends]

theorem lead_of_allBlank {blanks : Bytes} (blank : blanks.AllBlank) (a : Assignment) :
    Lead (blanks ++ a.text escape) := by
  obtain ⟨b, rest, starts, solid, plain⟩ := a.exists_text_eq_cons escape
  obtain ⟨body, ends⟩ := a.exists_text_eq_concat escape
  refine ⟨?_, ⟨b, rest, ?_, plain⟩, blanks ++ body, a.quote, ?_⟩
  · simp [blank.lineFeed_not_mem, a.lineFeed_not_mem_text escape known.ne_lineFeed]
  · rw [Bytes.trimLeft_append, Bytes.trimLeft_eq_nil_iff.mpr blank, starts]
    simp [Bytes.trimLeft, solid]
  · rw [ends, List.append_assoc]

/-- How what a written line contributes ends: in a blank if the line goes on, and in a quote
otherwise. -/
theorem Lead.getLast?_usable {start : Bytes} (lead : Lead start) (rest : Assignments) :
    (rest.goesOn = true ∧ ∃ b, (start ++ rest.usable escape).getLast? = some b ∧
      Byte.isBlank b = true) ∨
    (rest.goesOn = false ∧ ∃ q : Quote, (start ++ rest.usable escape).getLast? = some q.byte) := by
  induction rest generalizing start with
  | nil =>
      obtain ⟨body, q, rfl⟩ := lead.quoted
      exact Or.inr ⟨rfl, q, by simp [Assignments.usable]⟩
  | cons item rest ih =>
      obtain ⟨gap, a⟩ := item
      cases gap with
      | stay blanks =>
          have later := ih (lead.append known blanks.blank.lineFeed_not_mem a)
          simpa [Assignments.goesOn, Assignments.usable] using later
      | turn blanks t =>
          have last := List.getLast?_eq_some_getLast blanks.filled
          refine Or.inl ⟨rfl, blanks.bytes.getLast blanks.filled, ?_,
            blanks.blank _ (List.getLast_mem _)⟩
          rw [Assignments.usable, List.getLast?_append, last]
          rfl

omit known in
/-- A line that ends in neither a blank nor the escape byte is used as a whole. -/
theorem usable_of_getLast? {line : Line} {b : UInt8} (last : line.content.getLast? = some b)
    (solid : Byte.isBlank b = false) (other : b ≠ escape) :
    line.isContinued escape = false ∧ line.usable escape = line.content := by
  have whole : line.content.trimRight = line.content := by
    refine Bytes.trimRight_eq_self fun c found => ?_
    rwa [← Option.some.inj (last.symm.trans found)]
  have run : escapeRun escape line.content = 0 := by
    have none : line.content.getLast? ≠ some escape := by simpa [last] using other
    simpa using escapeRun_eq 0 none
  have final : line.isContinued escape = false := by
    rw [isContinued, whole, run]
    rfl
  exact ⟨final, by rw [← trimRight_of_not_isContinued final, whole]⟩

/-- A written line counts, goes on exactly if a gap turns to another line, and contributes all but
the escape byte.  It does not end in a carriage return. -/
theorem Lead.line_eq {start : Bytes} (lead : Lead start) (rest : Assignments) {line : Line}
    (content : line.content = start ++ rest.content escape) :
    line.isIgnored = false ∧ line.isContinued escape = rest.goesOn ∧
      line.usable escape = start ++ rest.usable escape ∧ chomp line.content = line.content := by
  have counts : line.isIgnored = false := by
    obtain ⟨b, more, left, plain⟩ := lead.opens
    rw [isIgnored, content, Bytes.trimLeft_append, left]
    simpa using plain
  refine ⟨counts, ?_⟩
  rcases lead.getLast?_usable known rest with ⟨goesOn, b, last, blank⟩ | ⟨ends, q, last⟩
  · have shape : line.content = (start ++ rest.usable escape) ++ [escape] := by
      simp [content, Assignments.content, goesOn]
    have other : (start ++ rest.usable escape).getLast? ≠ some escape := by
      rw [last]
      rintro same
      obtain rfl := Option.some.inj same
      cases known.not_isBlank.symm.trans blank
    obtain ⟨continued, used⟩ := usable_of_concat known.not_isBlank shape other
    exact ⟨continued.trans goesOn.symm, used, by rw [shape, chomp_concat _ known.ne_carriageReturn]⟩
  · have shape : line.content = start ++ rest.usable escape := by
      simp [content, Assignments.content, ends]
    have solid : Byte.isBlank q.byte = false := by cases q <;> rfl
    have other : q.byte ≠ Byte.carriageReturn := by cases q <;> decide
    rw [← shape] at last ⊢
    obtain ⟨final, used⟩ := usable_of_getLast? last solid (known.quote_ne q)
    refine ⟨final.trans ends.symm, used, if_neg ?_⟩
    rw [last]
    exact fun same => other (Option.some.inj same)

end Line

/-! ## Lines to pass over -/

theorem Line.cut_flatMap {pieces : List Bytes} (oneLine : ∀ raw ∈ pieces, Byte.lineFeed ∉ raw)
    (text : Bytes) :
    cut (pieces.flatMap (· ++ [Byte.lineFeed]) ++ text) = pieces ++ cut text := by
  induction pieces with
  | nil => rfl
  | cons raw pieces ih =>
      have first := oneLine raw List.mem_cons_self
      have later := ih fun other member => oneLine other (List.mem_cons_of_mem _ member)
      rw [List.flatMap_cons, List.append_assoc, List.append_assoc, List.singleton_append,
        cut_append, cut_of_not_mem first, later]
      rfl

theorem Line.extent_eq (pieces : List Bytes) :
    extent pieces = (pieces.flatMap (· ++ [Byte.lineFeed])).length := by
  induction pieces with
  | nil => rfl
  | cons raw pieces ih =>
      rw [extent, ih, List.flatMap_cons, List.length_append, List.length_append]
      rfl

theorem Line.count_flatMap {pieces : List Bytes} (oneLine : ∀ raw ∈ pieces, Byte.lineFeed ∉ raw) :
    (pieces.flatMap (· ++ [Byte.lineFeed])).count Byte.lineFeed = pieces.length := by
  have cut := congrArg List.length (cut_flatMap oneLine [])
  simpa [length_cut, cut_of_not_mem] using cut

theorem Line.counting_place {pieces : List Bytes}
    (silent : ∀ raw ∈ pieces, (⟨0, 0, chomp raw⟩ : Line).IsSilent) (number start : Nat) :
    Statement.counting (place number start pieces) = [] := by
  induction pieces generalizing number start with
  | nil => rfl
  | cons raw pieces ih =>
      have ignored : (⟨number, start, chomp raw⟩ : Line).isIgnored = true :=
        isSilent_iff.mp (silent raw List.mem_cons_self)
      have later := ih (fun other member => silent other (List.mem_cons_of_mem _ member))
        (number + 1) (start + raw.length + 1)
      rw [place, Statement.counting, List.filter_cons_of_neg (by simp [ignored])]
      exact later

namespace Assignments

section Shape

variable (escape : UInt8) (blanks : Blanks) (t : Turn) (a : Assignment) (rest : Assignments)

theorem append_text_stay (start : Bytes) : start ++ text escape ((.stay blanks, a) :: rest) =
    start ++ blanks.bytes ++ a.text escape ++ text escape rest := by
  simp [text, Gap.text]

theorem append_content_stay (start : Bytes) :
    start ++ content escape ((.stay blanks, a) :: rest) =
      start ++ blanks.bytes ++ a.text escape ++ content escape rest := by
  rw [content, usable, goesOn, content]
  simp only [List.append_assoc]

theorem add_length_stay (start : Bytes) (offset : Nat) :
    offset + (start ++ blanks.bytes ++ a.text escape).length =
      offset + start.length + blanks.bytes.length + (a.text escape).length := by
  simp [Nat.add_assoc]

theorem text_turn : text escape ((.turn blanks t, a) :: rest) = blanks.bytes ++ escape ::
    Byte.lineFeed :: (t.passed ++ (t.indent ++ a.text escape ++ text escape rest)) := by
  rw [text, List.flatMap_cons, ← text]
  simp [Gap.text]

theorem content_turn :
    content escape ((.turn blanks t, a) :: rest) = blanks.bytes ++ [escape] := rfl

end Shape

variable {escape : UInt8} (known : Byte.IsEscape escape)
include known

/-- The written text is cut into the line on which it starts and the later lines, of which those
between two assignments do not count. -/
theorem cut_text {start : Bytes} (lead : Line.Lead start) (rest : Assignments) :
    ∃ more, Line.cut (start ++ rest.text escape) = (start ++ rest.content escape) :: more ∧
      ∀ number offset, Statement.counting (Line.place (number + 1)
          (offset + (start ++ rest.content escape).length + 1) more) =
        rest.lines escape number (offset + start.length) := by
  induction rest generalizing start with
  | nil =>
      refine ⟨[], ?_, fun number offset => rfl⟩
      simp [text, content, usable, goesOn, Line.cut_of_not_mem lead.oneLine]
  | cons item rest ih =>
      obtain ⟨gap, a⟩ := item
      cases gap with
      | stay blanks =>
          obtain ⟨more, cut, counting⟩ := ih (lead.append known blanks.blank.lineFeed_not_mem a)
          refine ⟨more, ?_, ?_⟩
          · rw [append_content_stay, append_text_stay, cut]
          · intro number offset
            rw [append_content_stay, counting, lines, add_length_stay]
      | turn blanks t =>
          obtain ⟨more, cut, counting⟩ := ih (Line.lead_of_allBlank known t.indented a)
          have first : Byte.lineFeed ∉ start ++ (blanks.bytes ++ [escape]) := by
            simp [lead.oneLine, blanks.blank.lineFeed_not_mem, known.ne_lineFeed.symm]
          refine ⟨t.skipped ++ (t.indent ++ a.text escape ++ content escape rest) :: more, ?_, ?_⟩
          · have shape : start ++ text escape ((.turn blanks t, a) :: rest) =
                (start ++ (blanks.bytes ++ [escape])) ++ Byte.lineFeed ::
                  (t.passed ++ (t.indent ++ a.text escape ++ text escape rest)) := by
              simp [text_turn]
            rw [shape, Line.cut_append, Line.cut_of_not_mem first, Turn.passed,
              Line.cut_flatMap t.oneLine, cut]
            rfl
          · intro number offset
            have start' : offset + (start ++ (blanks.bytes ++ [escape])).length + 1 +
                Line.extent t.skipped =
                  offset + start.length + blanks.bytes.length + 2 + t.passed.length := by
              have passed : Line.extent t.skipped = t.passed.length := Line.extent_eq t.skipped
              simp only [List.length_append, List.length_singleton]
              omega
            obtain ⟨counts, -, -, whole⟩ := (Line.lead_of_allBlank known t.indented a).line_eq known
              rest (rfl : (⟨number + 1 + t.skipped.length, offset + start.length +
                blanks.bytes.length + 2 + t.passed.length,
                t.indent ++ a.text escape ++ content escape rest⟩ : Line).content = _)
            dsimp only at whole
            rw [content_turn, Line.place_append, Statement.counting, List.filter_append,
              ← Statement.counting, Line.counting_place t.silent, List.nil_append, start',
              Line.place, whole, List.filter_cons_of_pos (by rw [counts]; rfl), lines]
            exact congrArg (_ :: ·) (counting _ _)

/-- The lines on which assignments stand make one finished group, which reaches to the end of what
is written. -/
theorem isFinished_lines {start : Bytes} (lead : Line.Lead start) (rest : Assignments)
    (number offset : Nat) :
    let g : Statement.Group := ⟨⟨number, offset, start ++ rest.content escape⟩,
      rest.lines escape number (offset + start.length)⟩
    g.IsFinished escape ∧ g.last.stop = offset + (start ++ rest.text escape).length := by
  induction rest generalizing start number offset with
  | nil =>
      obtain ⟨-, continued, -, -⟩ := lead.line_eq known []
        (rfl : (⟨number, offset, start ++ content escape []⟩ : Line).content = _)
      refine ⟨⟨nofun, continued⟩, ?_⟩
      simp [Statement.Group.last, lines, Line.stop, content, usable, goesOn, text]
  | cons item rest ih =>
      obtain ⟨gap, a⟩ := item
      cases gap with
      | stay blanks =>
          rw [append_content_stay, append_text_stay, lines, ← add_length_stay]
          exact ih (lead.append known blanks.blank.lineFeed_not_mem a) number offset
      | turn blanks t =>
          obtain ⟨-, continued, -, -⟩ := lead.line_eq known ((.turn blanks t, a) :: rest)
            (rfl : (⟨number, offset, start ++
              content escape ((.turn blanks t, a) :: rest)⟩ : Line).content = _)
          obtain ⟨⟨joined, final⟩, stop⟩ := ih (Line.lead_of_allBlank known t.indented a)
            (number + 1 + t.skipped.length)
            (offset + start.length + blanks.bytes.length + 2 + t.passed.length)
          refine ⟨⟨?_, ?_⟩, ?_⟩
          · exact Statement.Group.isJoined_cons.mpr ⟨continued, joined⟩
          · rw [lines, Statement.Group.last_cons]
            exact final
          · rw [lines, Statement.Group.last_cons, stop, text_turn]
            simp
            omega

end Assignments

/-! ## What is read -/

def Assignment.after (a : Assignment) (keyword : Keyword) (escape : UInt8) (left : Bytes) :
    Variable where
  name := a.name
  keyword := keyword
  nameSpan := ⟨left.length, left.length + a.name.length⟩
  valueSpan := some ⟨left.length + a.name.length + 1,
    left.length + a.name.length + 1 + (a.quoted escape).length⟩
  line := left.count Byte.lineFeed

/-- What is declared after a text is declared on its last line, at the index there. -/
theorem Assignment.declared_eq (a : Assignment) (keyword : Keyword) (escape : UInt8) {left : Bytes}
    {number start index : Nat} (line : left.count Byte.lineFeed = number)
    (place : left.length = start + index) :
    a.declared ⟨keyword, escape, number, start⟩ index = a.after keyword escape left := by
  simp [declared, after, Variable.Site.declare, Variable.Site.span, line, place, Int.add_assoc]

namespace Assignments

/-- What follows an assignment on its line is nothing or starts with a blank. -/
theorem isBlank_head_usable (escape : UInt8) {rest : Assignments} {b : UInt8}
    (found : (rest.usable escape).head? = some b) : Byte.isBlank b = true := by
  cases rest with
  | nil => cases found
  | cons item rest =>
      obtain ⟨gap, a⟩ := item
      cases gap with
      | stay blanks =>
          rw [usable, List.head?_append_of_ne_nil _ blanks.filled] at found
          exact blanks.blank b (List.mem_of_mem_head? found)
      | turn blanks t => exact blanks.blank b (List.mem_of_mem_head? found)

variable {escape : UInt8} (known : Byte.IsEscape escape)
include known

/-- A turn to a later line has one line feed more than it passes lines over. -/
theorem count_turn (blanks : Blanks) (t : Turn) :
    (Gap.text escape (.turn blanks t)).count Byte.lineFeed = 1 + t.skipped.length := by
  have blank : blanks.bytes.count Byte.lineFeed = 0 :=
    List.count_eq_zero.mpr blanks.blank.lineFeed_not_mem
  have indent : t.indent.count Byte.lineFeed = 0 :=
    List.count_eq_zero.mpr t.indented.lineFeed_not_mem
  have passed : t.passed.count Byte.lineFeed = t.skipped.length :=
    Line.count_flatMap t.oneLine
  rw [Gap.text, List.count_append, blank, List.count_cons_of_ne known.ne_lineFeed,
    List.count_cons_self, List.count_append, passed, indent]
  omega

theorem readNames_usable (keyword : Keyword) (line start : Int) (seen : Bool) (index : Nat)
    {blanks : Bytes} (blank : blanks.AllBlank) (a : Assignment) (rest : Assignments) :
    Variable.readNames ⟨keyword, escape, line, start⟩ (.between seen) index 0
        (blanks ++ (a.text escape ++ rest.usable escape)) =
      let more := Variable.readNames ⟨keyword, escape, line, start⟩ (.between true)
        (index + blanks.length + (a.text escape).length) 0 (rest.usable escape)
      (a.declared ⟨keyword, escape, line, start⟩ (index + blanks.length) :: more.1, more.2) := by
  rw [Variable.readNames_blanks index _ blank]
  exact Variable.readNames_assignment _ known.not_isBlank known.quote_ne
    (fun b found => isBlank_head_usable escape found) a seen

/-- What is read of assignments, first on the line on which they start and then on the later lines,
are their declarations, each at its place. -/
def AreReadBack (keyword : Keyword) (escape : UInt8) (rest : Assignments) : Prop :=
  ∀ (left : Bytes) (number start index : Nat), left.count Byte.lineFeed = number →
    left.length = start + index →
    let found := Variable.readNames ⟨keyword, escape, number, start⟩ (.between true) index 0
      (rest.usable escape)
    found.1 ++ Variable.readLines keyword escape found.2
        (rest.lines escape number (start + index)) =
      (rest.layout escape left).map fun (before, a) => a.after keyword escape before

theorem AreReadBack.cons {keyword : Keyword} {rest : Assignments}
    (later : rest.AreReadBack keyword escape) (a : Assignment) (seen : Bool) {blanks : Bytes}
    (blank : blanks.AllBlank) {left : Bytes} {number start index : Nat}
    (line : left.count Byte.lineFeed = number)
    (place : left.length = start + (index + blanks.length)) :
    let found := Variable.readNames ⟨keyword, escape, number, start⟩ (.between seen) index 0
      (blanks ++ (a.text escape ++ rest.usable escape))
    found.1 ++ Variable.readLines keyword escape found.2
        (rest.lines escape number (left ++ a.text escape).length) =
      a.after keyword escape left :: (rest.layout escape (left ++ a.text escape)).map
        fun (before, a) => a.after keyword escape before := by
  have text : (a.text escape).count Byte.lineFeed = 0 :=
    List.count_eq_zero.mpr (a.lineFeed_not_mem_text escape known.ne_lineFeed)
  have line' : (left ++ a.text escape).count Byte.lineFeed = number := by
    rw [List.count_append, line, text, Nat.add_zero]
  have place' : (left ++ a.text escape).length =
      start + (index + blanks.length + (a.text escape).length) := by
    rw [List.length_append, place, Nat.add_assoc]
  rw [readNames_usable known keyword _ _ seen index blank a rest, place']
  dsimp only
  rw [a.declared_eq keyword escape line place, List.cons_append, later _ _ _ _ line' place']

theorem areReadBack (keyword : Keyword) (rest : Assignments) : rest.AreReadBack keyword escape := by
  induction rest with
  | nil =>
      intro left number start index line place
      rfl
  | cons item rest ih =>
      intro left number start index line place
      obtain ⟨gap, a⟩ := item
      cases gap with
      | stay blanks =>
          have line' : (left ++ blanks.bytes).count Byte.lineFeed = number := by
            rw [List.count_append, line,
              List.count_eq_zero.mpr blanks.blank.lineFeed_not_mem, Nat.add_zero]
          have place' : (left ++ blanks.bytes).length = start + (index + blanks.bytes.length) := by
            rw [List.length_append, place, Nat.add_assoc]
          have offset : start + index + blanks.bytes.length + (a.text escape).length =
              (left ++ blanks.bytes ++ a.text escape).length := by
            rw [List.length_append, List.length_append, place]
          rw [usable, lines, offset]
          exact ih.cons known a true blanks.blank line' place'
      | turn blanks t =>
          have line' : (left ++ Gap.text escape (.turn blanks t)).count Byte.lineFeed =
              number + 1 + t.skipped.length := by
            rw [List.count_append, line, Nat.add_assoc, count_turn known]
          have place' : (left ++ Gap.text escape (.turn blanks t)).length = start + index +
              blanks.bytes.length + 2 + t.passed.length + (0 + t.indent.length) := by
            simp only [Gap.text, List.length_append, List.length_cons, place]
            omega
          have offset : start + index + blanks.bytes.length + 2 + t.passed.length +
              (t.indent ++ a.text escape).length =
                (left ++ Gap.text escape (.turn blanks t) ++ a.text escape).length := by
            rw [List.length_append, List.length_append, place']
            omega
          obtain ⟨-, -, used, -⟩ := (Line.lead_of_allBlank known t.indented a).line_eq known rest
            (rfl : (⟨number + 1 + t.skipped.length, start + index +
              blanks.bytes.length + 2 + t.passed.length,
              t.indent ++ a.text escape ++ content escape rest⟩ : Line).content = _)
          rw [usable, Variable.readNames_of_allBlank _ _ _ blanks.blank, lines]
          dsimp only
          rw [Variable.readLines, used.trans (List.append_assoc _ _ _), Variable.readLine_between,
            offset]
          exact ih.cons known a true t.indented line' place'

end Assignments

end Dockerfile
