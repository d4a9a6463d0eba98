import Dockerfile.Proofs.Text.Bytes
import Dockerfile.Statement

/-!
# Statements as groups of lines

The lines that count fall into groups: a continued line belongs together with the line after it.
Reading statements with a pending one is the same as forming the groups first and then reading each
group by itself, and what is read from a group is given outright by its lines.
-/

namespace Dockerfile

namespace Line

theorem escapeRun_append (escape : UInt8) (text : Bytes) :
    ∃ body, text = body ++ List.replicate (escapeRun escape text) escape ∧
      body.getLast? ≠ some escape := by
  refine ⟨(text.reverse.dropWhile (· == escape)).reverse, ?_, ?_⟩
  · have run : (text.reverse.takeWhile (· == escape)).reverse =
        List.replicate (escapeRun escape text) escape := by
      rw [List.eq_replicate_iff]
      refine ⟨List.length_reverse, ?_⟩
      intro b member
      exact beq_iff_eq.mp
        (List.all_eq_true.mp List.all_takeWhile b (List.mem_reverse.mp member))
    have split := Bytes.dropWhile_append_takeWhile_reverse (· == escape) text
    rw [run] at split
    exact split.symm
  · intro last
    exact absurd (Bytes.getLast_dropWhile_reverse last) (by rw [beq_self_eq_true]; decide)

/-- A continued line ends in the escape byte, blanks apart. -/
theorem trimRight_of_isContinued {escape : UInt8} {line : Line}
    (continued : line.isContinued escape = true) :
    line.content.trimRight = line.usable escape ++ [escape] := by
  obtain ⟨body, split, -⟩ := escapeRun_append escape line.content.trimRight
  have odd : escapeRun escape line.content.trimRight % 2 = 1 := beq_iff_eq.mp continued
  obtain ⟨n, run⟩ := Nat.exists_eq_add_one_of_ne_zero
    (show escapeRun escape line.content.trimRight ≠ 0 by omega)
  rw [run, List.replicate_succ', ← List.append_assoc] at split
  rw [usable, if_pos continued, split, List.dropLast_concat]

theorem trimRight_of_not_isContinued {escape : UInt8} {line : Line}
    (final : line.isContinued escape = false) : line.content.trimRight = line.usable escape := by
  rw [usable, if_neg (by rw [final]; decide)]

/-- What follows the usable part of a line: the escape byte if the line is continued, and blanks. -/
theorem content_eq (escape : UInt8) (line : Line) :
    ∃ tail, line.content = line.usable escape ++ tail ∧
      ∀ b, tail.head? = some b → b = escape ∨ Byte.isBlank b = true := by
  obtain ⟨blanks, split, blank⟩ := Bytes.exists_trimRight_append line.content
  cases continued : line.isContinued escape with
  | true =>
      rw [trimRight_of_isContinued continued, List.append_assoc] at split
      refine ⟨_, split, ?_⟩
      intro b head
      exact Or.inl (Option.some.inj head).symm
  | false =>
      rw [trimRight_of_not_isContinued continued] at split
      refine ⟨_, split, ?_⟩
      intro b head
      exact Or.inr (blank b (List.mem_of_head? head))

theorem isPrefix_usable (escape : UInt8) (line : Line) : line.usable escape <+: line.content := by
  obtain ⟨tail, split, -⟩ := line.content_eq escape
  exact ⟨tail, split.symm⟩

/-- A line that counts has a byte after its indent that is neither a blank nor starts a comment. -/
theorem exists_trimLeft_of_not_isIgnored {line : Line} (counts : line.isIgnored = false) :
    ∃ b rest, line.content.trimLeft = b :: rest ∧ Byte.isBlank b = false ∧ b ≠ Byte.hash := by
  unfold isIgnored at counts
  split at counts
  · cases counts
  · rename_i b rest left
    refine ⟨b, rest, left, Bytes.not_isBlank_head_trimLeft left, ?_⟩
    rintro rfl
    cases counts

/-- The usable part of a line that counts reaches its first byte that is no blank. -/
theorem indent_le_length_usable (escape : UInt8) {line : Line} (counts : line.isIgnored = false) :
    line.content.indent ≤ (line.usable escape).length := by
  obtain ⟨b, rest, left, solid, -⟩ := exists_trimLeft_of_not_isIgnored counts
  obtain ⟨blanks, split, blank⟩ := Bytes.exists_trimRight_append line.content
  have inside : line.content.indent < line.content.trimRight.length := by
    apply Nat.lt_of_not_le
    intro short
    have member : b ∈ blanks := by
      have tail := Bytes.drop_indent line.content
      rw [left, split, List.drop_append, ← split,
        List.drop_eq_nil_of_le short, List.nil_append] at tail
      exact List.mem_of_mem_drop (tail ▸ List.mem_cons_self)
    rw [blank b member] at solid
    cases solid
  cases continued : line.isContinued escape with
  | true =>
      rw [trimRight_of_isContinued continued, List.length_append, List.length_singleton] at inside
      exact Nat.le_of_lt_succ inside
  | false =>
      rw [trimRight_of_not_isContinued continued] at inside
      exact Nat.le_of_lt inside

end Line

namespace Statement

/-- Lines that are read together; there is always a first one. -/
structure Group where
  first : Line
  rest : List Line

namespace Group

def lines (g : Group) : List Line :=
  g.first :: g.rest

def last (g : Group) : Line :=
  g.rest.getLast?.getD g.first

def add (escape : UInt8) (line : Line) : List Group → List Group
  | [] => [⟨line, []⟩]
  | next :: others =>
      if line.isContinued escape then ⟨line, next.lines⟩ :: others
      else ⟨line, []⟩ :: next :: others

end Group

def groups (escape : UInt8) (lines : List Line) : List Group :=
  lines.foldr (Group.add escape) []

/-- The lines that are neither blank nor comments. -/
def counting (lines : List Line) : List Line :=
  lines.filter (!·.isIgnored)

def ofGroup (escape : UInt8) (g : Group) : Statement :=
  g.rest.foldl (extend escape) (first escape g.first)

/-- What becomes of a pending statement and of the groups after it. -/
def resume (escape : UInt8) (s : Statement) : List Group → List Statement
  | [] => [s]
  | g :: others => g.lines.foldl (extend escape) s :: others.map (ofGroup escape)

theorem ofGroup_add_of_isContinued {escape : UInt8} {line : Line}
    (continued : line.isContinued escape = true) (groups : List Group) :
    (Group.add escape line groups).map (ofGroup escape) =
      resume escape (first escape line) groups := by
  cases groups with
  | nil => rfl
  | cons next others =>
      rw [Group.add, if_pos continued]
      rfl

theorem resume_add_of_isContinued {escape : UInt8} {line : Line}
    (continued : line.isContinued escape = true) (s : Statement) (groups : List Group) :
    resume escape s (Group.add escape line groups) =
      resume escape (s.extend escape line) groups := by
  cases groups with
  | nil => rfl
  | cons next others =>
      rw [Group.add, if_pos continued]
      rfl

theorem add_of_not_isContinued {escape : UInt8} {line : Line}
    (final : line.isContinued escape = false) (groups : List Group) :
    Group.add escape line groups = ⟨line, []⟩ :: groups := by
  cases groups with
  | nil => rfl
  | cons next others =>
      rw [Group.add, if_neg (by rw [final]; decide)]

/-- Reading on with a pending statement, and reading afresh, are both reading group by group. -/
theorem scan_eq_groups (escape : UInt8) (lines : List Line) :
    scan escape none lines = (groups escape (counting lines)).map (ofGroup escape) ∧
      ∀ s, scan escape (some s) lines = resume escape s (groups escape (counting lines)) := by
  induction lines with
  | nil => exact ⟨rfl, fun _ => rfl⟩
  | cons line rest ih =>
      obtain ⟨fresh, pending⟩ := ih
      cases ignored : line.isIgnored with
      | true =>
          have skipped : counting (line :: rest) = counting rest :=
            List.filter_cons_of_neg (by rw [ignored]; decide)
          rw [skipped]
          constructor
          · rw [scan, if_pos ignored, fresh]
          · intro s
            rw [scan, if_pos ignored, pending]
      | false =>
          have kept : counting (line :: rest) = line :: counting rest :=
            List.filter_cons_of_pos (by rw [ignored]; rfl)
          have grouped : groups escape (line :: counting rest) =
              Group.add escape line (groups escape (counting rest)) := rfl
          rw [kept, grouped]
          cases continued : line.isContinued escape with
          | true =>
              rw [ofGroup_add_of_isContinued continued]
              constructor
              · rw [scan, if_neg (by rw [ignored]; decide)]
                dsimp only
                rw [if_pos continued, pending]
              · intro s
                rw [resume_add_of_isContinued continued, scan, if_neg (by rw [ignored]; decide)]
                dsimp only
                rw [if_pos continued, pending]
          | false =>
              rw [add_of_not_isContinued continued]
              constructor
              · rw [scan, if_neg (by rw [ignored]; decide)]
                dsimp only
                rw [if_neg (by rw [continued]; decide), fresh]
                rfl
              · intro s
                rw [scan, if_neg (by rw [ignored]; decide)]
                dsimp only
                rw [if_neg (by rw [continued]; decide), fresh]
                rfl

theorem ofLines_eq (escape : UInt8) (lines : List Line) :
    ofLines escape lines = (groups escape (counting lines)).map (ofGroup escape) :=
  (scan_eq_groups escape lines).1

/-! ## What a group's lines give -/

/-- What a later line contributes: all of its usable part. -/
def whole (escape : UInt8) (line : Line) : List Stretch :=
  stretch line.number line.start (line.start + (line.usable escape).length)

/-- The offset where the last of some stretches ends, or else `start`. -/
def stopOf (start : Int) (stretches : List Stretch) : Int :=
  (stretches.getLast?.map fun s => s.span.stop).getD start

theorem stopOf_append (start : Int) (left right : List Stretch) :
    stopOf start (left ++ right) = stopOf (stopOf start left) right := by
  rw [stopOf, stopOf, List.getLast?_append]
  cases right.getLast? <;> rfl

theorem stopOf_stretch (before : Int) (line start stop : Nat) :
    stopOf before (stretch line start stop) = if start < stop then (stop : Int) else before := by
  unfold stretch
  split <;> rfl

theorem stopOf_stretch_of_le (before : Int) (line : Nat) {start stop : Nat}
    (order : start ≤ stop) :
    stopOf before (stretch line start stop) = if start = stop then before else stop := by
  rw [stopOf_stretch]
  split
  · rw [if_neg (by omega)]
  · rw [if_pos (by omega)]

/-- More lines leave the keyword as it is and add their usable parts. -/
theorem foldl_extend (escape : UInt8) (lines : List Line) (s : Statement) :
    lines.foldl (extend escape) s =
      { s with
        stretches := s.stretches ++ lines.flatMap (whole escape)
        stop := stopOf s.stop (lines.flatMap (whole escape))
        raw := ⟨s.raw.start,
          (lines.getLast?.map fun line => (line.stop : Int)).getD s.raw.stop⟩ } := by
  induction lines generalizing s with
  | nil =>
      rw [List.flatMap_nil, List.append_nil]
      rfl
  | cons line rest ih =>
      have last : ((line :: rest).getLast?.map fun line => (line.stop : Int)).getD s.raw.stop =
          (rest.getLast?.map fun line => (line.stop : Int)).getD line.stop := by
        rw [List.getLast?_cons]
        cases rest.getLast? <;> rfl
      have next : stopOf s.stop (whole escape line) = (s.extend escape line).stop :=
        stopOf_stretch _ _ _ _
      rw [List.foldl_cons, ih, List.flatMap_cons, stopOf_append, ← List.append_assoc, last, next]
      rfl

end Statement

namespace Line

def word (escape : UInt8) (line : Line) : Bytes :=
  ((line.usable escape).drop line.content.indent).takeWhile (!Byte.isBlank ·)

def wordStop (escape : UInt8) (line : Line) : Nat :=
  line.content.indent + (line.word escape).length

/-- Where the text after the opening word and its blanks starts. -/
def argumentStart (escape : UInt8) (line : Line) : Nat :=
  line.wordStop escape + Bytes.indent ((line.usable escape).drop (line.wordStop escape))

theorem wordStop_le (escape : UInt8) {line : Line} (counts : line.isIgnored = false) :
    line.wordStop escape ≤ (line.usable escape).length := by
  have room := indent_le_length_usable escape counts
  have short := Bytes.length_takeWhile_le (!Byte.isBlank ·)
    ((line.usable escape).drop line.content.indent)
  rw [List.length_drop] at short
  change _ + List.length (List.takeWhile _ _) ≤ _
  omega

theorem argumentStart_le (escape : UInt8) {line : Line} (counts : line.isIgnored = false) :
    line.argumentStart escape ≤ (line.usable escape).length := by
  have room := wordStop_le escape counts
  have short := Bytes.indent_le ((line.usable escape).drop (line.wordStop escape))
  rw [List.length_drop] at short
  rw [argumentStart]
  omega

theorem isBlank_wordStop {escape : UInt8} {line : Line} {b : UInt8}
    (next : (line.usable escape)[line.wordStop escape]? = some b) : Byte.isBlank b = true := by
  have split := List.takeWhile_append_dropWhile
    (l := (line.usable escape).drop line.content.indent) (p := (!Byte.isBlank ·))
  have stops := List.head?_dropWhile_not (!Byte.isBlank ·)
    ((line.usable escape).drop line.content.indent)
  rw [wordStop, ← List.getElem?_drop, ← split, word,
    List.getElem?_append_right (Nat.le_refl _), Nat.sub_self, ← List.head?_eq_getElem?] at next
  rw [next] at stops
  simpa using stops

theorem isBlank_before_argument {escape : UInt8} {line : Line}
    (present : line.argumentStart escape < (line.usable escape).length) :
    ∃ n b, line.argumentStart escape = n + 1 ∧ line.content.indent ≤ n ∧
      (line.usable escape)[n]? = some b ∧ Byte.isBlank b = true := by
  have reach : line.wordStop escape < (line.usable escape).length :=
    Nat.lt_of_le_of_lt (Nat.le_add_right _ _) present
  have gap : 0 < Bytes.indent ((line.usable escape).drop (line.wordStop escape)) := by
    have next := List.getElem?_eq_getElem reach
    have blank := isBlank_wordStop next
    rw [Bytes.indent, List.drop_eq_getElem_cons reach, List.takeWhile_cons_of_pos blank]
    exact Nat.zero_lt_succ _
  have before : line.argumentStart escape - 1 < (line.usable escape).length := by omega
  refine ⟨line.argumentStart escape - 1, (line.usable escape)[line.argumentStart escape - 1],
    ?_, ?_, List.getElem?_eq_getElem before, ?_⟩
  · rw [argumentStart]
    omega
  · have indent : line.content.indent ≤ line.wordStop escape := Nat.le_add_right _ _
    rw [argumentStart]
    omega
  · have inside : line.argumentStart escape - 1 - line.wordStop escape <
        Bytes.indent ((line.usable escape).drop (line.wordStop escape)) := by
      rw [argumentStart]
      omega
    apply Bytes.isBlank_of_lt_indent inside
    rw [List.getElem?_drop, ← List.getElem?_eq_getElem before]
    congr 1
    rw [argumentStart]
    omega

end Line

namespace Statement

theorem first_eq (escape : UInt8) {line : Line} (counts : line.isIgnored = false) :
    first escape line =
      { line := line.number
        word := line.word escape
        keyword := ⟨(line.start + line.content.indent : Nat),
          (line.start + line.wordStop escape : Nat)⟩
        stretches := stretch line.number (line.start + line.argumentStart escape)
          (line.start + (line.usable escape).length)
        stop := stopOf (line.start + line.wordStop escape : Nat)
          (stretch line.number (line.start + line.argumentStart escape)
            (line.start + (line.usable escape).length))
        raw := ⟨(line.start + line.content.indent : Nat), line.stop⟩ } := by
  have inside := Line.argumentStart_le escape counts
  have word : line.start + line.content.indent + (line.word escape).length =
      line.start + line.wordStop escape := Nat.add_assoc _ _ _
  have argument : line.start + line.wordStop escape +
      Bytes.indent ((line.usable escape).drop (line.wordStop escape)) =
        line.start + line.argumentStart escape := Nat.add_assoc _ _ _
  rw [stopOf_stretch_of_le _ _ (Nat.add_le_add_left inside _)]
  unfold first
  dsimp only
  rw [← Line.word, ← Line.wordStop, word, argument]

/-- The statement on a group whose first line counts, field by field. -/
theorem ofGroup_eq (escape : UInt8) {g : Group} (counts : g.first.isIgnored = false) :
    ofGroup escape g =
      { line := g.first.number
        word := g.first.word escape
        keyword := ⟨(g.first.start + g.first.content.indent : Nat),
          (g.first.start + g.first.wordStop escape : Nat)⟩
        stretches := stretch g.first.number (g.first.start + g.first.argumentStart escape)
          (g.first.start + (g.first.usable escape).length) ++ g.rest.flatMap (whole escape)
        stop := stopOf (g.first.start + g.first.wordStop escape : Nat)
          (stretch g.first.number (g.first.start + g.first.argumentStart escape)
            (g.first.start + (g.first.usable escape).length) ++ g.rest.flatMap (whole escape))
        raw := ⟨(g.first.start + g.first.content.indent : Nat), g.last.stop⟩ } := by
  have last : (g.rest.getLast?.map fun line => (line.stop : Int)).getD g.first.stop =
      g.last.stop := by
    rw [Group.last]
    cases g.rest.getLast? <;> rfl
  rw [ofGroup, foldl_extend, first_eq escape counts, stopOf_append, last]

end Statement

end Dockerfile
