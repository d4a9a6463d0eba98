import Dockerfile.Proofs.Statement.Grouping

/-!
# Lines put one after the other

A group whose last line is not continued is finished: whatever lines follow it, they are grouped by
themselves.  So a text that ends where a line starts, and whose last instruction is finished, keeps
its groups when more text is put behind it, provided that the block of directives ends before or at
the seam.
-/

namespace Dockerfile

namespace Statement

namespace Group

def IsJoined (escape : UInt8) (g : Group) : Prop :=
  ∀ line ∈ g.lines.dropLast, line.isContinued escape = true

/-- Every line but the last is continued, and the last is not. -/
def IsFinished (escape : UInt8) (g : Group) : Prop :=
  g.IsJoined escape ∧ g.last.isContinued escape = false

@[simp]
theorem last_cons (first second : Line) (others : List Line) :
    last ⟨first, second :: others⟩ = last ⟨second, others⟩ := by
  simp [last, List.getLast?_cons]

theorem isJoined_cons {escape : UInt8} {first second : Line} {others : List Line} :
    IsJoined escape ⟨first, second :: others⟩ ↔
      first.isContinued escape = true ∧ IsJoined escape ⟨second, others⟩ := by
  simp [IsJoined, lines]

end Group

/-- The lines of a group are read as that group if it is finished or nothing follows. -/
theorem groups_lines_append {escape : UInt8} {g : Group} (joined : g.IsJoined escape)
    {more : List Line} (ends : more = [] ∨ g.last.isContinued escape = false) :
    groups escape (g.lines ++ more) = g :: groups escape more := by
  obtain ⟨first, rest⟩ := g
  induction rest generalizing first with
  | nil =>
      change Group.add escape first (groups escape more) = _
      rcases ends with rfl | final
      · rfl
      · exact add_of_not_isContinued final _
  | cons second others ih =>
      obtain ⟨continued, joined⟩ := Group.isJoined_cons.mp joined
      rw [Group.last_cons] at ends
      have below := ih second joined ends
      change Group.add escape first (groups escape (Group.lines ⟨second, others⟩ ++ more)) = _
      rw [below, Group.add, if_pos continued]
      rfl

/-- Finished groups stay as they are, whatever follows them. -/
theorem groups_flatMap_append {escape : UInt8} {finished : List Group}
    (closed : ∀ g ∈ finished, g.IsFinished escape) (more : List Line) :
    groups escape (finished.flatMap Group.lines ++ more) = finished ++ groups escape more := by
  induction finished with
  | nil => rfl
  | cons g others ih =>
      have first := closed g List.mem_cons_self
      have rest := ih fun h member => closed h (List.mem_cons_of_mem _ member)
      rw [List.flatMap_cons, List.append_assoc, groups_lines_append first.1 (Or.inr first.2), rest]
      rfl

/-- How a group stands among the groups of some lines: those before it are finished, and so is the
group itself unless it is the last one. -/
theorem isFinished_of_split {escape : UInt8} (solid : Byte.isBlank escape = false)
    {kept : List Line} {before after : List Group} {g : Group}
    (split : groups escape kept = before ++ g :: after) :
    (∀ h ∈ before, h.IsFinished escape) ∧ g.IsJoined escape ∧
      (after = [] ∨ g.last.isContinued escape = false) := by
  have grouping := (isGrouping_iff solid).mpr (rfl : (groups escape kept).map Group.lines = _)
  rw [split] at grouping
  have joined : ∀ h ∈ before ++ g :: after, h.IsJoined escape := by
    intro h member line inside
    exact (Line.goesOn_iff solid).mp
      (grouping.inner h.lines (List.mem_map_of_mem member) line inside)
  have ends : ∀ h ∈ (before ++ g :: after).dropLast, h.last.isContinued escape = false := by
    intro h member
    rw [← Bool.not_eq_true, ← Line.goesOn_iff solid]
    refine grouping.ends h.lines ?_ h.last (Instruction.getLast?_lines h)
    rw [← List.map_dropLast]
    exact List.mem_map_of_mem member
  rw [List.dropLast_append_of_ne_nil (List.cons_ne_nil g after)] at ends
  refine ⟨?_, joined g (by simp), ?_⟩
  · intro h member
    exact ⟨joined h (List.mem_append_left _ member), ends h (List.mem_append_left _ member)⟩
  · cases after with
    | nil => exact Or.inl rfl
    | cons next others =>
        refine Or.inr (ends g (List.mem_append_right _ ?_))
        rw [List.dropLast_cons_of_ne_nil (List.cons_ne_nil _ _)]
        exact List.mem_cons_self

theorem counting_drop_concat {lines : List Line} {line : Line} (ignored : line.isIgnored = true)
    {n : Nat} (behind : n ≤ lines.length) :
    counting ((lines ++ [line]).drop n) = counting (lines.drop n) := by
  rw [List.drop_append_of_le_length behind]
  simp [counting, ignored]

end Statement

/-- A directive is written in a comment, so a line that counts ends the block. -/
theorem Directive.block_of_not_isIgnored {line : Line} (counts : line.isIgnored = false)
    (rest : List Line) : block (line :: rest) = [] := by
  obtain ⟨b, tail, left, -, other⟩ := Line.exists_trimLeft_of_not_isIgnored counts
  simp [block, ofLine?, parse?, left, other]

/-- A block that ends within the lines does not depend on what follows them. -/
theorem Directive.block_append {lines more : List Line}
    (ends : (block lines).length < lines.length ∨ block more = []) :
    block (lines ++ more) = block lines := by
  induction lines with
  | nil => exact ends.resolve_left (Nat.not_lt_zero _)
  | cons line rest ih =>
      simp only [block, List.cons_append] at ends ⊢
      cases found : ofLine? line with
      | none => rfl
      | some d =>
          simp only [found, List.length_cons, Nat.add_lt_add_iff_right] at ends
          simp only [ih ends]

/-- The text is empty or ends in a line feed. -/
def Bytes.EndsLine (text : Bytes) : Prop :=
  text = [] ∨ text.getLast? = some Byte.lineFeed

namespace Line

/-- The lines of a text that ends in a line feed, less the empty one after it, and the lines of
what follows. -/
theorem split_append {front : Bytes} (whole : front.EndsLine) (back : Bytes) :
    split (front ++ back) = (split front).dropLast ++
      place (front.count Byte.lineFeed) front.length (cut back) := by
  rcases whole with rfl | last
  · rfl
  · obtain ⟨body, rfl⟩ := List.getLast?_eq_some_iff.mp last
    have parts (rest : Bytes) : split (body ++ [Byte.lineFeed] ++ rest) =
        place 0 0 (cut body) ++
          place (body.count Byte.lineFeed + 1) (body.length + 1) (cut rest) := by
      rw [List.append_assoc, List.singleton_append, split, cut_append, place_append, length_cut,
        extent_cut]
      simp
    have front := parts []
    rw [List.append_nil] at front
    rw [front, parts back]
    simp [cut, place]

end Line

namespace Document

variable {uri front back : Bytes}

/-- The last instruction, if there is one, does not end on a continued line. -/
def IsSettled (doc : Document) : Prop :=
  ∀ g, doc.groups.getLast? = some g → g.last.isContinued doc.escape = false

instance (doc : Document) : Decidable doc.IsSettled :=
  decidable_of_iff (doc.groups.getLast?.all (fun g => !g.last.isContinued doc.escape) = true)
    (by cases last : doc.groups.getLast? <;> simp [IsSettled, last])

theorem IsSettled.isFinished {doc : Document} (settled : doc.IsSettled) :
    ∀ g ∈ doc.groups, g.IsFinished doc.escape := by
  intro g member
  obtain ⟨before, after, split⟩ := List.append_of_mem member
  obtain ⟨-, joined, ends⟩ := Statement.isFinished_of_split doc.escape_not_isBlank split
  rcases ends with rfl | final
  · exact ⟨joined, settled g (by simp [split])⟩
  · exact ⟨joined, final⟩

/-- The lines that a text adds behind another one. -/
def linesBehind (front back : Bytes) : List Line :=
  Line.place (front.count Byte.lineFeed) front.length (Line.cut back)

theorem length_dropLast_lines :
    (ofText uri front).lines.dropLast.length = front.count Byte.lineFeed := by
  have lines : (ofText uri front).lines.length = front.count Byte.lineFeed + 1 :=
    Line.length_split front
  rw [List.length_dropLast, lines, Nat.add_sub_cancel]

section Seam

variable (whole : front.EndsLine)
  (ends : (Directive.block (ofText uri front).lines).length < front.count Byte.lineFeed ∨
    Directive.block (linesBehind front back) = [])
include whole

theorem lines_append : (ofText uri (front ++ back)).lines =
    (ofText uri front).lines.dropLast ++ linesBehind front back :=
  Line.split_append whole back

theorem lines_eq_dropLast_append : (ofText uri front).lines =
    (ofText uri front).lines.dropLast ++ [⟨front.count Byte.lineFeed, front.length, []⟩] := by
  have lines : (ofText uri (front ++ [])).lines = _ := lines_append whole
  rw [List.append_nil] at lines
  exact lines

theorem block_lines : Directive.block (ofText uri front).lines =
    Directive.block (ofText uri front).lines.dropLast := by
  conv_lhs => rw [lines_eq_dropLast_append whole]
  exact Directive.block_append (Or.inr rfl)

include ends

theorem directives_append : Directive.block (ofText uri (front ++ back)).lines =
    Directive.block (ofText uri front).lines := by
  rw [lines_append whole, block_lines whole]
  apply Directive.block_append
  rwa [length_dropLast_lines, ← block_lines whole]

theorem escape_append : (ofText uri (front ++ back)).escape = (ofText uri front).escape :=
  congrArg Directive.escape (directives_append whole ends)

theorem countingLines_append : (ofText uri (front ++ back)).countingLines =
    (ofText uri front).countingLines ++ Statement.counting (linesBehind front back) := by
  have behind : (Directive.block (ofText uri front).lines).length ≤
      (ofText uri front).lines.dropLast.length := by
    rw [block_lines whole]
    exact Directive.length_block_le _
  have same := Statement.counting_drop_concat
    (rfl : (⟨front.count Byte.lineFeed, front.length, []⟩ : Line).isIgnored = true) behind
  rw [← lines_eq_dropLast_append whole] at same
  rw [countingLines, directives_append whole ends, lines_append whole,
    List.drop_append_of_le_length behind, countingLines, same]
  exact List.filter_append ..

theorem groups_append (settled : (ofText uri front).IsSettled) :
    (ofText uri (front ++ back)).groups = (ofText uri front).groups ++
      Statement.groups (ofText uri front).escape
        (Statement.counting (linesBehind front back)) := by
  have lines : (ofText uri front).groups.flatMap Statement.Group.lines =
      (ofText uri front).countingLines := Statement.flatMap_lines_groups _ _
  rw [groups, escape_append whole ends, countingLines_append whole ends, ← lines]
  exact Statement.groups_flatMap_append settled.isFinished _

end Seam

end Document

end Dockerfile
