import Dockerfile.Proofs.Guarded.Document

/-!
# Lines as a partition of the text

The lines and what stands between them make up the text, each byte once.  Between two lines there is
a line feed, with a carriage return before it or without; after the last line there is nothing, or a
carriage return alone.  So every offset belongs to one line, with the terminator that follows it,
and the search by halves finds this line.
-/

namespace Dockerfile

namespace Line

/-- What `chomp` leaves away is nothing or a carriage return. -/
theorem exists_chomp_append (raw : Bytes) :
    ∃ ending, raw = chomp raw ++ ending ∧ (ending = [] ∨ ending = [Byte.carriageReturn]) := by
  unfold chomp
  split
  · rename_i last
    obtain ⟨front, rfl⟩ := List.getLast?_eq_some_iff.mp last
    exact ⟨[Byte.carriageReturn], by rw [List.dropLast_concat], Or.inr rfl⟩
  · exact ⟨[], (List.append_nil raw).symm, Or.inl rfl⟩

end Line

namespace Document

/-- Where a line starts.  The end of the text stands for the line after the last. -/
def startOf (doc : Document) (number : Nat) : Nat :=
  match doc.lineSpan? number with
  | some span => span.start.toNat
  | none => doc.text.length

/-- What stands between the content of a line and the next line, or the end of the text. -/
def gapAfter (doc : Document) (number : Nat) : Bytes :=
  match doc.lineSpan? number with
  | some span => doc.text.slice span.stop.toNat (doc.startOf (number + 1))
  | none => []

/-- The line feed that ends a line; the last line has none. -/
def feedAfter (doc : Document) (number : Nat) : Bytes :=
  if number + 1 < doc.lineCount then [Byte.lineFeed] else []

/-- The offset belongs to a line: the line does not start after it, and the next line does. -/
def HoldsOffset (doc : Document) (number offset : Nat) : Prop :=
  ∃ span, doc.lineSpan? number = some span ∧ span.start ≤ offset ∧
    ∀ next, doc.lineSpan? (number + 1 : Nat) = some next → offset < next.start

variable {doc : Document}

theorem lineSpan?_natCast (doc : Document) (number : Nat) :
    doc.lineSpan? number = doc.lines[number]?.map Line.span := by
  rw [lineSpan?, line?, if_neg (Int.not_lt.mpr (Int.natCast_nonneg number)), Int.toNat_natCast]

section Line

variable {number : Nat} {line : Line} (found : doc.lines[number]? = some line)
include found

theorem lineSpan?_of_getElem? : doc.lineSpan? number = some line.span := by
  rw [lineSpan?_natCast, found]
  rfl

theorem startOf_of_getElem? : doc.startOf number = line.start := by
  rw [startOf, lineSpan?_of_getElem? found]
  rfl

theorem lineContent_of_getElem? : doc.lineContent number = line.content := by
  rw [lineContent, line?, if_neg (Int.not_lt.mpr (Int.natCast_nonneg number)), Int.toNat_natCast,
    found]
  rfl

/-- From a line's start on the text goes on with the content of the line, a carriage return or none,
and a line feed unless the line is the last.  There the next line starts. -/
theorem exists_split_at : ∃ left ending rest,
    doc.text = left ++ (line.content ++ (ending ++ doc.feedAfter number ++ rest)) ∧
      left.length = line.start ∧ (ending = [] ∨ ending = [Byte.carriageReturn]) ∧
      doc.startOf (number + 1) = line.stop + (ending ++ doc.feedAfter number).length := by
  have placed := found
  rw [doc.lines_eq] at placed
  obtain ⟨raw, cut⟩ := Line.cutFrom_of_getElem?_split placed
  rw [← doc.lines_eq] at cut
  obtain ⟨content, left, right, split, start, follows⟩ := cut
  obtain ⟨ending, whole, shape⟩ := Line.exists_chomp_append raw
  rw [← content] at whole
  rcases follows with ⟨none, rfl⟩ | ⟨next, rest, there, rfl, after⟩
  · have feed : doc.feedAfter number = [] :=
      if_neg (Nat.not_lt.mpr (List.getElem?_eq_none_iff.mp none))
    refine ⟨left, ending, [], by simp [split, whole, feed], start, shape, ?_⟩
    rw [startOf, lineSpan?_natCast, none, Line.stop, ← start]
    simp [split, whole, feed, Nat.add_assoc]
  · have feed : doc.feedAfter number = [Byte.lineFeed] :=
      if_pos (List.getElem?_eq_some_iff.mp there).1
    refine ⟨left, ending, rest, by simp [split, whole, feed], start, shape, ?_⟩
    rw [startOf_of_getElem? there, after, Line.stop]
    simp [whole, feed, Nat.add_assoc]

theorem start_le_startOf_succ : line.start ≤ doc.startOf (number + 1) := by
  obtain ⟨left, ending, rest, -, -, -, next⟩ := exists_split_at found
  rw [next, Line.stop]
  omega

theorem exists_gapAfter_eq : ∃ ending, (ending = [] ∨ ending = [Byte.carriageReturn]) ∧
    doc.gapAfter number = ending ++ doc.feedAfter number := by
  obtain ⟨left, ending, rest, split, start, shape, next⟩ := exists_split_at found
  refine ⟨ending, shape, ?_⟩
  have stop : line.span.stop.toNat = (left ++ line.content).length := by
    rw [List.length_append, start]
    rfl
  rw [gapAfter, lineSpan?_of_getElem? found]
  dsimp only
  rw [next, ← show line.span.stop.toNat = line.stop from rfl, stop, split, ← List.append_assoc]
  exact Bytes.slice_append_append _ _ _

theorem content_append_gapAfter : doc.lineContent number ++ doc.gapAfter number =
    doc.text.slice line.start (doc.startOf (number + 1)) := by
  obtain ⟨left, ending, rest, -, -, -, next⟩ := exists_split_at found
  rw [lineContent_of_getElem? found,
    ← (standsIn_text (List.mem_of_getElem? found)).slice_content, gapAfter,
    lineSpan?_of_getElem? found]
  exact Bytes.slice_append_slice _ (Nat.le_add_right _ _) (by rw [next]; exact Nat.le_add_right _ _)

end Line

/-- The lines up to a number, with what stands after each of them, are the text up to there. -/
theorem flatMap_lines_take (doc : Document) {count : Nat} (short : count ≤ doc.lines.length) :
    (List.range count).flatMap (fun i : Nat => doc.lineContent i ++ doc.gapAfter i) =
      doc.text.slice 0 (doc.startOf count) := by
  induction count with
  | zero =>
      obtain ⟨line, found, start⟩ := Guarded.exists_first_line doc
      rw [startOf_of_getElem? found, start]
      rfl
  | succ count ih =>
      have found := List.getElem?_eq_getElem (show count < doc.lines.length by omega)
      rw [List.range_succ, List.flatMap_append, ih (by omega), List.flatMap_singleton,
        content_append_gapAfter found, startOf_of_getElem? found]
      exact Bytes.slice_append_slice _ (Nat.zero_le _) (start_le_startOf_succ found)

theorem startOf_length (doc : Document) : doc.startOf doc.lines.length = doc.text.length := by
  rw [startOf, lineSpan?_natCast, List.getElem?_eq_none (Nat.le_refl _)]
  rfl

/-- The line after the one that the search finds starts after the offset: otherwise it would have
been counted as well. -/
theorem lt_start_after_lineOf {offset : Nat} {next : Line}
    (there : doc.lines[doc.lineOf offset + 1]? = some next) : offset < next.start := by
  refine Nat.lt_of_not_le fun reached => ?_
  have counted : ∀ line ∈ doc.lines.take (doc.lineOf offset + 2),
      decide (line.start ≤ offset) = true := by
    intro line member
    obtain ⟨i, small, rfl⟩ := List.mem_take_iff_getElem.mp member
    have earlier := start_le_start (List.getElem?_eq_getElem (by omega)) there
      (show i ≤ doc.lineOf offset + 1 by omega)
    exact decide_eq_true (Nat.le_trans earlier reached)
  obtain ⟨inside, -⟩ := List.getElem?_eq_some_iff.mp there
  have bound : (doc.lines.take (doc.lineOf offset + 2)).countP (fun line => line.start ≤ offset) ≤
      doc.lines.countP (fun line => line.start ≤ offset) := (List.take_sublist _ _).countP_le
  have value : doc.lineOf offset = doc.lines.countP (fun line => line.start ≤ offset) - 1 := by
    rw [lineOf, Int.toNat_natCast]
  rw [List.countP_eq_length.mpr counted, List.length_take] at bound
  omega

/-- An offset belongs to the line that the search finds, and to no other line. -/
theorem lineOf_eq_iff {number offset : Nat} :
    doc.lineOf offset = number ↔ doc.HoldsOffset number offset := by
  constructor
  · rintro rfl
    obtain ⟨line, found, start⟩ := Guarded.exists_line_at_lineOf doc offset
    refine ⟨line.span, lineSpan?_of_getElem? found, Int.ofNat_le.mpr start, ?_⟩
    intro span spanned
    rw [lineSpan?_natCast] at spanned
    obtain ⟨next, there, rfl⟩ := Option.map_eq_some_iff.mp spanned
    exact Int.ofNat_lt.mpr (lt_start_after_lineOf there)
  · rintro ⟨span, spanned, low, high⟩
    rw [lineSpan?_natCast] at spanned
    obtain ⟨line, found, rfl⟩ := Option.map_eq_some_iff.mp spanned
    refine lineOf_eq_of_lt found (Int.ofNat_le.mp low) ?_
    intro next there
    exact Int.ofNat_lt.mp (high next.span (lineSpan?_of_getElem? there))

/-- The lines of a text are one more than its line feeds.  Their contents, which hold no line feed,
and the gaps after them are the text.  A gap is a line feed, with or without a carriage return
before it; after the last line it is empty or a carriage return.  And the search by halves in the
table of line starts finds for every offset the one line to which it belongs. -/
theorem lines_partition (uri text : Bytes) :
    let doc := ofText uri text
    doc.lineCount = text.count Byte.lineFeed + 1 ∧
    (List.range doc.lineCount).flatMap (fun i : Nat => doc.lineContent i ++ doc.gapAfter i) = text ∧
    (∀ i : Nat, i < doc.lineCount →
      (∃ span, doc.lineSpan? i = some span ∧
        doc.lineContent i = text.slice span.start.toNat span.stop.toNat) ∧
      Byte.lineFeed ∉ doc.lineContent i ∧
      if i + 1 < doc.lineCount then
        doc.gapAfter i = [Byte.lineFeed] ∨ doc.gapAfter i = [Byte.carriageReturn, Byte.lineFeed]
      else doc.gapAfter i = [] ∨ doc.gapAfter i = [Byte.carriageReturn]) ∧
    ∀ offset : Nat,
      (Guarded.lineStarts text >>= (Guarded.lineOf · offset)) = .ok (doc.lineOf offset) ∧
      ∀ i, doc.lineOf offset = i ↔ doc.HoldsOffset i offset := by
  intro doc
  have starts : Guarded.lineStarts text = .ok (Guarded.starts doc) := Guarded.lineStarts_eq text
  refine ⟨Line.length_split text, ?_, ?_, ?_⟩
  · have whole := doc.flatMap_lines_take (Nat.le_refl _)
    rw [startOf_length, Bytes.slice_length] at whole
    exact whole
  · intro i inside
    have found := List.getElem?_eq_getElem (show i < doc.lines.length from inside)
    have listed := List.mem_of_getElem? found
    obtain ⟨ending, shape, gap⟩ := exists_gapAfter_eq found
    rw [lineContent_of_getElem? found, gap, feedAfter]
    refine ⟨⟨_, lineSpan?_of_getElem? found, (standsIn_text listed).slice_content.symm⟩,
      lineFeed_not_mem listed, ?_⟩
    split
    · rcases shape with rfl | rfl
      · exact Or.inl rfl
      · exact Or.inr rfl
    · rw [List.append_nil]
      exact shape
  · intro offset
    refine ⟨?_, fun i => lineOf_eq_iff⟩
    rw [starts, Guarded.ok_bind]
    exact Guarded.lineOf_eq doc offset

example : (List.range 3).map (fun i : Nat => (ofText [] (utf8 "a\r\n\r\nb\r")).gapAfter i) =
    [utf8 "\r\n", utf8 "\r\n", utf8 "\r"] := by
  decide +kernel

end Document

end Dockerfile
