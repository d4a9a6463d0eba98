import Dockerfile.Proofs.Definition

/-!
# What declarations record

A segment fills the end of one line, so the line that a declaration records is the line its name
stands on, and a name holds no line feed.  With the places of names and values in the segments this
says everything that a declaration records about its instruction and the text.
-/

namespace Dockerfile

/-- The instruction declares variables, and what the declaration records is what the document has:
the name in one segment of the instruction, the number of its line, and after it the value, if there
is one, in a segment of the same instruction. -/
structure Variable.Records (doc : Document) (i : Instruction) (v : Variable) : Prop where
  keyword : i.keyword = some v.keyword
  declares : v.keyword = .arg ∨ v.keyword = .env
  filled : v.name ≠ []
  plain : ∀ b ∈ v.name, b ≠ Byte.space ∧ b ≠ Byte.tab ∧ b ≠ Byte.equals ∧ b ≠ Byte.lineFeed
  within : 0 ≤ v.nameSpan.start ∧ v.nameSpan.start < v.nameSpan.stop ∧
    v.nameSpan.stop ≤ doc.text.length
  bytes : doc.text.slice v.nameSpan.start.toNat v.nameSpan.stop.toNat = v.name
  named : ∃ s ∈ i.argument.segments,
    s.span.start ≤ v.nameSpan.start ∧ v.nameSpan.stop ≤ s.span.stop
  line : v.line = doc.lineOf v.nameSpan.start
  valued : ∀ span, v.valueSpan = some span → (v.nameSpan.stop < span.start ∧
      span.start ≤ span.stop) ∧
    ∃ s ∈ i.argument.segments, s.span.start ≤ span.start ∧ span.stop ≤ s.span.stop

theorem Keyword.declaresVariables_iff {keyword : Keyword} :
    keyword.declaresVariables = true ↔ keyword = .arg ∨ keyword = .env := by
  cases keyword <;> decide

namespace Variable

theorem endsName_eq_false_iff {b : UInt8} :
    endsName b = false ↔ b ≠ Byte.space ∧ b ≠ Byte.tab ∧ b ≠ Byte.equals := by
  simp [endsName, Byte.isBlank, and_assoc]

end Variable

namespace Document

variable {doc : Document} {g : Statement.Group}

section Segment

variable (member : g ∈ doc.groups) {s : Segment}
  (inside : s ∈ (doc.ofGroup g).argument.segments)
include member inside

/-- The number that a segment carries is found again from any offset in it. -/
theorem line_eq_lineOf {offset : Nat} (low : s.span.start ≤ offset) (high : offset ≤ s.span.stop) :
    s.line = doc.lineOf offset := by
  obtain ⟨n, line, found, -, number, index, span⟩ := exists_filled_line member inside
  have room := (line.isPrefix_usable doc.escape).length_le
  rw [span] at low high
  dsimp only at low high
  rw [number, lineOf_eq found (by omega) (by rw [Line.stop]; omega)]

/-- No segment holds a line feed. -/
theorem lineFeed_not_mem_textOf :
    Byte.lineFeed ∉ Variable.textOf (doc.ofGroup g).argument s := by
  obtain ⟨n, line, found, -, -, index, span⟩ := exists_filled_line member inside
  have listed := List.mem_of_getElem? found
  have room := (line.isPrefix_usable doc.escape).length_le
  have bytes : Variable.textOf (doc.ofGroup g).argument s =
      line.content.slice index (line.usable doc.escape).length := by
    rw [← (standsIn_text listed).slice_eq room]
    have same := (sound_argument member).bytes s inside
    rwa [span] at same
  rw [bytes]
  exact fun feed => lineFeed_not_mem listed (Bytes.mem_of_mem_slice feed)

end Segment

/-- Every declaration of an instruction records what stands in the instruction. -/
theorem records_of_mem_ofInstruction (member : g ∈ doc.groups) {v : Variable}
    (listed : v ∈ Variable.ofInstruction (doc.ofGroup g)) : v.Records doc (doc.ofGroup g) := by
  obtain ⟨keyword, known, declares, ⟨s, inside, index, named⟩, t, inside', valued⟩ :=
    (ofInstruction_spec member).1 v listed
  obtain rfl : v.keyword = keyword := named.keyword
  have declared : v ∈ Variable.all doc.instructions :=
    List.mem_flatMap.mpr ⟨doc.ofGroup g, ofGroup_mem_instructions member, listed⟩
  obtain ⟨within, bytes, -⟩ := name_of_mem_declared declared
  have lies := span_siteOf_within member inside v.keyword (Nat.le_add_right _ _) named.bound
  rw [← named.span] at lies
  refine ⟨known, Keyword.declaresVariables_iff.mp declares, named.filled, ?_, within, bytes,
    ⟨s, inside, lies.1, lies.2.2⟩, ?_, ?_⟩
  · intro b held
    obtain ⟨space, tab, equals⟩ := Variable.endsName_eq_false_iff.mp (named.plain b held)
    refine ⟨space, tab, equals, ?_⟩
    rintro rfl
    rw [named.bytes] at held
    exact lineFeed_not_mem_textOf member inside (Bytes.mem_of_mem_slice held)
  · obtain ⟨offset, start⟩ := Int.eq_ofNat_of_zero_le within.1
    rw [named.line, start]
    exact line_eq_lineOf member inside (by omega) (by omega)
  · intro span found
    obtain ⟨after, m, n, rfl, order, bound⟩ := valued span found
    obtain ⟨low, forward, high⟩ := span_siteOf_within member inside' v.keyword order bound
    exact ⟨⟨after, forward⟩, t, inside', low, high⟩

/-- Every declared variable comes from an instruction that declares variables and records what
stands there.  Of two of them, name and value of the first end before the name of the second
starts, also where a value was found on a later line than its name. -/
theorem declarations_in_place (uri text : Bytes) :
    let doc := ofText uri text
    let a := Analysis.ofDocument doc
    (∀ v ∈ a.declared, ∃ i ∈ a.instructions, v ∈ Variable.ofInstruction i ∧ v.Records doc i) ∧
    a.declared.Pairwise fun v w =>
      (v.nameSpan.stop ≤ w.nameSpan.start ∧
        ∀ span, v.valueSpan = some span → span.stop ≤ w.nameSpan.start) ∧
      v.nameSpan.start < w.nameSpan.start := by
  intro doc a
  constructor
  · intro v declared
    obtain ⟨g, member, listed⟩ := exists_group_of_mem_declared declared
    exact ⟨doc.ofGroup g, ofGroup_mem_instructions member, listed,
      records_of_mem_ofInstruction member listed⟩
  · exact doc.pairwise_declared.and doc.pairwise_start_declared

/-- The value of `A` is found on the next line.  It is recorded in a segment of the same
instruction, and ends before the names of the next instruction start. -/
theorem declarations_in_place_continued :
    let a := Analysis.ofDocument (ofText [] (utf8 "ENV A \\\n  b c\nARG X=1 Y"))
    a.declared.map (fun v => (v.name, v.nameSpan, v.valueSpan, v.line)) =
      [(utf8 "A", ⟨4, 5⟩, some ⟨10, 13⟩, 0), (utf8 "X", ⟨18, 19⟩, some ⟨20, 21⟩, 2),
        (utf8 "Y", ⟨22, 23⟩, none, 2)] ∧
    ∃ i ∈ a.instructions, i.keyword = some .env ∧
      ∃ s ∈ i.argument.segments, s.span.start ≤ 10 ∧ 13 ≤ s.span.stop := by
  intro a
  have listed : (⟨utf8 "A", .env, ⟨4, 5⟩, some ⟨10, 13⟩, 0⟩ : Variable) ∈ a.declared := by
    decide +kernel
  obtain ⟨places, -⟩ := declarations_in_place [] (utf8 "ENV A \\\n  b c\nARG X=1 Y")
  obtain ⟨i, member, -, records⟩ := places _ listed
  exact ⟨by decide +kernel, i, member, records.keyword, (records.valued _ rfl).2⟩

end Document

end Dockerfile
