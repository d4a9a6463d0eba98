import Dockerfile.Proofs.Declaration.Assignment
import Dockerfile.Proofs.Declaration.Lines
import Dockerfile.Proofs.Declared

/-!
# Declarations without an equals sign

A first name that no equals sign follows takes one value: the rest of its line or, where only blanks
are left there, the next line that holds anything.  The value ends the declaration: whatever the
lines after it hold, they declare nothing and change nothing.
-/

namespace Dockerfile

namespace Variable

variable {site : Site} {p : Progress}

/-- Where the reading stands when a first name may still get a value. -/
def Progress.awaiting (v : Variable) : Progress := ⟨true, none, some v, false⟩

/-- Where the reading stands when a value has taken the rest. -/
def Progress.ended : Progress := ⟨true, none, none, true⟩

/-- Blanks change nothing, unless they stand inside quotes. -/
theorem readLine_of_allBlank (outside : p.quote = none) {text : Bytes}
    (blank : Bytes.AllBlank text) : readLine site p text = ([], p) := by
  have plain : Byte.equals ∉ text := by
    intro member
    cases blank _ member
  have empty : text.trim = [] := Bytes.trim_eq_nil_iff.mpr blank
  unfold readLine
  split
  · rfl
  · split
    · rw [readText, outside]
      exact readNames_of_allBlank site p 0 blank
    · simp [plain, empty]

section Stretches

variable {keyword : Keyword} {escape : UInt8} {text : Bytes}

/-- A line that declares nothing hands on to the next. -/
theorem readStretches_of_nothing {s : Stretch} {q : Progress} (rest : List Stretch)
    (read : readLine ⟨keyword, escape, s.line, s.span.start⟩ p (Argument.bytesOf text s) =
      ([], q)) :
    readStretches keyword escape text p (s :: rest) =
      readStretches keyword escape text q rest := by
  rw [readStretches, read]
  rfl

theorem readStretches_blanks (outside : p.quote = none) {blanks : List Stretch}
    (blank : ∀ s ∈ blanks, Bytes.AllBlank (Argument.bytesOf text s)) (rest : List Stretch) :
    readStretches keyword escape text p (blanks ++ rest) =
      readStretches keyword escape text p rest := by
  induction blanks with
  | nil => rfl
  | cons s blanks ih =>
      obtain ⟨here, later⟩ := List.forall_mem_cons.mp blank
      rw [List.cons_append, readStretches_of_nothing _ (readLine_of_allBlank outside here)]
      exact ih later

/-- Nothing is read after a value that has taken the rest. -/
theorem readStretches_ended (stretches : List Stretch) :
    readStretches keyword escape text .ended stretches = [] := by
  induction stretches with
  | nil => rfl
  | cons s rest ih => exact ih

/-- A line with such a value is the last that declares anything. -/
theorem readStretches_of_ended {s : Stretch} {found : List Variable} (rest : List Stretch)
    (read : readLine ⟨keyword, escape, s.line, s.span.start⟩ p (Argument.bytesOf text s) =
      (found, .ended)) :
    readStretches keyword escape text p (s :: rest) = found := by
  rw [readStretches, read]
  dsimp only
  rw [readStretches_ended, List.append_nil]

end Stretches

section Opening

variable {word rest : Bytes} (plain : ∀ b ∈ word, endsName b = false)
  (ends : ∀ b, rest.head? = some b → Byte.isBlank b = true)
include plain ends

/-- A first name without an equals sign takes the rest of its line as its value, or is held back if
only blanks are left there. -/
theorem step_opening (site : Site) (index : Nat) :
    step site .start index (word ++ rest) =
      if rest.trim.isEmpty then ⟨none, word.length, .awaiting (site.declare index word none)⟩
      else
        let start := index + word.length + rest.indent
        ⟨some (site.declare index word (some (site.span start (start + rest.trim.length)))),
          (word ++ rest).length, .ended⟩ := by
  have inside : ∀ b ∈ word, (!endsName b) = true := by
    intro b member
    rw [plain b member]
    rfl
  have stops : ∀ b, rest.head? = some b → (!endsName b) = false := by
    intro b next
    simp [endsName, ends b next]
  have name := Bytes.takeWhile_append_eq inside stops
  have tail : (word ++ rest).dropWhile (!endsName ·) = rest := by
    rw [← Bytes.drop_length_takeWhile, name, List.drop_left]
  have other : ¬ (rest.head? == some Byte.equals) = true := by
    intro equals
    cases ends _ (beq_iff_eq.mp equals)
  rw [step, name, tail, if_neg other]
  rfl

/-- A line that starts with a first name without an equals sign holds nothing else. -/
theorem readLine_opening {lead : Bytes} (blank : Bytes.AllBlank lead) (filled : word ≠ [])
    (site : Site) :
    readLine site .start (lead ++ (word ++ rest)) =
      if rest.trim.isEmpty then ([], .awaiting (site.declare lead.length word none))
      else
        let start := lead.length + word.length + rest.indent
        ([site.declare lead.length word (some (site.span start (start + rest.trim.length)))],
          .ended) := by
  have taken := step_opening plain ends site lead.length
  change readNames site .start 0 0 (lead ++ (word ++ rest)) = _
  rw [readNames_blanks 0 _ blank, Nat.zero_add]
  cases word with
  | nil => exact absurd rfl filled
  | cons b word =>
      have solid : Byte.isBlank b = false := by
        have other := plain b List.mem_cons_self
        rw [endsName, Bool.or_eq_false_iff] at other
        exact other.1
      rw [List.cons_append] at taken ⊢
      rw [readNames, if_neg (by rw [solid]; decide), taken]
      split
      · rename_i empty
        have rest' : Bytes.AllBlank rest := Bytes.trim_eq_nil_iff.mp (List.isEmpty_iff.mp empty)
        dsimp only
        rw [readNames_skip, List.length_cons, Nat.add_sub_cancel, List.drop_left,
          readNames_of_allBlank _ _ _ rest']
        rfl
      · have size : (b :: (word ++ rest)).length - 1 = (word ++ rest).length := rfl
        dsimp only
        rw [readNames_skip, size, List.drop_length]
        rfl

end Opening

/-- A name that is held back takes the next line that holds anything but no equals sign. -/
theorem readLine_awaiting {text : Bytes} (plain : Byte.equals ∉ text)
    (filled : ¬ Bytes.AllBlank text) (site : Site) (v : Variable) :
    readLine site (.awaiting v) text =
      ([{ v with valueSpan := some (site.span text.indent (text.indent + text.trim.length)) }],
        .ended) := by
  have solid : text.trim ≠ [] := mt Bytes.trim_eq_nil_iff.mp filled
  simp [readLine, Progress.awaiting, Progress.ended, plain, solid]

end Variable

namespace Document

variable {doc : Document}

/-- The bytes that the text has at a span. -/
def bytesAt (doc : Document) (span : Span) : Bytes :=
  doc.text.slice span.start.toNat span.stop.toNat

/-- The span is what a wider one holds between the blanks at its ends. -/
structure Trims (doc : Document) (whole span : Span) : Prop where
  within : whole.start ≤ span.start ∧ span.start < span.stop ∧ span.stop ≤ whole.stop
  before : Bytes.AllBlank (doc.bytesAt ⟨whole.start, span.start⟩)
  after : Bytes.AllBlank (doc.bytesAt ⟨span.stop, whole.stop⟩)
  first : ∀ b, (doc.bytesAt span).head? = some b → Byte.isBlank b = false
  last : ∀ b, (doc.bytesAt span).getLast? = some b → Byte.isBlank b = false

/-- The first byte of an argument that is no blank starts a name in the segment `s`, which ends
before a blank or with the segment and not before an equals sign. -/
structure OpensWithName (doc : Document) (i : Instruction) (s : Segment) (later : List Segment)
    (name : Span) : Prop where
  lines : ∃ blanks, i.argument.segments = blanks ++ s :: later ∧
    ∀ t ∈ blanks, Bytes.AllBlank (doc.bytesAt t.span)
  within : s.span.start ≤ name.start ∧ name.start < name.stop ∧ name.stop ≤ s.span.stop
  before : Bytes.AllBlank (doc.bytesAt ⟨s.span.start, name.start⟩)
  plain : ∀ b ∈ doc.bytesAt name, b ≠ Byte.space ∧ b ≠ Byte.tab ∧ b ≠ Byte.equals
  after : name.stop = s.span.stop ∨
    ∃ b, doc.text[name.stop.toNat]? = some b ∧ Byte.isBlank b = true

/-- Where the value of such a name stands: in the rest of its segment or, if that is blank, in the
first later segment that is not, provided this one has no equals sign. -/
inductive HoldsValue (doc : Document) (s : Segment) (name : Span) : List Segment → Span → Prop where
  | sameLine {later : List Segment}
      (filled : ¬ Bytes.AllBlank (doc.bytesAt ⟨name.stop, s.span.stop⟩)) :
      HoldsValue doc s name later ⟨name.stop, s.span.stop⟩
  | laterLine {blanks rest : List Segment} {t : Segment}
      (empty : Bytes.AllBlank (doc.bytesAt ⟨name.stop, s.span.stop⟩))
      (blank : ∀ b ∈ blanks, Bytes.AllBlank (doc.bytesAt b.span))
      (filled : ¬ Bytes.AllBlank (doc.bytesAt t.span))
      (plain : Byte.equals ∉ doc.bytesAt t.span) :
      HoldsValue doc s name (blanks ++ t :: rest) t.span

section Span

variable {whole : Span} (low : 0 ≤ whole.start) (order : whole.start ≤ whole.stop)
  (high : whole.stop ≤ doc.text.length)
include low order high

theorem length_bytesAt : whole.start + (doc.bytesAt whole).length = whole.stop := by
  rw [bytesAt, Bytes.length_slice _ (by omega)]
  omega

theorem bytesAt_part {m n : Nat} (inside : n ≤ (doc.bytesAt whole).length) :
    doc.bytesAt ⟨whole.start + m, whole.start + n⟩ = (doc.bytesAt whole).slice m n := by
  have size := length_bytesAt low order high
  have first : (whole.start + m).toNat = whole.start.toNat + m := by omega
  have last : (whole.start + n).toNat = whole.start.toNat + n := by omega
  rw [bytesAt, bytesAt, Bytes.slice_slice (by omega), first, last]

/-- What a span holds between the blanks at its ends stands where the trimmed text says. -/
theorem trims_bytesAt (filled : ¬ Bytes.AllBlank (doc.bytesAt whole)) :
    doc.Trims whole ⟨whole.start + (doc.bytesAt whole).indent,
      whole.start + ((doc.bytesAt whole).indent + (doc.bytesAt whole).trim.length : Nat)⟩ := by
  have size := length_bytesAt low order high
  have part {m n : Nat} := bytesAt_part (m := m) (n := n) low order high
  have before := Bytes.allBlank_before_trim (doc.bytesAt whole)
  have middle := Bytes.slice_trim (doc.bytesAt whole)
  have after := Bytes.allBlank_after_trim (doc.bytesAt whole)
  have solid := List.length_pos_iff.mpr (mt Bytes.trim_eq_nil_iff.mp filled)
  have bound := Bytes.indent_add_length_trim_le (doc.bytesAt whole)
  rw [← part (by omega), Int.natCast_zero, Int.add_zero] at before
  rw [← part bound] at middle
  rw [← part (Nat.le_refl _), size] at after
  refine ⟨⟨?_, ?_, ?_⟩, before, after, ?_, ?_⟩
  · dsimp only
    omega
  · dsimp only
    omega
  · dsimp only
    omega
  · intro b first
    rw [middle] at first
    exact Bytes.not_isBlank_head_trim first
  · intro b last
    rw [middle] at last
    exact Bytes.not_isBlank_getLast_trimRight last

end Span

def declarationAt (doc : Document) (keyword : Keyword) (s : Segment) (name : Span)
    (value : Option Span) : Variable :=
  ⟨doc.bytesAt name, keyword, name, value, s.line⟩

namespace OpensWithName

variable {i : Instruction} {s : Segment} {later : List Segment} {name : Span}
  (opens : doc.OpensWithName i s later name)
include opens

theorem split : doc.bytesAt s.span = doc.bytesAt ⟨s.span.start, name.start⟩ ++
    (doc.bytesAt name ++ doc.bytesAt ⟨name.stop, s.span.stop⟩) := by
  obtain ⟨first, filled, last⟩ := opens.within
  simp only [bytesAt]
  rw [Bytes.slice_append_slice _ (by omega) (by omega),
    Bytes.slice_append_slice _ (by omega) (by omega)]

theorem isBlank_head_rest (b : UInt8)
    (next : (doc.bytesAt ⟨name.stop, s.span.stop⟩).head? = some b) : Byte.isBlank b = true := by
  rcases opens.after with ends | ⟨c, behind, blank⟩
  · simp [bytesAt, Bytes.slice, ends] at next
  · rw [List.head?_eq_getElem?] at next
    have found := Bytes.getElem?_of_slice next
    rwa [Option.some.inj (found.symm.trans behind)]

/-- The segment of the name gives one declaration, or none yet if the rest of it is blank. -/
theorem readLine_eq (low : 0 ≤ s.span.start) (high : s.span.stop ≤ doc.text.length)
    (keyword : Keyword) (escape : UInt8) :
    let rest := doc.bytesAt ⟨name.stop, s.span.stop⟩
    Variable.readLine ⟨keyword, escape, s.line, s.span.start⟩ .start (doc.bytesAt s.span) =
      if rest.trim.isEmpty then ([], .awaiting (doc.declarationAt keyword s name none))
      else ([doc.declarationAt keyword s name (some ⟨name.stop + rest.indent,
        name.stop + (rest.indent + rest.trim.length : Nat)⟩)], .ended) := by
  obtain ⟨first, filled, last⟩ := opens.within
  have lead : s.span.start + (doc.bytesAt ⟨s.span.start, name.start⟩).length = name.start :=
    @length_bytesAt doc ⟨s.span.start, name.start⟩ low first (by dsimp only; omega)
  have word : name.start + (doc.bytesAt name).length = name.stop :=
    length_bytesAt (by omega) (Int.le_of_lt filled) (by omega)
  have solid : doc.bytesAt name ≠ [] := by
    apply List.ne_nil_of_length_pos
    omega
  have plain : ∀ b ∈ doc.bytesAt name, Variable.endsName b = false := fun b held =>
    Variable.endsName_eq_false_iff.mpr (opens.plain b held)
  have span (m n : Nat) : Variable.Site.span ⟨keyword, escape, s.line, s.span.start⟩
      ((doc.bytesAt ⟨s.span.start, name.start⟩).length + (doc.bytesAt name).length + m)
      ((doc.bytesAt ⟨s.span.start, name.start⟩).length + (doc.bytesAt name).length + m + n) =
        ⟨name.stop + m, name.stop + (m + n : Nat)⟩ := by
    simp only [Variable.Site.span, Span.mk.injEq]
    omega
  have declared (value : Option Span) : Variable.Site.declare ⟨keyword, escape, s.line,
      s.span.start⟩ (doc.bytesAt ⟨s.span.start, name.start⟩).length (doc.bytesAt name) value =
        doc.declarationAt keyword s name value := by
    obtain ⟨start, stop⟩ := name
    simp only [Variable.Site.declare, declarationAt, Variable.Site.span, Variable.mk.injEq,
      Span.mk.injEq, true_and, and_true]
    dsimp only at lead word
    omega
  rw [opens.split, Variable.readLine_opening plain opens.isBlank_head_rest opens.before solid]
  dsimp only
  rw [span, declared, declared]

end OpensWithName

/-- An instruction that opens with a name and holds a value for it declares this name alone. -/
theorem ofInstruction_of_opensWithName {g : Statement.Group} {keyword : Keyword}
    (member : g ∈ doc.groups) (known : (doc.ofGroup g).keyword = some keyword)
    (declares : keyword.declaresVariables = true) {s : Segment} {later : List Segment}
    {name whole : Span} (opens : doc.OpensWithName (doc.ofGroup g) s later name)
    (holds : doc.HoldsValue s name later whole) :
    ∃ value, doc.Trims whole value ∧
      Variable.ofInstruction (doc.ofGroup g) = [doc.declarationAt keyword s name (some value)] := by
  obtain ⟨blanks, lines, blank⟩ := opens.lines
  have places := (sound_argument member).inside
  rw [lines] at places
  obtain ⟨low, -, high⟩ := places s (List.mem_append_right _ List.mem_cons_self)
  have passed : ∀ u ∈ blanks.map Segment.toStretch, Bytes.AllBlank (Argument.bytesOf doc.text u) :=
    List.forall_mem_map.mpr blank
  have read := ofInstruction_eq_readStretches member known declares
  rw [lines, List.map_append, Variable.readStretches_blanks rfl passed, List.map_cons] at read
  have first := opens.readLine_eq low high keyword doc.escape
  dsimp only at first
  obtain ⟨starts, width, ends⟩ := opens.within
  cases holds with
  | sameLine filled =>
      have trims := @trims_bytesAt doc ⟨name.stop, s.span.stop⟩ (by dsimp only; omega) ends high
        filled
      rw [if_neg (by simpa [Bytes.trim_eq_nil_iff] using filled)] at first
      refine ⟨_, trims, ?_⟩
      rw [read, Variable.readStretches_of_ended _ first]
  | @laterLine between rest t empty blank' filled plain =>
      obtain ⟨low', order, high'⟩ := places t (by simp)
      rw [if_pos (by simpa [Bytes.trim_eq_nil_iff] using empty)] at first
      have passed' : ∀ u ∈ between.map Segment.toStretch,
          Bytes.AllBlank (Argument.bytesOf doc.text u) := List.forall_mem_map.mpr blank'
      have second := Variable.readLine_awaiting plain filled
        ⟨keyword, doc.escape, t.line, t.span.start⟩ (doc.declarationAt keyword s name none)
      refine ⟨_, trims_bytesAt low' (Int.le_of_lt order) high' filled, ?_⟩
      -- the name is held back over the blank segments, and `t` ends the reading
      rw [read, Variable.readStretches_of_nothing _ first, List.map_append,
        Variable.readStretches_blanks rfl passed', List.map_cons,
        Variable.readStretches_of_ended _ second]
      rfl

/-- An `ARG` or `ENV` that opens with a name without an equals sign, and has a value for it, adds
one declaration, whatever the lines after the value hold: the name with the value between the blanks
around it. -/
theorem legacy_declares_one (doc : Document) (front back : List Instruction) (i : Instruction)
    (keyword : Keyword) (s : Segment) (later : List Segment) (name whole : Span)
    (listed : doc.instructions = front ++ i :: back) (known : i.keyword = some keyword)
    (declares : keyword = .arg ∨ keyword = .env) (opens : doc.OpensWithName i s later name)
    (holds : doc.HoldsValue s name later whole) :
    ∃ value, doc.Trims whole value ∧
      let v : Variable := ⟨doc.bytesAt name, keyword, name, some value, s.line⟩
      Variable.ofInstruction i = [v] ∧
      (Analysis.ofDocument doc).declared = Variable.all front ++ v :: Variable.all back := by
  have member : i ∈ doc.instructions := by simp [listed]
  rw [instructions_eq] at member
  obtain ⟨g, grouped, rfl⟩ := List.mem_map.mp member
  obtain ⟨value, trims, one⟩ := ofInstruction_of_opensWithName grouped known
    (Keyword.declaresVariables_iff.mpr declares) opens holds
  refine ⟨value, trims, one, ?_⟩
  change Variable.all doc.instructions = _
  rw [listed, Variable.all, List.flatMap_append, List.flatMap_cons, one]
  rfl

/-- A blank line stands between the name and its value, and the line after the value would be an
assignment. -/
theorem legacy_declares_one_continued :
    let doc := ofText [] (utf8 "ENV A \\\n   \\\n  x y \\\n  z=1\nARG b")
    doc.Trims ⟨13, 19⟩ ⟨15, 18⟩ ∧ (Analysis.ofDocument doc).declared =
      [⟨utf8 "A", .env, ⟨4, 5⟩, some ⟨15, 18⟩, 0⟩, ⟨utf8 "b", .arg, ⟨31, 32⟩, none, 4⟩] := by
  intro doc
  let i : Instruction :=
    { name := utf8 "ENV"
      keyword := some .env
      keywordSpan := ⟨0, 3⟩
      argument := ⟨utf8 "A      x y   z=1", Byte.backslash,
        [⟨⟨0, ⟨4, 6⟩⟩, 0⟩, ⟨⟨1, ⟨8, 11⟩⟩, 2⟩, ⟨⟨2, ⟨13, 19⟩⟩, 5⟩, ⟨⟨3, ⟨21, 26⟩⟩, 11⟩], 26⟩
      form := .plain
      raw := ⟨0, 26⟩ }
  let j : Instruction :=
    { name := utf8 "ARG"
      keyword := some .arg
      keywordSpan := ⟨27, 30⟩
      argument := ⟨utf8 "b", Byte.backslash, [⟨⟨4, ⟨31, 32⟩⟩, 0⟩], 32⟩
      form := .plain
      raw := ⟨27, 32⟩ }
  have listed : doc.instructions = [] ++ i :: [j] := by decide +kernel
  have opens : doc.OpensWithName i ⟨⟨0, ⟨4, 6⟩⟩, 0⟩
      ([⟨⟨1, ⟨8, 11⟩⟩, 2⟩] ++ ⟨⟨2, ⟨13, 19⟩⟩, 5⟩ :: [⟨⟨3, ⟨21, 26⟩⟩, 11⟩]) ⟨4, 5⟩ :=
    ⟨⟨[], rfl, nofun⟩, by decide, by decide +kernel, by decide +kernel,
      Or.inr ⟨Byte.space, rfl, rfl⟩⟩
  have holds : doc.HoldsValue ⟨⟨0, ⟨4, 6⟩⟩, 0⟩ ⟨4, 5⟩
      ([⟨⟨1, ⟨8, 11⟩⟩, 2⟩] ++ ⟨⟨2, ⟨13, 19⟩⟩, 5⟩ :: [⟨⟨3, ⟨21, 26⟩⟩, 11⟩]) ⟨13, 19⟩ :=
    .laterLine (by decide +kernel) (by decide +kernel) (by decide +kernel) (by decide +kernel)
  obtain ⟨value, trims, -, declared⟩ := legacy_declares_one doc [] [j] i .env _ _ _ _ listed rfl
    (Or.inr rfl) opens holds
  have entries : (Analysis.ofDocument doc).declared = [⟨utf8 "A", .env, ⟨4, 5⟩, some ⟨15, 18⟩, 0⟩,
      ⟨utf8 "b", .arg, ⟨31, 32⟩, none, 4⟩] := by decide +kernel
  obtain ⟨first, -⟩ := List.cons.inj (declared.symm.trans entries)
  obtain rfl : value = ⟨15, 18⟩ := Option.some.inj (congrArg Variable.valueSpan first)
  exact ⟨trims, entries⟩

-- A value on the line of its name reaches to the end of the line, and the next line is not read.
example : (Analysis.ofDocument (ofText [] (utf8 "ARG A  b c \\\n z=1"))).declared =
    [⟨utf8 "A", .arg, ⟨4, 5⟩, some ⟨7, 10⟩, 0⟩] := by decide +kernel

end Document

end Dockerfile
