import Dockerfile.Document.Document
import Dockerfile.Proofs.Text.Bytes

/-!
# Where lines stand

The lines of a text follow one another: each holds the bytes of its own stretch of the text and
ends before the next one starts.  So the number of a line is found again from any offset on it.
-/

namespace Dockerfile

namespace Line

theorem isPrefix_chomp (raw : Bytes) : chomp raw <+: raw := by
  unfold chomp
  split
  · exact List.dropLast_prefix raw
  · exact List.prefix_rfl

/-- A line feed parts the cuts. -/
theorem cut_append (front back : Bytes) :
    cut (front ++ Byte.lineFeed :: back) = cut front ++ cut back := by
  induction front with
  | nil => exact cut_lineFeed back
  | cons b front ih =>
      by_cases feed : b = Byte.lineFeed
      · rw [feed, List.cons_append, cut_lineFeed, cut_lineFeed, ih, List.cons_append]
      · cases pieces : cut front with
        | nil => exact absurd pieces (cut_ne_nil front)
        | cons first rest =>
            rw [pieces] at ih
            rw [cut_of_ne feed pieces, List.cons_append, cut_of_ne feed ih]
            rfl

theorem cut_of_not_mem {text : Bytes} (plain : Byte.lineFeed ∉ text) : cut text = [text] := by
  induction text with
  | nil => rfl
  | cons b text ih =>
      simp only [List.mem_cons, not_or] at plain
      exact cut_of_ne (Ne.symm plain.1) (ih plain.2)

theorem lineFeed_not_mem_cut {text piece : Bytes} (member : piece ∈ cut text) :
    Byte.lineFeed ∉ piece := by
  induction text generalizing piece with
  | nil =>
      rw [List.mem_singleton.mp member]
      exact List.not_mem_nil
  | cons b text ih =>
      by_cases feed : b = Byte.lineFeed
      · rw [feed, cut_lineFeed] at member
        rcases List.mem_cons.mp member with rfl | later
        · exact List.not_mem_nil
        · exact ih later
      · cases pieces : cut text with
        | nil => exact absurd pieces (cut_ne_nil text)
        | cons first rest =>
            rw [pieces] at ih
            rw [cut_of_ne feed pieces] at member
            rcases List.mem_cons.mp member with rfl | later
            · simp [Ne.symm feed, ih List.mem_cons_self]
            · exact ih (List.mem_cons_of_mem _ later)

theorem cut_drop {text raw : Bytes} {more : List Bytes} (pieces : cut text = raw :: more) {k : Nat}
    (inside : k ≤ raw.length) :
    text.take k = raw.take k ∧ cut (text.drop k) = raw.drop k :: more := by
  induction text generalizing raw k with
  | nil =>
      obtain ⟨rfl, rfl⟩ := List.cons.inj pieces
      obtain rfl := Nat.le_zero.mp inside
      exact ⟨rfl, rfl⟩
  | cons b text ih =>
      cases k with
      | zero => exact ⟨rfl, pieces⟩
      | succ k =>
          by_cases feed : b = Byte.lineFeed
          · rw [feed, cut_lineFeed] at pieces
            obtain ⟨rfl, -⟩ := List.cons.inj pieces
            exact absurd inside (Nat.not_succ_le_zero k)
          · cases below : cut text with
            | nil => exact absurd below (cut_ne_nil text)
            | cons first rest =>
                rw [cut_of_ne feed below] at pieces
                obtain ⟨rfl, rfl⟩ := List.cons.inj pieces
                obtain ⟨front, back⟩ := ih below (Nat.le_of_succ_le_succ inside)
                exact ⟨congrArg (b :: ·) front, back⟩

theorem chomp_concat {b : UInt8} (text : Bytes) (other : b ≠ Byte.carriageReturn) :
    chomp (text ++ [b]) = text ++ [b] := by
  simp [chomp, other]

theorem take_chomp {raw : Bytes} {k : Nat} (inside : k ≤ (chomp raw).length) :
    raw.take k = (chomp raw).take k := by
  obtain ⟨rest, whole⟩ := isPrefix_chomp raw
  exact (congrArg (List.take k) whole.symm).trans (List.take_append_of_le_length inside)

theorem chomp_drop {raw : Bytes} {k : Nat} (inside : k < (chomp raw).length) :
    chomp (raw.drop k) = (chomp raw).drop k := by
  have short : k < raw.length := Nat.lt_of_lt_of_le inside (isPrefix_chomp raw).length_le
  unfold chomp
  rw [List.getLast?_drop, if_neg (Nat.not_le.mpr short)]
  split
  · exact Bytes.dropLast_drop _ _
  · rfl

def extent : List Bytes → Nat
  | [] => 0
  | raw :: rest => raw.length + 1 + extent rest

theorem extent_cut (text : Bytes) : extent (cut text) = text.length + 1 := by
  induction text with
  | nil => rfl
  | cons b text ih =>
      by_cases feed : b = Byte.lineFeed
      · rw [feed, cut_lineFeed, List.length_cons, ← ih]
        exact Nat.add_comm _ _
      · cases pieces : cut text with
        | nil => exact absurd pieces (cut_ne_nil text)
        | cons first rest =>
            rw [pieces] at ih
            rw [cut_of_ne feed pieces, List.length_cons, ← ih]
            rw [extent, extent, List.length_cons]
            omega

theorem place_append (number start : Nat) (front back : List Bytes) :
    place number start (front ++ back) =
      place number start front ++ place (number + front.length) (start + extent front) back := by
  induction front generalizing number start with
  | nil => rfl
  | cons raw front ih =>
      rw [List.cons_append, place, place, ih, List.cons_append]
      congr 3
      · rw [List.length_cons]
        omega
      · rw [extent]
        omega

theorem start_le_of_mem_place {number start : Nat} {pieces : List Bytes} {line : Line}
    (member : line ∈ place number start pieces) : start ≤ line.start := by
  induction pieces generalizing number start with
  | nil => cases member
  | cons raw rest ih =>
      rcases List.mem_cons.mp member with rfl | later
      · exact Nat.le_refl start
      · have bound := ih later
        omega

theorem pairwise_place (number start : Nat) (pieces : List Bytes) :
    (place number start pieces).Pairwise fun a b => a.stop < b.start := by
  induction pieces generalizing number start with
  | nil => exact List.Pairwise.nil
  | cons raw rest ih =>
      refine List.Pairwise.cons ?_ (ih _ _)
      intro line later
      have bound := start_le_of_mem_place later
      have short := (isPrefix_chomp raw).length_le
      change start + (chomp raw).length < line.start
      omega

theorem number_of_getElem?_place {number start index : Nat} {pieces : List Bytes} {line : Line}
    (found : (place number start pieces)[index]? = some line) : line.number = number + index := by
  induction pieces generalizing number start index with
  | nil => cases found
  | cons raw rest ih =>
      cases index with
      | zero =>
          rw [← Option.some.inj found]
          rfl
      | succ index =>
          rw [ih found]
          omega

/-- The content of the line is what the text has from the line's start on. -/
def StandsIn (text : Bytes) (line : Line) : Prop :=
  ∃ left right, text = left ++ (line.content ++ right) ∧ left.length = line.start

/-- How a line was cut from a text: its content is what was cut off, without a carriage return at
the end, and either the text ends there or a line feed and the next line follow. -/
def CutFrom (text : Bytes) (line : Line) (next : Option Line) (raw : Bytes) : Prop :=
  line.content = chomp raw ∧ ∃ left right, text = left ++ (raw ++ right) ∧
    left.length = line.start ∧
    ((next = none ∧ right = []) ∨ ∃ n rest, next = some n ∧ right = Byte.lineFeed :: rest ∧
      n.start = line.start + raw.length + 1)

theorem cutFrom_of_getElem?_place (before : Bytes) {number index : Nat} {pieces : List Bytes}
    {line : Line} (found : (place number before.length pieces)[index]? = some line) :
    ∃ raw, CutFrom (before ++ Bytes.join [Byte.lineFeed] pieces) line
      (place number before.length pieces)[index + 1]? raw := by
  induction pieces generalizing before number index with
  | nil => cases found
  | cons raw rest ih =>
      cases rest with
      | nil =>
          cases index with
          | zero =>
              obtain rfl := Option.some.inj found
              refine ⟨raw, rfl, before, [], ?_, rfl, Or.inl ⟨rfl, rfl⟩⟩
              rw [Bytes.join, List.intercalate_singleton, List.append_nil]
          | succ index => cases found
      | cons second rest =>
          cases index with
          | zero =>
              obtain rfl := Option.some.inj found
              refine ⟨raw, rfl, before,
                Byte.lineFeed :: Bytes.join [Byte.lineFeed] (second :: rest), ?_, rfl,
                Or.inr ⟨_, _, rfl, rfl, rfl⟩⟩
              rw [Bytes.join_cons_cons, List.append_assoc]
              rfl
          | succ index =>
              have past : before.length + raw.length + 1 =
                  (before ++ (raw ++ [Byte.lineFeed])).length := by
                rw [List.length_append, List.length_append, List.length_singleton, Nat.add_assoc]
              change (place (number + 1) (before.length + raw.length + 1)
                (second :: rest))[index]? = some line at found
              change ∃ cut, CutFrom _ line (place (number + 1) (before.length + raw.length + 1)
                (second :: rest))[index + 1]? cut
              rw [past] at found ⊢
              obtain ⟨cut, placed⟩ := ih _ found
              rw [List.append_assoc, ← Bytes.join_cons_cons] at placed
              exact ⟨cut, placed⟩

theorem cutFrom_of_getElem?_split {text : Bytes} {index : Nat} {line : Line}
    (found : (split text)[index]? = some line) :
    ∃ raw, CutFrom text line (split text)[index + 1]? raw := by
  obtain ⟨raw, placed⟩ := cutFrom_of_getElem?_place [] found
  rw [List.nil_append, join_cut] at placed
  exact ⟨raw, placed⟩

theorem CutFrom.standsIn {text raw : Bytes} {line : Line} {next : Option Line}
    (cut : CutFrom text line next raw) : line.StandsIn text := by
  obtain ⟨content, left, right, split, start, -⟩ := cut
  obtain ⟨ending, whole⟩ := isPrefix_chomp raw
  refine ⟨left, ending ++ right, ?_, start⟩
  rw [split, content, ← List.append_assoc (chomp raw), whole]

theorem standsIn_of_mem_split {text : Bytes} {line : Line} (member : line ∈ split text) :
    line.StandsIn text := by
  obtain ⟨index, found⟩ := List.mem_iff_getElem?.mp member
  obtain ⟨raw, cut⟩ := cutFrom_of_getElem?_split found
  exact cut.standsIn

/-- No line feed is left in a line. -/
theorem lineFeed_not_mem_place {number start : Nat} {pieces : List Bytes}
    (plain : ∀ piece ∈ pieces, Byte.lineFeed ∉ piece) {line : Line}
    (member : line ∈ place number start pieces) : Byte.lineFeed ∉ line.content := by
  induction pieces generalizing number start with
  | nil => cases member
  | cons raw rest ih =>
      rcases List.mem_cons.mp member with rfl | later
      · exact fun inside => plain raw List.mem_cons_self ((isPrefix_chomp raw).subset inside)
      · exact ih (fun piece inside => plain piece (List.mem_cons_of_mem _ inside)) later

namespace StandsIn

variable {text : Bytes} {line : Line}

theorem stop_le (stands : line.StandsIn text) : line.stop ≤ text.length := by
  obtain ⟨left, right, split, start⟩ := stands
  rw [split, List.length_append, List.length_append, stop, ← start]
  omega

theorem drop_start (stands : line.StandsIn text) :
    ∃ right, text.drop line.start = line.content ++ right := by
  obtain ⟨left, right, split, start⟩ := stands
  exact ⟨right, by rw [split, ← start, List.drop_left]⟩

theorem slice_eq (stands : line.StandsIn text) {m n : Nat} (inside : n ≤ line.content.length) :
    text.slice (line.start + m) (line.start + n) = line.content.slice m n := by
  obtain ⟨right, tail⟩ := stands.drop_start
  have room : n - m ≤ (line.content.drop m).length := by
    rw [List.length_drop]
    omega
  rw [Bytes.slice, Bytes.slice, ← List.drop_drop, tail]
  rcases Nat.lt_or_ge line.content.length m with past | inner
  · have none : line.start + n - (line.start + m) = 0 := by omega
    have none' : n - m = 0 := by omega
    rw [none, none', List.take_zero, List.take_zero]
  · rw [List.drop_append_of_le_length inner, Nat.add_sub_add_left,
      List.take_append_of_le_length room]

theorem slice_start (stands : line.StandsIn text) {n : Nat} (inside : n ≤ line.content.length) :
    text.slice line.start (line.start + n) = line.content.take n := by
  have front : line.content.slice 0 n = line.content.take n := by
    rw [Bytes.slice, List.drop_zero, Nat.sub_zero]
  rw [← front, ← stands.slice_eq inside, Nat.add_zero]

theorem slice_content (stands : line.StandsIn text) :
    text.slice line.start line.stop = line.content := by
  rw [stop, stands.slice_start (Nat.le_refl _), List.take_length]

theorem getElem?_eq (stands : line.StandsIn text) {n : Nat} (inside : n < line.content.length) :
    text[line.start + n]? = line.content[n]? := by
  obtain ⟨right, tail⟩ := stands.drop_start
  rw [← List.getElem?_drop, tail, List.getElem?_append_left inside]

end StandsIn

end Line

namespace Document

variable {doc : Document}

theorem standsIn_text {line : Line} (member : line ∈ doc.lines) : line.StandsIn doc.text :=
  Line.standsIn_of_mem_split (doc.lines_eq ▸ member)

theorem lineFeed_not_mem {line : Line} (member : line ∈ doc.lines) :
    Byte.lineFeed ∉ line.content := by
  rw [doc.lines_eq] at member
  exact Line.lineFeed_not_mem_place (fun _ => Line.lineFeed_not_mem_cut) member

theorem pairwise_lines (doc : Document) : doc.lines.Pairwise fun a b => a.stop < b.start := by
  rw [doc.lines_eq]
  exact Line.pairwise_place 0 0 _

theorem number_of_getElem? {index : Nat} {line : Line} (found : doc.lines[index]? = some line) :
    line.number = index := by
  rw [doc.lines_eq] at found
  rw [Line.number_of_getElem?_place found, Nat.zero_add]

theorem length_lines_le (doc : Document) : doc.lines.length ≤ doc.text.length + 1 := by
  rw [doc.lines_eq, Line.length_split]
  exact Nat.succ_le_succ List.count_le_length

theorem lineSpan?_eq_some_iff {number : Int} {span : Span} : doc.lineSpan? number = some span ↔
    ∃ (index : Nat) (line : Line), number = index ∧ doc.lines[index]? = some line ∧
      span = line.span := by
  unfold lineSpan? line?
  constructor
  · intro found
    obtain ⟨line, there, rfl⟩ := Option.map_eq_some_iff.mp found
    split at there
    · cases there
    · rename_i natural
      exact ⟨number.toNat, line, (Int.toNat_of_nonneg (Int.not_lt.mp natural)).symm, there, rfl⟩
  · rintro ⟨index, line, rfl, there, rfl⟩
    simp [there]

/-- A line ends before any line of a greater number starts. -/
theorem stop_lt_start {i j : Nat} {a b : Line} (first : doc.lines[i]? = some a)
    (second : doc.lines[j]? = some b) (less : i < j) : a.stop < b.start := by
  obtain ⟨bound, rfl⟩ := List.getElem?_eq_some_iff.mp first
  obtain ⟨bound', rfl⟩ := List.getElem?_eq_some_iff.mp second
  exact List.pairwise_iff_getElem.mp doc.pairwise_lines i j bound bound' less

theorem start_le_start {i j : Nat} {a b : Line} (first : doc.lines[i]? = some a)
    (second : doc.lines[j]? = some b) (less : i ≤ j) : a.start ≤ b.start := by
  rcases Nat.lt_or_eq_of_le less with less | same
  · exact Nat.le_trans (Nat.le_add_right _ _) (Nat.le_of_lt (stop_lt_start first second less))
  · rw [same] at first
    obtain rfl := Option.some.inj (first.symm.trans second)
    exact Nat.le_refl _

/-- An offset from a line's start up to the start of the next leads back to the line's number. -/
theorem lineOf_eq_of_lt {index offset : Nat} {line : Line} (found : doc.lines[index]? = some line)
    (low : line.start ≤ offset)
    (high : ∀ next, doc.lines[index + 1]? = some next → offset < next.start) :
    doc.lineOf offset = index := by
  obtain ⟨bound, -⟩ := List.getElem?_eq_some_iff.mp found
  have before : ∀ a ∈ doc.lines.take (index + 1), decide (a.start ≤ offset) = true := by
    intro a member
    obtain ⟨i, small, rfl⟩ := List.mem_take_iff_getElem.mp member
    have earlier := start_le_start (List.getElem?_eq_getElem (by omega)) found
      (show i ≤ index by omega)
    exact decide_eq_true (Nat.le_trans earlier low)
  have after : ∀ a ∈ doc.lines.drop (index + 1), ¬ decide (a.start ≤ offset) = true := by
    intro a member
    obtain ⟨i, small, rfl⟩ := List.mem_drop_iff_getElem.mp member
    have next := List.getElem?_eq_getElem (show index + 1 < doc.lines.length by omega)
    have later := start_le_start next (List.getElem?_eq_getElem (by omega))
      (show index + 1 ≤ index + 1 + i by omega)
    have less := high _ next
    simp only [decide_eq_true_eq]
    omega
  rw [lineOf, Int.toNat_natCast, ← List.take_append_drop (index + 1) doc.lines, List.countP_append,
    List.countP_eq_length.mpr before, List.countP_eq_zero.mpr after, List.length_take]
  omega

/-- An offset on a line, its end included, leads back to the line's number. -/
theorem lineOf_eq {index offset : Nat} {line : Line} (found : doc.lines[index]? = some line)
    (low : line.start ≤ offset) (high : offset ≤ line.stop) : doc.lineOf offset = index := by
  refine lineOf_eq_of_lt found low ?_
  intro next there
  exact Nat.lt_of_le_of_lt high (stop_lt_start found there (Nat.lt_succ_self index))

/-- A line after a line feed comes after as many lines as were cut before the line feed. -/
theorem length_cut_before {index : Nat} {line : Line} (found : doc.lines[index]? = some line)
    {front back : Bytes} (split : doc.text = front ++ Byte.lineFeed :: back)
    (start : front.length + 1 = line.start) : (Line.cut front).length = index := by
  cases pieces : Line.cut back with
  | nil => exact absurd pieces (Line.cut_ne_nil back)
  | cons first rest =>
      have there : doc.lines[(Line.cut front).length]? =
          some ⟨(Line.cut front).length, line.start, Line.chomp first⟩ := by
        rw [doc.lines_eq, Line.split, split, Line.cut_append, Line.place_append, pieces,
          Line.extent_cut, start]
        simp [Line.length_place, Line.place]
      have number := lineOf_eq found (Nat.le_refl _) (Nat.le_add_right _ _)
      rw [lineOf_eq there (Nat.le_refl _) (Nat.le_add_right _ _)] at number
      exact number

/-- The pieces before a line stay the same, whatever follows instead of the line. -/
theorem exists_cut_before {index : Nat} {line : Line} (found : doc.lines[index]? = some line) :
    ∃ pieces, pieces.length = index ∧ Line.extent pieces = line.start ∧
      ∀ rest, Line.cut (doc.text.take line.start ++ rest) = pieces ++ Line.cut rest := by
  cases index with
  | zero =>
      rw [doc.lines_eq, Line.split] at found
      cases pieces : Line.cut doc.text with
      | nil => exact absurd pieces (Line.cut_ne_nil doc.text)
      | cons first more =>
          rw [pieces] at found
          obtain rfl := Option.some.inj found
          exact ⟨[], rfl, rfl, fun rest => rfl⟩
  | succ index =>
      obtain ⟨previous, there⟩ : ∃ previous, doc.lines[index]? = some previous := by
        obtain ⟨bound, -⟩ := List.getElem?_eq_some_iff.mp found
        exact ⟨_, List.getElem?_eq_getElem (Nat.lt_of_succ_lt bound)⟩
      rw [doc.lines_eq] at there
      obtain ⟨raw, -, left, right, split, length, ends⟩ := Line.cutFrom_of_getElem?_split there
      rw [← doc.lines_eq, found] at ends
      obtain ⟨impossible, -⟩ | ⟨next, rest, same, rfl, start⟩ := ends
      · cases impossible
      · obtain rfl := Option.some.inj same
        have size : (left ++ raw).length + 1 = line.start := by
          rw [List.length_append, length, start]
        rw [← List.append_assoc] at split
        have front : doc.text.take line.start = left ++ raw ++ [Byte.lineFeed] := by
          rw [split, ← size, List.take_length_add_append]
          rfl
        refine ⟨Line.cut (left ++ raw), length_cut_before found split size, ?_, ?_⟩
        · rw [Line.extent_cut, size]
        · intro rest
          rw [front, List.append_assoc]
          exact Line.cut_append _ _

end Document

end Dockerfile
