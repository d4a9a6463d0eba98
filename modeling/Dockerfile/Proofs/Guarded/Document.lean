import Dockerfile.Proofs.Document.Positions
import Dockerfile.Proofs.Guarded.Access
import Dockerfile.Proofs.Text.Tokens

/-!
# Guarded lines and positions

The table of line starts, the spans of lines, the search for the line of an offset, and the two
conversions between offsets and positions, with every access to the text and to the table guarded.
None of them fails on any text, and each gives what the document gives.
-/

namespace Dockerfile

namespace Guarded

def lineStarts (text : Bytes) : Run (List Nat) :=
  loop (fun (i, starts) =>
    if i < text.length then do
      let b ← entry text i
      return .inl (i + 1, if b == Byte.lineFeed then starts ++ [i + 1] else starts)
    else return .inr starts) (text.length + 1) (0, [0])

def rawStop (text : Bytes) (starts : List Nat) (line : Nat) : Run Int :=
  if line + 1 < starts.length then do
    let next ← entry starts ((line : Int) + 1)
    return (next : Int) - 1
  else return text.length

def endsInReturn (text : Bytes) (start stop : Int) : Run Bool :=
  if start < stop then do
    let b ← entry text (stop - 1)
    return b == Byte.carriageReturn
  else return false

def lineSpan (text : Bytes) (starts : List Nat) (line : Nat) : Run (Option Span) :=
  if line < starts.length then do
    let start ← entry starts line
    let stop ← rawStop text starts line
    let returned ← endsInReturn text start stop
    return some ⟨start, if returned then stop - 1 else stop⟩
  else return none

def lineOf (starts : List Nat) (offset : Int) : Run Nat :=
  if offset ≤ 0 then return 0
  else loop (fun (i, j) =>
    if i + 1 < j then do
      let m := (i + j) / 2
      let start ← entry starts m
      return .inl (if (start : Int) ≤ offset then (m, j) else (i, m))
    else return .inr i) (starts.length + 1) (0, starts.length)

def positionAt (text : Bytes) (starts : List Nat) (offset : Int) : Run Position := do
  let offset := if offset < 0 then 0 else offset
  let offset := if (text.length : Int) < offset then (text.length : Int) else offset
  let line ← lineOf starts offset
  let span := (← lineSpan text starts line).getD ⟨0, 0⟩
  let before ← part text span.start (if span.stop < offset then span.stop else offset)
  return ⟨UInt32.ofNat line, UInt32.ofNat (Bytes.units before)⟩

/-- The UTF-16 units and the bytes of the first piece of a text. -/
def firstPiece : Bytes → Nat × Nat
  | [] => (1, 0)
  | b :: rest => ((Piece.first b rest).units, (Piece.first b rest).size)

def offsetAt (text : Bytes) (starts : List Nat) (p : Position) : Run (Option Nat) := do
  match ← lineSpan text starts p.line.toNat with
  | none => return none
  | some span =>
      let start ← natural span.start
      loop (fun ((i, need) : Nat × Nat) =>
        if i < span.stop ∧ 0 < need then do
          let (units, size) := firstPiece (← part text i text.length)
          return if need < units then .inr (some i) else .inl (i + size, need - units)
        else return .inr (if 0 < need ∧ span.stop ≤ i then none else some i))
        (text.length + 1) (start, p.character.toNat)

theorem map_start_place (number number' start : Nat) (pieces : List Bytes) :
    (Line.place number start pieces).map Line.start =
      (Line.place number' start pieces).map Line.start := by
  induction pieces generalizing number number' start with
  | nil => rfl
  | cons raw rest ih => exact congrArg (start :: ·) (ih _ _ _)

def laterStarts (start : Nat) (text : Bytes) : List Nat :=
  ((Line.place 0 start (Line.cut text)).map Line.start).tail

theorem map_start_split (text : Bytes) :
    (Line.split text).map Line.start = 0 :: laterStarts 0 text := by
  rw [Line.split, laterStarts]
  cases pieces : Line.cut text with
  | nil => exact absurd pieces (Line.cut_ne_nil text)
  | cons first rest => rfl

theorem laterStarts_lineFeed (start : Nat) (text : Bytes) :
    laterStarts start (Byte.lineFeed :: text) = (start + 1) :: laterStarts (start + 1) text := by
  rw [laterStarts, Line.cut_lineFeed]
  change (Line.place 1 (start + 1) (Line.cut text)).map Line.start = _
  rw [map_start_place 1 0, laterStarts]
  cases pieces : Line.cut text with
  | nil => exact absurd pieces (Line.cut_ne_nil text)
  | cons first rest => rfl

theorem laterStarts_of_ne {start : Nat} {b : UInt8} {text : Bytes} (other : b ≠ Byte.lineFeed) :
    laterStarts start (b :: text) = laterStarts (start + 1) text := by
  cases pieces : Line.cut text with
  | nil => exact absurd pieces (Line.cut_ne_nil text)
  | cons first rest =>
      rw [laterStarts, laterStarts, Line.cut_of_ne other pieces, pieces]
      change (Line.place 1 (start + (first.length + 1) + 1) rest).map Line.start =
        (Line.place 1 (start + 1 + first.length + 1) rest).map Line.start
      congr 2
      omega

theorem lineStarts_eq (text : Bytes) :
    lineStarts text = .ok ((Line.split text).map Line.start) := by
  rw [map_start_split]
  refine loop_eq (fun (i, starts) => starts ++ laterStarts i (text.drop i))
    (fun _ => True) (fun (i, _) => text.length - i) ?_ (s := (0, [0])) trivial
    (Nat.lt_succ_self _)
  rintro ⟨i, starts⟩ -
  dsimp only
  by_cases less : i < text.length
  · have cut := List.drop_eq_getElem_cons less
    rw [if_pos less, entry_eq rfl (List.getElem?_eq_getElem less), cut]
    refine Or.inr ⟨_, rfl, trivial, by dsimp only; omega, ?_⟩
    dsimp only
    by_cases feed : text[i] = Byte.lineFeed
    · rw [if_pos (beq_iff_eq.mpr feed), feed, laterStarts_lineFeed, List.append_assoc]
      rfl
    · rw [if_neg (fun same => feed (beq_iff_eq.mp same)), laterStarts_of_ne feed]
  · refine Or.inl ?_
    rw [if_neg less, List.drop_eq_nil_of_le (Nat.le_of_not_lt less)]
    change Except.ok (Sum.inr starts) = Except.ok (Sum.inr (starts ++ []))
    rw [List.append_nil]

section

variable (doc : Document)

def starts : List Nat :=
  doc.lines.map Line.start

theorem entry_starts {doc : Document} {i : Int} {n : Nat} {line : Line} (index : i = n)
    (found : doc.lines[n]? = some line) : entry (starts doc) i = .ok line.start := by
  refine entry_eq index ?_
  rw [starts, List.getElem?_map, found]
  rfl

theorem length_starts : (starts doc).length = doc.lines.length :=
  List.length_map _

theorem rawStop_eq {doc : Document} {line : Nat} {here : Line} {raw : Bytes}
    (cut : here.CutFrom doc.text doc.lines[line + 1]? raw) :
    rawStop doc.text (starts doc) line = .ok (here.start + raw.length : Nat) := by
  obtain ⟨-, left, right, split, start, follows⟩ := cut
  rw [rawStop, length_starts]
  rcases follows with ⟨none, rfl⟩ | ⟨next, rest, there, -, after⟩
  · rw [if_neg (Nat.not_lt.mpr (List.getElem?_eq_none_iff.mp none)), split, ← start,
      List.append_nil, List.length_append]
    rfl
  · obtain ⟨inside, -⟩ := List.getElem?_eq_some_iff.mp there
    rw [if_pos inside, entry_starts (by omega) there, after]
    change Except.ok _ = Except.ok _
    congr 1
    omega

theorem endsInReturn_eq {text left right : Bytes} {raw : Bytes}
    (split : text = left ++ (raw ++ right)) :
    endsInReturn text left.length (left.length + raw.length : Nat) =
      .ok (raw.getLast? == some Byte.carriageReturn) := by
  rw [endsInReturn]
  rcases List.eq_nil_or_concat raw with rfl | ⟨front, b, rfl⟩
  · rw [if_neg (by rw [List.length_nil]; omega)]
    rfl
  · rw [List.concat_eq_append] at split ⊢
    have last : text[left.length + front.length]? = some b := by
      rw [split, List.getElem?_append_right (by omega), Nat.add_sub_cancel_left,
        List.append_assoc, List.getElem?_append_right (Nat.le_refl _), Nat.sub_self]
      rfl
    rw [List.length_append, List.length_singleton, if_pos (by omega),
      entry_eq (by omega) last, List.getLast?_concat]
    rfl

theorem lineSpan_eq (line : Nat) :
    lineSpan doc.text (starts doc) line = .ok (doc.lines[line]?.map Line.span) := by
  rw [lineSpan, length_starts]
  by_cases less : line < doc.lines.length
  · have found := List.getElem?_eq_getElem less
    generalize doc.lines[line] = here at found
    have placed := found
    rw [doc.lines_eq] at placed
    obtain ⟨raw, cut⟩ := Line.cutFrom_of_getElem?_split placed
    rw [← doc.lines_eq] at cut
    have stop := rawStop_eq cut
    obtain ⟨content, left, right, split, start, -⟩ := cut
    have returned := endsInReturn_eq split
    rw [start] at returned
    rw [if_pos less, entry_starts rfl found, found, ok_bind, stop, ok_bind, returned, ok_bind]
    change Except.ok (some (Span.mk here.start _)) = Except.ok (some (Span.mk here.start here.stop))
    rw [Line.stop, content, Line.chomp]
    cases last : raw.getLast? == some Byte.carriageReturn with
    | true =>
        have filled : raw ≠ [] := by
          rintro rfl
          cases last
        have room := List.length_pos_iff.mpr filled
        rw [if_pos rfl, if_pos (beq_iff_eq.mp last), List.length_dropLast]
        congr 3
        omega
    | false =>
        rw [if_neg (by decide), if_neg (fun same => by rw [same] at last; cases last)]
  · rw [if_neg less, List.getElem?_eq_none (Nat.le_of_not_lt less)]
    rfl

theorem exists_first_line : ∃ line, doc.lines[0]? = some line ∧ line.start = 0 := by
  have heads := map_start_split doc.text
  rw [← doc.lines_eq] at heads
  cases lines : doc.lines with
  | nil =>
      rw [lines] at heads
      cases heads
  | cons line rest =>
      rw [lines] at heads
      exact ⟨line, rfl, (List.cons.inj heads).1⟩

/-- What the search between two lines keeps: the first of them does not start after the offset, and
the second does. -/
def Brackets (offset : Nat) (i j : Nat) : Prop :=
  i < j ∧ j ≤ doc.lines.length ∧ (∃ line, doc.lines[i]? = some line ∧ line.start ≤ offset) ∧
    ∀ next, doc.lines[j]? = some next → offset < next.start

theorem lineOf_eq (offset : Int) : lineOf (starts doc) offset = .ok (doc.lineOf offset) := by
  obtain ⟨line, found, start⟩ := exists_first_line doc
  obtain ⟨inside, -⟩ := List.getElem?_eq_some_iff.mp found
  have clamped : doc.lineOf offset = doc.lineOf offset.toNat := by
    rw [Document.lineOf, Document.lineOf, Int.toNat_natCast]
  rw [lineOf, clamped]
  by_cases low : offset ≤ 0
  · rw [if_pos low, Int.toNat_of_nonpos low, Document.lineOf_eq_of_lt found (Nat.le_of_eq start)]
    · rfl
    · intro next there
      have apart := Document.stop_lt_start found there (Nat.zero_lt_one)
      exact Nat.zero_lt_of_lt apart
  · rw [if_neg low, length_starts]
    refine loop_eq (fun _ => doc.lineOf offset.toNat) (fun (i, j) => Brackets doc offset.toNat i j)
      (fun (i, j) => j - i) ?_ (s := (0, doc.lines.length)) ?_ (Nat.lt_succ_self _)
    · rintro ⟨i, j⟩ ⟨order, short, ⟨here, first, below⟩, above⟩
      dsimp only
      by_cases more : i + 1 < j
      · have middle := List.getElem?_eq_getElem (show (i + j) / 2 < doc.lines.length by omega)
        rw [if_pos more, entry_starts rfl middle]
        refine Or.inr ⟨_, rfl, ?_⟩
        by_cases before : (doc.lines[(i + j) / 2].start : Int) ≤ offset
        · rw [if_pos before]
          exact ⟨⟨by omega, short, ⟨_, middle, by omega⟩, above⟩, by dsimp only; omega, rfl⟩
        · rw [if_neg before]
          refine ⟨⟨by omega, by omega, ⟨here, first, below⟩, ?_⟩, by dsimp only; omega, rfl⟩
          intro next there
          rw [← Option.some.inj (middle.symm.trans there)]
          omega
      · refine Or.inl ?_
        have last : j = i + 1 := by omega
        rw [last] at above
        rw [if_neg more, Document.lineOf_eq_of_lt first below above]
        rfl
    · refine ⟨inside, Nat.le_refl _, ⟨line, found, by omega⟩, ?_⟩
      intro next there
      rw [List.getElem?_eq_none (Nat.le_refl _)] at there
      cases there

theorem exists_line_at_lineOf (offset : Nat) :
    ∃ line, doc.lines[doc.lineOf offset]? = some line ∧ line.start ≤ offset := by
  obtain ⟨first, found, start⟩ := exists_first_line doc
  let early (line : Line) : Bool := line.start ≤ offset
  have sorted : doc.lines.takeWhile early = doc.lines.filter early := by
    refine Tokens.takeWhile_eq_filter (doc.pairwise_lines.imp ?_)
    intro a b apart below
    rw [decide_eq_true_iff] at below ⊢
    rw [Line.stop] at apart
    omega
  have filled : 0 < (doc.lines.filter early).length := by
    refine List.length_pos_of_mem (List.mem_filter.mpr ⟨List.mem_of_getElem? found, ?_⟩)
    exact decide_eq_true (by omega)
  have number : doc.lineOf offset = (doc.lines.takeWhile early).length - 1 := by
    rw [sorted, ← List.countP_eq_length_filter, Document.lineOf, Int.toNat_natCast]
  obtain ⟨rest, whole⟩ := List.takeWhile_prefix early (l := doc.lines)
  have less : doc.lineOf offset < (doc.lines.takeWhile early).length := by
    rw [← sorted] at filled
    omega
  refine ⟨(doc.lines.takeWhile early)[doc.lineOf offset], ?_, ?_⟩
  · conv => lhs; rw [← whole]
    rw [List.getElem?_append_left less, List.getElem?_eq_getElem less]
  · have held := List.all_eq_true.mp (List.all_takeWhile (p := early)) _ (List.getElem_mem less)
    exact of_decide_eq_true held

theorem part_line {text : Bytes} {line : Line} {offset : Nat} (stands : line.StandsIn text)
    (start : line.start ≤ offset) :
    part text line.start (if (line.stop : Int) < offset then (line.stop : Int) else offset) =
      .ok (line.content.take (offset - line.start)) := by
  have last := stands.stop_le
  have reached : (if (line.stop : Int) < offset then (line.stop : Int) else offset) =
      (line.start + min (offset - line.start) line.content.length : Nat) := by
    rw [Line.stop]
    split <;> omega
  rw [part_eq rfl reached (by omega) (by rw [Line.stop] at last; omega),
    stands.slice_start (Nat.min_le_right _ _), ← List.take_eq_take_min]

theorem positionAt_eq (offset : Int) :
    positionAt doc.text (starts doc) offset = .ok (doc.positionAt offset) := by
  obtain ⟨line, found, start⟩ :=
    exists_line_at_lineOf doc (min offset.toNat doc.text.length)
  have stands := Document.standsIn_text (List.mem_of_getElem? found)
  have clamped : (if (doc.text.length : Int) < (if offset < 0 then 0 else offset)
      then (doc.text.length : Int) else (if offset < 0 then 0 else offset)) =
      (min offset.toNat doc.text.length : Nat) := by
    split <;> split <;> omega
  have before := part_line stands start
  rw [positionAt, clamped, lineOf_eq, ok_bind, lineSpan_eq, ok_bind, found, Option.map_some,
    Option.getD_some, Line.span]
  dsimp only
  rw [before, Document.positionAt, found]
  rfl

/-- After a line the text ends, or an ASCII byte follows. -/
theorem drop_stop_of_getElem? {doc : Document} {index : Nat} {line : Line}
    (found : doc.lines[index]? = some line) :
    doc.text.drop line.stop = [] ∨
      ∃ b rest, doc.text.drop line.stop = b :: rest ∧ b < 0x80 := by
  rw [doc.lines_eq] at found
  obtain ⟨raw, content, left, right, split, start, follows⟩ := Line.cutFrom_of_getElem?_split found
  rw [Line.stop, content, Line.chomp, split, ← start, ← List.drop_drop, List.drop_left]
  split
  · rename_i last
    obtain ⟨front, rfl⟩ := List.getLast?_eq_some_iff.mp last
    rw [List.dropLast_concat, List.append_assoc, List.drop_left]
    exact Or.inr ⟨_, _, rfl, by decide⟩
  · rw [List.drop_left]
    rcases follows with ⟨-, rfl⟩ | ⟨next, rest, -, rfl, -⟩
    · exact Or.inl rfl
    · exact Or.inr ⟨_, _, rfl, by decide⟩

/-- A piece that starts on a line is the same whether or not what follows the line is read. -/
theorem firstPiece_drop {doc : Document} {index i : Nat} {line : Line}
    (found : doc.lines[index]? = some line) (less : i < line.stop) :
    ∃ b rest, doc.text.slice i line.stop = b :: rest ∧
      firstPiece (doc.text.drop i) =
        ((Piece.first b rest).units, (Piece.first b rest).size) := by
  have inside := (Document.standsIn_text (List.mem_of_getElem? found)).stop_le
  have here := List.getElem?_eq_getElem (show i < doc.text.length by omega)
  refine ⟨_, _, Bytes.slice_eq_cons less here, ?_⟩
  have whole : doc.text.drop i = doc.text.slice i line.stop ++ doc.text.drop line.stop := by
    rw [Bytes.slice, ← Nat.add_sub_cancel' (Nat.le_of_lt less), ← List.drop_drop,
      Nat.add_sub_cancel_left, List.take_append_drop]
  rw [whole, Bytes.slice_eq_cons less here]
  rcases drop_stop_of_getElem? found with none | ⟨b, rest, some, small⟩
  · rw [none, List.append_nil]
    rfl
  · rw [some, List.cons_append, firstPiece, Piece.first_append_ascii small]

/-- The offset that stands a number of units after another one, on a line that ends at `stop`. -/
def offsetFrom (text : Bytes) (stop i need : Nat) : Option Nat :=
  (Document.bytesBefore (text.slice i stop).pieces need).map (i + ·)

theorem offsetFrom_zero (text : Bytes) (stop i : Nat) : offsetFrom text stop i 0 = some i := by
  rw [offsetFrom]
  cases (text.slice i stop).pieces <;> rfl

theorem offsetFrom_stop (text : Bytes) (stop need : Nat) :
    offsetFrom text stop stop (need + 1) = none := by
  rw [offsetFrom, Bytes.slice, Nat.sub_self, List.take_zero]
  rfl

theorem offsetFrom_piece {text rest : Bytes} {b : UInt8} {stop i : Nat} (need : Nat)
    (cut : text.slice i stop = b :: rest) :
    offsetFrom text stop i (need + 1) =
      if need + 1 < (Piece.first b rest).units then some i
      else offsetFrom text stop (i + (Piece.first b rest).size)
        (need + 1 - (Piece.first b rest).units) := by
  have follows := Bytes.drop_slice text i stop (Piece.first b rest).size
  rw [offsetFrom, cut, Bytes.pieces_cons, Document.bytesBefore]
  split
  · rfl
  · rw [offsetFrom, ← follows, cut, Option.map_map]
    congr 1
    funext n
    exact (Nat.add_assoc _ _ _).symm

theorem offsetAt_eq (p : Position) :
    offsetAt doc.text (starts doc) p = .ok (doc.offsetAt? p) := by
  rw [offsetAt, lineSpan_eq, ok_bind, Document.offsetAt?]
  cases found : doc.lines[p.line.toNat]? with
  | none => rfl
  | some line =>
      have stands := Document.standsIn_text (List.mem_of_getElem? found)
      have inside := stands.stop_le
      rw [Option.map_some, Line.span]
      dsimp only
      rw [natural_eq, ok_bind, ← stands.slice_content]
      -- Every round keeps the offset that the units still needed lead to from where it stands.
      refine loop_eq (s := (line.start, p.character.toNat))
        (fun (i, need) => offsetFrom doc.text line.stop i need)
        (fun (i, _) => i ≤ line.stop) (fun (i, _) => line.stop - i) ?_ (Nat.le_add_right _ _) ?_
      · rintro ⟨i, need⟩ bound
        dsimp only at bound ⊢
        cases need with
        | zero =>
            refine Or.inl ?_
            rw [if_neg (fun both => Nat.lt_irrefl _ both.2),
              if_neg (fun both => Nat.lt_irrefl _ both.1), offsetFrom_zero]
            rfl
        | succ need =>
            rcases Nat.lt_or_eq_of_le bound with less | last
            · obtain ⟨b, rest, cut, first⟩ := firstPiece_drop found less
              have fits := Piece.size_first_le b rest
              have positive := (Piece.first b rest).size_pos
              have size := congrArg List.length cut
              rw [Bytes.length_slice i inside] at size
              rw [if_pos ⟨Int.ofNat_lt.mpr less, Nat.succ_pos _⟩, part_tail (by omega), ok_bind,
                first, offsetFrom_piece need cut]
              dsimp only
              by_cases splits : need + 1 < (Piece.first b rest).units
              · rw [if_pos splits, if_pos splits]
                exact Or.inl rfl
              · rw [if_neg splits, if_neg splits]
                exact Or.inr ⟨_, rfl, by dsimp only; omega, by dsimp only; omega, rfl⟩
            · refine Or.inl ?_
              rw [last, if_neg (fun both => Int.lt_irrefl _ both.1),
                if_pos ⟨Nat.succ_pos _, Int.le_refl _⟩, offsetFrom_stop]
              rfl
      · dsimp only
        omega

end

end Guarded

end Dockerfile
