import Dockerfile.Proofs.Guarded.Argument
import Dockerfile.Proofs.Guarded.Reference
import Dockerfile.Proofs.Variable

/-!
# Guarded declarations

The declarations of an instruction are read segment by segment, and what is read is put at the end
of one list for all instructions.  A name at the end of a continued line goes into the list at once;
if the next line gives it a value, the last entry of the list is changed.  That entry exists and is
the instruction's own, because the reader waits for a value only after such a name.
-/

namespace Dockerfile

namespace Guarded

open Variable (Site Progress Step endsName)

/-- Where a value ends that goes on at an index, and the quote that is open there. -/
def scanValue (escape : UInt8) (text : Bytes) (start : Nat) (quote : Option Quote) :
    Run (Nat × Option Quote) :=
  loop (fun ((i, quote) : Nat × Option Quote) =>
    if i < text.length then do
      let b ← entry text i
      if b == escape && quote != some .single && i + 1 < text.length then
        return .inl (i + 2, quote)
      else
        match Quote.next quote b with
        | some next => return .inl (i + 1, next)
        | none => return .inr (i, none)
    else return .inr (i, quote)) (text.length + 1) (start, quote)

/-- What is known between two names: whether one has been read, the open quote, whether a value has
taken the rest, whether the last name waits for a value, and all declarations so far. -/
structure Scan where
  seen : Bool
  quote : Option Quote
  closed : Bool
  waits : Bool
  out : List Variable

def Scan.add (s : Scan) (v : Variable) : Scan :=
  { s with seen := true, out := s.out ++ [v] }

def nameAndValue (site : Site) (text : Bytes) (continued : Bool) (s : Scan) (start stop : Nat) :
    Run (Nat × Scan) := do
  let name ← part text start stop
  let v : Variable := ⟨name, site.keyword, site.span start stop, none, site.line⟩
  if ← hasByte text stop Byte.equals then
    let (index, quote) ← scanValue site.escape text (stop + 1) none
    let valued := { v with valueSpan := some (site.span (stop + 1) index) }
    return (index, { s with quote := quote }.add valued)
  else if s.seen then return (stop, s.add v)
  else
    let rest ← advance Byte.isBlank text text.length stop
    if rest < text.length then
      let last ← retreat Byte.isBlank text rest text.length
      let valued := { v with valueSpan := some (site.span rest last) }
      return (text.length, { s with closed := true }.add valued)
    else return (stop, { s with waits := s.waits || continued }.add v)

def declaration (site : Site) (text : Bytes) (continued : Bool) (s : Scan) (start : Nat) :
    Run (Nat × Scan) := do
  let stop ← advance (!endsName ·) text text.length start
  if stop = start then
    let (index, quote) ← scanValue site.escape text (stop + 1) none
    return (index, { s with quote := quote })
  else nameAndValue site text continued s start stop

def scanNames (site : Site) (text : Bytes) (continued : Bool) (start : Nat) (s : Scan) : Run Scan :=
  loop (fun ((i, s) : Nat × Scan) =>
    if i < text.length then do
      let start ← advance Byte.isBlank text text.length i
      if text.length ≤ start then return .inr s
      else
        let (next, s) ← declaration site text continued s start
        return if s.closed then .inr s else .inl (next, s)
    else return .inr s) (text.length + 1) (start, s)

/-- Take a line as the value of the last name, which has to be one of those after the first `own`
declarations. -/
def legacyValue (site : Site) (text : Bytes) (continued : Bool) (own : Nat) (s : Scan) :
    Run Scan := do
  let start ← advance Byte.isBlank text text.length 0
  let stop ← retreat Byte.isBlank text start text.length
  if start = stop then return { s with waits := continued }
  else
    let v ← entry (s.out.drop own) ((s.out.length : Int) - 1 - own)
    let valued := { v with valueSpan := some (site.span start stop) }
    return { s with closed := true, waits := false, out := s.out.dropLast ++ [valued] }

def scanText (site : Site) (text : Bytes) (continued : Bool) (own : Nat) (s : Scan) : Run Scan :=
  if s.waits && !text.contains Byte.equals then legacyValue site text continued own s
  else
    match s.quote with
    | some q => do
        let (index, quote) ← scanValue site.escape text 0 (some q)
        scanNames site text continued index { s with quote := quote, waits := false }
    | none => scanNames site text continued 0 { s with waits := false }

def scanSegments (keyword : Keyword) (argument : Argument) (own : Nat) :
    (s : Scan) → List Segment → Run Scan
  | s, [] => return s
  | s, segment :: rest =>
      if s.closed then scanSegments keyword argument own s rest
      else do
        let text ← part argument.text segment.logical segment.logicalStop
        let site : Site := ⟨keyword, argument.escape, segment.line, segment.span.start⟩
        let s ← scanText site text (!rest.isEmpty) own s
        scanSegments keyword argument own s rest

def declarations : (out : List Variable) → List Instruction → Run (List Variable)
  | out, [] => return out
  | out, i :: rest =>
      match i.keyword with
      | some keyword =>
          if keyword.declaresVariables then do
            let s ← scanSegments keyword i.argument out.length ⟨false, none, false, false, out⟩
              i.argument.segments
            declarations s.out rest
          else declarations out rest
      | none => declarations out rest

theorem value_escaped {escape : UInt8} {quote : Option Quote} {text : Bytes} {i : Nat}
    (more : i + 1 < text.length)
    (escaped : (text[i] == escape && quote != some .single) = true) :
    Variable.value escape quote (text.drop i) =
      ((Variable.value escape quote (text.drop (i + 2))).1 + 2,
        (Variable.value escape quote (text.drop (i + 2))).2) := by
  rw [List.drop_eq_getElem_cons (show i < text.length by omega), List.drop_eq_getElem_cons more,
    Variable.value, if_pos escaped]

theorem value_plain {escape : UInt8} {quote : Option Quote} {text : Bytes} {i : Nat}
    (less : i < text.length)
    (plain : ¬ ((text[i] == escape && quote != some .single) = true ∧ i + 1 < text.length)) :
    Variable.value escape quote (text.drop i) =
      match Quote.next quote text[i] with
      | none => (0, none)
      | some next => ((Variable.value escape next (text.drop (i + 1))).1 + 1,
          (Variable.value escape next (text.drop (i + 1))).2) := by
  rw [List.drop_eq_getElem_cons less]
  by_cases more : i + 1 < text.length
  · rewrite [List.drop_eq_getElem_cons more, Variable.value,
      if_neg (fun escaped => plain ⟨escaped, more⟩)]
    cases Quote.next quote text[i] <;> rfl
  · rewrite [List.drop_eq_nil_of_le (Nat.le_of_not_lt more), Variable.value]
    cases Quote.next quote text[i] <;> rfl

theorem scanValue_eq (escape : UInt8) (text : Bytes) (start : Nat) (quote : Option Quote) :
    scanValue escape text start quote =
      .ok (start + (Variable.value escape quote (text.drop start)).1,
        (Variable.value escape quote (text.drop start)).2) := by
  refine loop_eq (s := (start, quote))
    (fun ((i, quote) : Nat × Option Quote) =>
      (i + (Variable.value escape quote (text.drop i)).1,
        (Variable.value escape quote (text.drop i)).2))
    (fun _ => True) (fun ((i, _) : Nat × Option Quote) => text.length - i) ?_ trivial
    (Nat.lt_succ_of_le (Nat.sub_le _ _))
  rintro ⟨i, quote⟩ -
  dsimp only
  by_cases less : i < text.length
  · rw [if_pos less, entry_eq rfl (List.getElem?_eq_getElem less), ok_bind]
    by_cases escaped : (text[i] == escape && quote != some .single) = true ∧ i + 1 < text.length
    · rw [value_escaped escaped.2 escaped.1, if_pos (by simpa using escaped)]
      refine Or.inr ⟨_, rfl, trivial, by dsimp only; omega, ?_⟩
      dsimp only
      rw [Nat.add_assoc, Nat.add_comm 2]
    · rw [value_plain less escaped, if_neg (by simpa using escaped)]
      cases Quote.next quote text[i] with
      | none => exact Or.inl rfl
      | some next =>
          refine Or.inr ⟨_, rfl, trivial, by dsimp only; omega, ?_⟩
          dsimp only
          rw [Nat.add_assoc, Nat.add_comm 1]
  · rw [if_neg less, List.drop_eq_nil_of_le (Nat.le_of_not_lt less)]
    exact Or.inl rfl

namespace Scan

def progress (s : Scan) : Progress :=
  ⟨s.seen, s.quote, none, s.closed⟩

/-- What is known after a step: a name that the step holds back is put at the end of the list. -/
def after (s : Scan) (continued : Bool) (taken : Step) : Scan where
  seen := taken.progress.seen
  quote := taken.progress.quote
  closed := taken.progress.closed
  waits := s.waits || (taken.progress.pending.isSome && continued)
  out := s.out ++ taken.declared.toList ++ taken.progress.pending.toList

theorem after_of_pending_eq_none (s : Scan) (continued : Bool) {taken : Step}
    (calm : taken.progress.pending = none) :
    s.after continued taken = ⟨taken.progress.seen, taken.progress.quote, taken.progress.closed,
      s.waits, s.out ++ taken.declared.toList⟩ := by
  rw [after, calm, Option.isSome_none, Bool.false_and, Bool.or_false, Option.toList_none,
    List.append_nil]

end Scan

theorem retreat_trim {text : Bytes} {start : Nat} (inside : start ≤ text.length) :
    retreat Byte.isBlank text (start + Bytes.indent (text.drop start)) text.length =
      .ok (start + Bytes.indent (text.drop start) + (Bytes.trim (text.drop start)).length) := by
  have short := Bytes.indent_le (text.drop start)
  rw [List.length_drop] at short
  rw [retreat_eq _ (by omega) (Nat.le_refl _), Bytes.slice_length, ← List.drop_drop,
    Bytes.drop_indent, Bytes.trim, Bytes.trimRight, List.length_reverse]

section

variable (site : Site) {text : Bytes} (continued : Bool) (s : Scan) {start : Nat}

theorem step_assigned (p : Progress) {stop : Nat}
    (ends : start + (Variable.nameAt text start).length = stop)
    (equals : ((text.drop stop).head? == some Byte.equals) = true) :
    Variable.step site p start (text.drop start) =
      ⟨if (Variable.nameAt text start).isEmpty then none
        else some (site.declare start (Variable.nameAt text start) (some (site.span (stop + 1)
          (stop + 1 + (Variable.value site.escape none (text.drop (stop + 1))).1)))),
        (Variable.nameAt text start).length + 1 +
          (Variable.value site.escape none (text.drop (stop + 1))).1,
        { p with
          seen := p.seen || !(Variable.nameAt text start).isEmpty
          quote := (Variable.value site.escape none (text.drop (stop + 1))).2 }⟩ := by
  rw [Variable.step, Variable.drop_nameAt, ← Variable.nameAt, ends, if_pos equals, List.drop_drop]

theorem step_seen {p : Progress} {stop : Nat}
    (ends : start + (Variable.nameAt text start).length = stop)
    (plain : ¬ ((text.drop stop).head? == some Byte.equals) = true) (seen : p.seen = true) :
    Variable.step site p start (text.drop start) =
      ⟨some (site.declare start (Variable.nameAt text start) none),
        (Variable.nameAt text start).length, p⟩ := by
  rw [Variable.step, Variable.drop_nameAt, ← Variable.nameAt, ends, if_neg plain, if_pos seen]

theorem step_waiting {p : Progress} {stop : Nat}
    (ends : start + (Variable.nameAt text start).length = stop)
    (plain : ¬ ((text.drop stop).head? == some Byte.equals) = true) (seen : ¬ p.seen = true)
    (empty : Bytes.trim (text.drop stop) = []) :
    Variable.step site p start (text.drop start) =
      ⟨none, (Variable.nameAt text start).length,
        { p with
          seen := true
          pending := some (site.declare start (Variable.nameAt text start) none) }⟩ := by
  rw [Variable.step, Variable.drop_nameAt, ← Variable.nameAt, ends, if_neg plain, if_neg seen,
    empty]
  rfl

theorem step_legacy {p : Progress} {stop : Nat}
    (ends : start + (Variable.nameAt text start).length = stop)
    (plain : ¬ ((text.drop stop).head? == some Byte.equals) = true) (seen : ¬ p.seen = true)
    (filled : Bytes.trim (text.drop stop) ≠ []) :
    Variable.step site p start (text.drop start) =
      ⟨some (site.declare start (Variable.nameAt text start) (some (site.span
          (stop + Bytes.indent (text.drop stop))
          (stop + Bytes.indent (text.drop stop) + (Bytes.trim (text.drop stop)).length)))),
        (text.drop start).length, { p with seen := true, closed := true }⟩ := by
  rw [Variable.step, Variable.drop_nameAt, ← Variable.nameAt, ends, if_neg plain, if_neg seen]
  exact if_neg (fun empty => filled (List.isEmpty_iff.mp empty))

theorem nameAndValue_eq (inside : start < text.length)
    (filled : Variable.nameAt text start ≠ []) :
    nameAndValue site text continued s start (start + (Variable.nameAt text start).length) =
      .ok (start + (Variable.step site s.progress start (text.drop start)).size,
        s.after continued (Variable.step site s.progress start (text.drop start))) := by
  have short := Variable.length_nameAt_le text start
  have name : part text start (start + (Variable.nameAt text start).length : Nat) =
      .ok (Variable.nameAt text start) :=
    part_front (List.takeWhile_prefix _) (Nat.le_of_lt inside)
  have solid : (Variable.nameAt text start).isEmpty = false := by
    rwa [List.isEmpty_eq_false_iff]
  generalize ends : start + (Variable.nameAt text start).length = stop at name
  have bound : stop ≤ text.length := by omega
  rw [nameAndValue, name, ok_bind, hasByte_eq, ok_bind]
  have declared (valueSpan : Option Span) :
      site.declare start (Variable.nameAt text start) valueSpan =
        ⟨Variable.nameAt text start, site.keyword, site.span start stop, valueSpan, site.line⟩ := by
    rw [← ends]
    rfl
  by_cases equals : ((text.drop stop).head? == some Byte.equals) = true
  · rw [if_pos equals, step_assigned site s.progress ends equals, scanValue_eq, ok_bind, solid,
      if_neg (by decide), declared, Scan.after_of_pending_eq_none _ _ rfl]
    dsimp only
    rw [← Nat.add_assoc, ← Nat.add_assoc, ends, Bool.not_false, Bool.or_true]
    rfl
  · rw [if_neg equals]
    by_cases seen : s.seen = true
    · rw [if_pos seen, step_seen site ends equals seen, declared,
        Scan.after_of_pending_eq_none _ _ rfl]
      dsimp only [Scan.progress]
      rw [ends, seen]
      rfl
    · rw [if_neg seen, advance_tail, ok_bind, ← Bytes.indent]
      have reaches := Bytes.indent_lt_length_iff (text.drop stop)
      rw [List.length_drop] at reaches
      by_cases empty : Bytes.trim (text.drop stop) = []
      · have past : ¬ stop + Bytes.indent (text.drop stop) < text.length :=
          fun less => reaches.mp (by omega) empty
        rw [if_neg past, step_waiting site ends equals seen empty, declared]
        dsimp only [Scan.after]
        rw [ends, Option.isSome_some, Bool.true_and, Option.toList_none, List.append_nil]
        rfl
      · have before := reaches.mpr empty
        rw [if_pos (by omega), retreat_trim bound, ok_bind,
          step_legacy site ends equals seen empty, declared, Scan.after_of_pending_eq_none _ _ rfl]
        dsimp only
        rw [List.length_drop, Nat.add_sub_cancel' (Nat.le_of_lt inside)]
        rfl

theorem declaration_eq (inside : start < text.length)
    (solid : Byte.isBlank text[start] = false) :
    declaration site text continued s start =
      .ok (start + (Variable.step site s.progress start (text.drop start)).size,
        s.after continued (Variable.step site s.progress start (text.drop start))) := by
  rw [declaration, advance_tail, ok_bind, ← Variable.nameAt]
  by_cases filled : Variable.nameAt text start = []
  · have ends : start + (Variable.nameAt text start).length = start := by
      rw [filled]
      rfl
    have equals : ((text.drop start).head? == some Byte.equals) = true := by
      have found := List.getElem?_eq_getElem inside
      have next : text[start + (Variable.nameAt text start).length]? = some text[start] := by
        rw [ends]
        exact found
      have stops := Variable.endsName_nameAt next
      rw [List.head?_drop, found, beq_iff_eq]
      rw [endsName, solid, Bool.false_or, beq_iff_eq] at stops
      rw [stops]
    rw [if_pos ends, step_assigned site s.progress ends equals, scanValue_eq, ok_bind, ends,
      Scan.after_of_pending_eq_none _ _ rfl, filled]
    dsimp only [Scan.progress]
    rw [List.length_nil, Nat.zero_add, ← Nat.add_assoc, List.isEmpty_nil, if_pos rfl,
      Option.toList_none, List.append_nil, Bool.not_true, Bool.or_false]
    rfl
  · have longer := List.length_pos_iff.mpr filled
    rw [if_neg (by omega), nameAndValue_eq site continued s inside filled]

theorem readNames_trimLeft (p : Progress) (index : Nat) (text : Bytes) :
    Variable.readNames site p index 0 text =
      Variable.readNames site p (index + text.indent) 0 text.trimLeft := by
  induction text generalizing index with
  | nil => rfl
  | cons b rest ih =>
      by_cases blank : Byte.isBlank b = true
      · rw [Variable.readNames, if_pos blank, ih, Bytes.indent, Bytes.indent, Bytes.trimLeft,
          Bytes.trimLeft, List.takeWhile_cons_of_pos blank, List.dropWhile_cons_of_pos blank,
          List.length_cons, Nat.add_assoc, Nat.add_comm 1]
      · rw [Bytes.indent, Bytes.trimLeft, List.takeWhile_cons_of_neg blank,
          List.dropWhile_cons_of_neg blank]
        rfl

def Scan.finish (s : Scan) (found : List Variable × Progress) : Scan where
  seen := found.2.seen
  quote := found.2.quote
  closed := found.2.closed
  waits := s.waits || (found.2.pending.isSome && continued)
  out := s.out ++ found.1 ++ found.2.pending.toList

/-- Reading on after a step comes to what reading from the step on comes to. -/
theorem finish_after {taken : Step} (step : Variable.Taken site s.progress text start taken) :
    (s.after continued taken).finish continued (Variable.readNames site
        (s.after continued taken).progress (start + taken.size) 0
          (text.drop (start + taken.size))) =
      s.finish continued
        (taken.declared.toList ++ (Variable.readNames site taken.progress (start + taken.size) 0
            (text.drop (start + taken.size))).1,
          (Variable.readNames site taken.progress (start + taken.size) 0
            (text.drop (start + taken.size))).2) := by
  have outcome := step.outcome
  obtain ⟨declared, size, ⟨seen, quote, pending, closed⟩⟩ := taken
  dsimp only [Scan.after, Scan.progress, Scan.finish] at outcome ⊢
  rcases outcome with ⟨rfl, -⟩ | ⟨rfl, blank, v, rfl, -⟩
  · rw [Option.isSome_none, Bool.false_and, Bool.or_false, Option.toList_none, List.append_nil,
      List.append_assoc s.out]
  · rw [Variable.readNames_of_allBlank _ _ _ blank, Variable.readNames_of_allBlank _ _ _ blank]
    dsimp only
    rw [Option.isSome_none, Bool.false_and, Bool.or_false, Option.toList_none, List.append_nil,
      List.append_nil]
    rfl

theorem finish_nothing : s.finish continued ([], s.progress) = s := by
  dsimp only [Scan.finish, Scan.progress]
  rw [Option.isSome_none, Bool.false_and, Bool.or_false, Option.toList_none, List.append_nil,
    List.append_nil]

/-- A value that takes the rest takes all of it. -/
theorem size_of_closed {p : Progress} (opened : p.closed = false) (index : Nat) (rest : Bytes)
    (closed : (Variable.step site p index rest).progress.closed = true) :
    (Variable.step site p index rest).size = rest.length := by
  unfold Variable.step at closed ⊢
  dsimp only at closed ⊢
  split at closed
  · cases opened.symm.trans closed
  · split at closed
    · cases opened.symm.trans closed
    · rename_i plain seen
      rw [if_neg plain, if_neg seen]
      split at closed
      · cases opened.symm.trans closed
      · rename_i filled
        rw [if_neg filled]

/-- After blanks that follow a place between words, a name can start. -/
theorem isBlank_before_indent {i : Nat} (between : Word.Between text i)
    (inside : i + Bytes.indent (text.drop i) < text.length)
    (solid : Byte.isBlank text[i + Bytes.indent (text.drop i)] = false) (n : Nat) (b : UInt8)
    (next : i + Bytes.indent (text.drop i) = n + 1) (found : text[n]? = some b) :
    Byte.isBlank b = true := by
  rcases Nat.eq_zero_or_pos (Bytes.indent (text.drop i)) with none | some
  · rcases between with before | here
    · exact before n b (by omega) found
    · have blank := here _ (List.getElem?_eq_getElem (show i < text.length by omega))
      simp only [none, Nat.add_zero] at solid
      rw [blank] at solid
      cases solid
  · refine Bytes.isBlank_of_lt_indent (show n - i < Bytes.indent (text.drop i) by omega) ?_
    rw [List.getElem?_drop, Nat.add_sub_cancel' (by omega)]
    exact found

/-- The names on a line, from a place between words on. -/
theorem scanNames_eq (between : Word.Between text start) (opened : s.closed = false) :
    scanNames site text continued start s =
      .ok (s.finish continued (Variable.readNames site s.progress start 0 (text.drop start))) := by
  refine loop_eq (s := (start, s))
    (fun ((i, s) : Nat × Scan) =>
      s.finish continued (Variable.readNames site s.progress i 0 (text.drop i)))
    (fun ((i, s) : Nat × Scan) => Word.Between text i ∧ s.closed = false)
    (fun ((i, _) : Nat × Scan) => text.length - i) ?_ ⟨between, opened⟩
    (Nat.lt_succ_of_le (Nat.sub_le _ _))
  rintro ⟨i, s⟩ ⟨between, opened⟩
  dsimp only at between opened ⊢
  by_cases less : i < text.length
  · have left := Bytes.drop_indent (text.drop i)
    rw [if_pos less, advance_tail, ok_bind, ← Bytes.indent, readNames_trimLeft, ← left,
      List.drop_drop]
    rw [List.drop_drop] at left
    by_cases past : text.length ≤ i + Bytes.indent (text.drop i)
    · rw [if_pos past, List.drop_eq_nil_of_le past, Variable.readNames, finish_nothing]
      exact Or.inl rfl
    · have inside := Nat.lt_of_not_le past
      rw [List.drop_eq_getElem_cons inside] at left
      have solid := Bytes.not_isBlank_head_trimLeft left.symm
      have before := isBlank_before_indent between inside solid
      have after := Nat.le_add_right i (Bytes.indent (text.drop i))
      generalize i + Bytes.indent (text.drop i) = start at *
      have here (b : UInt8) (found : text[start]? = some b) : Byte.isBlank b = false := by
        rwa [← Option.some.inj ((List.getElem?_eq_getElem inside).symm.trans found)]
      have taken := Variable.taken_step site s.progress inside here before
      have reads := Variable.readNames_step inside solid rfl taken.positive
      have same := finish_after site continued s taken
      rw [if_neg past, declaration_eq site continued s inside solid, ok_bind, reads, ← same]
      have positive := taken.positive
      have stops := taken.stops
      have whole := size_of_closed site (p := s.progress) opened start (text.drop start)
      generalize Variable.step site s.progress start (text.drop start) = step at *
      cases closed : step.progress.closed with
      | true =>
          have none : text.drop (start + step.size) = [] := by
            rw [whole closed, List.length_drop]
            exact List.drop_eq_nil_of_le (by omega)
          rw [none, Variable.readNames, finish_nothing]
          exact Or.inl (congrArg Except.ok (if_pos closed))
      | false =>
          exact Or.inr ⟨(start + step.size, s.after continued step),
            congrArg Except.ok (if_neg fun opposite => by cases closed.symm.trans opposite),
            ⟨Or.inr stops, closed⟩, by dsimp only; omega, rfl⟩
  · rw [if_neg less, List.drop_eq_nil_of_le (Nat.le_of_not_lt less), Variable.readNames,
      finish_nothing]
    exact Or.inl rfl

theorem scanText_of_names (own : Nat) (opened : s.closed = false)
    (names : (s.waits && !text.contains Byte.equals) = false) :
    scanText site text continued own s =
      .ok ({ s with waits := false }.finish continued
        (Variable.readText site s.progress text)) := by
  rw [scanText, names, if_neg (by decide), Variable.readText, Scan.progress]
  cases s.quote with
  | none =>
      have first : Word.Between text 0 := Or.inl fun n b next => by cases next
      have names := scanNames_eq site continued ⟨s.seen, none, s.closed, false, s.out⟩ first opened
      rw [List.drop_zero] at names
      exact names
  | some q =>
      have between : Word.Between text (Variable.value site.escape (some q) text).1 :=
        Or.inr fun b next => Variable.isBlank_value next
      have names := scanNames_eq site continued
        ⟨s.seen, (Variable.value site.escape (some q) text).2, s.closed, false, s.out⟩
        between opened
      dsimp only
      rw [scanValue_eq, ok_bind, List.drop_zero, Nat.zero_add, Variable.readNames_skip,
        Nat.zero_add]
      exact names

/-- What is known between two lines, and what the reading of the lines before has come to. -/
structure Matches (out : List Variable) (p : Progress) (s : Scan) : Prop where
  seen : s.seen = p.seen
  quote : s.quote = p.quote
  closed : s.closed = p.closed
  waits : p.closed = false → s.waits = (p.pending.isSome && continued)
  out : s.out = out ++ p.pending.toList

theorem matches_finish {out : List Variable} (found : List Variable × Progress)
    (same : s.out = out) (waits : s.waits = false) :
    Matches continued (out ++ found.1) found.2 (s.finish continued found) := by
  refine ⟨rfl, rfl, rfl, ?_, ?_⟩
  · intro _
    rw [Scan.finish, waits, Bool.false_or]
  · rw [Scan.finish, same]

theorem trim_bounds (text : Bytes) :
    advance Byte.isBlank text text.length 0 = .ok text.indent ∧
      retreat Byte.isBlank text text.indent text.length = .ok (text.indent + text.trim.length) := by
  have last := retreat_trim (Nat.zero_le text.length)
  rw [List.drop_zero, Nat.zero_add] at last
  refine ⟨?_, last⟩
  rw [advance_tail, List.drop_zero, Nat.zero_add, Bytes.indent]

theorem legacyValue_of_blank (own : Nat) (empty : text.trim = []) :
    legacyValue site text continued own s = .ok { s with waits := continued } := by
  obtain ⟨first, last⟩ := trim_bounds text
  rw [legacyValue, first, ok_bind, last, ok_bind, empty]
  exact if_pos rfl

/-- The last name gets its value: it is the name held back. -/
theorem legacyValue_of_filled {out : List Variable} {v : Variable} {own : Nat}
    (before : own ≤ out.length) (ends : s.out = out ++ [v]) (filled : text.trim ≠ []) :
    legacyValue site text continued own s =
      .ok { s with
        closed := true
        waits := false
        out := out ++ [{ v with
          valueSpan := some (site.span text.indent (text.indent + text.trim.length)) }] } := by
  obtain ⟨first, last⟩ := trim_bounds text
  have longer := List.length_pos_iff.mpr filled
  have found : (s.out.drop own)[out.length - own]? = some v := by
    rw [ends, List.drop_append_of_le_length before, List.getElem?_append_right
      (Nat.le_of_eq List.length_drop), List.length_drop, Nat.sub_self]
    rfl
  have index : (s.out.length : Int) - 1 - own = (out.length - own : Nat) := by
    rw [ends, List.length_append, List.length_singleton]
    omega
  rw [legacyValue, first, ok_bind, last, ok_bind, if_neg (by omega), entry_eq index found, ok_bind,
    ends, List.dropLast_concat]
  rfl

-- The last entry is not enough: here it was there before, and the guard stops the run.
example : legacyValue ⟨.arg, Byte.backslash, 1, 10⟩ (utf8 "1") false 1
    ⟨true, none, false, true, [⟨utf8 "A", .env, ⟨4, 5⟩, none, 0⟩]⟩ =
      .error (.index (-1) 0) := rfl

theorem matches_scanText {out : List Variable} {p : Progress} {own : Nat}
    (before : own ≤ out.length) (matched : Matches true out p s) (opened : s.closed = false) :
    ∃ next, scanText site text continued own s = .ok next ∧
      Matches continued (out ++ (Variable.readLine site p text).1)
        (Variable.readLine site p text).2 next := by
  have opened' : p.closed = false := matched.closed.symm.trans opened
  have waits := matched.waits opened'
  rw [Variable.readLine, if_neg (by rw [opened']; decide)]
  cases held : p.pending with
  | none =>
      have same : s.progress = p := by
        rw [Scan.progress, matched.seen, matched.quote, matched.closed, ← held]
      have whole := matched.out
      rw [held] at waits whole
      rw [Option.toList_none, List.append_nil] at whole
      rw [scanText_of_names site continued s own opened (by rw [waits]; rfl), same]
      exact ⟨_, rfl, matches_finish continued _ _ whole rfl⟩
  | some v =>
      have whole := matched.out
      rw [held] at waits whole
      by_cases equals : text.contains Byte.equals = true
      · have same : s.progress = { p with pending := none } := by
          rw [Scan.progress, matched.seen, matched.quote, matched.closed]
        have names : (s.waits && !text.contains Byte.equals) = false := by
          rw [equals, Bool.not_true, Bool.and_false]
        rw [scanText_of_names site continued s own opened names, same]
        dsimp only
        rw [if_pos equals]
        refine ⟨_, rfl, ?_⟩
        have finished := matches_finish continued { s with waits := false }
          (Variable.readText site { p with pending := none } text) whole rfl
        rwa [Option.toList_some, List.append_assoc] at finished
      · have legacy : (s.waits && !text.contains Byte.equals) = true := by
          rw [waits, Bool.not_eq_true _ |>.mp equals]
          rfl
        dsimp only
        rw [scanText, if_pos legacy, if_neg equals]
        by_cases empty : text.trim = []
        · rw [legacyValue_of_blank site continued s own empty, empty, if_pos List.isEmpty_nil,
            List.append_nil]
          refine ⟨_, rfl, matched.seen, matched.quote, matched.closed, ?_, matched.out⟩
          intro _
          rw [held]
          rfl
        · rw [legacyValue_of_filled site continued s before whole empty,
            if_neg (fun none => empty (List.isEmpty_iff.mp none))]
          refine ⟨_, rfl, matched.seen, matched.quote, rfl, fun opened => (by cases opened), ?_⟩
          rw [Option.toList_none, List.append_nil]

end

theorem exists_scanSegments {text : Bytes} {a : Argument} (sound : a.Sound text)
    (keyword : Keyword) {own : Nat} {left : List Segment} (sub : ∀ s ∈ left, s ∈ a.segments)
    {out : List Variable} {p : Progress} {s : Scan} (before : own ≤ out.length)
    (matched : Matches (!left.isEmpty) out p s) :
    ∃ next, scanSegments keyword a own s left = .ok next ∧
      next.out = out ++ Variable.readSegments keyword a p left := by
  induction left generalizing s out p with
  | nil => exact ⟨s, rfl, matched.out⟩
  | cons segment rest ih =>
      obtain ⟨here, later⟩ := List.forall_mem_cons.mp sub
      have inside := sound.inside segment here
      have bound := sound.bound segment here
      rw [scanSegments, Variable.readSegments]
      cases closed : s.closed with
      | true =>
          have shut : p.closed = true := matched.closed.symm.trans closed
          rw [if_pos rfl, Variable.readLine, if_pos shut]
          refine ih later before ⟨matched.seen, matched.quote, matched.closed, ?_, matched.out⟩
          intro opened
          cases shut.symm.trans opened
      | false =>
          have text : part a.text segment.logical segment.logicalStop =
              .ok (a.text.slice segment.logical segment.logicalStop.toNat) := by
            rw [Segment.logicalStop] at bound ⊢
            exact part_eq rfl (by omega) (by omega) (by omega)
          obtain ⟨next, read, after⟩ := matches_scanText
            ⟨keyword, a.escape, segment.line, segment.span.start⟩ (!rest.isEmpty) s before matched
            closed
          obtain ⟨last, reads, result⟩ := ih later
            (Nat.le_trans before (List.length_append ▸ Nat.le_add_right _ _)) after
          rw [if_neg (by decide), text, ok_bind]
          dsimp only
          rw [read, ok_bind]
          refine ⟨last, reads, ?_⟩
          rw [result, List.append_assoc]

theorem declarations_eq {text : Bytes} {instructions : List Instruction}
    (sound : ∀ i ∈ instructions, i.argument.Sound text) (out : List Variable) :
    declarations out instructions = .ok (out ++ Variable.all instructions) := by
  induction instructions generalizing out with
  | nil => exact congrArg Except.ok (List.append_nil out).symm
  | cons i rest ih =>
      obtain ⟨here, later⟩ := List.forall_mem_cons.mp sound
      rw [declarations, Variable.all, List.flatMap_cons, Variable.ofInstruction]
      cases i.keyword with
      | none => exact ih later out
      | some keyword =>
          dsimp only
          by_cases declares : keyword.declaresVariables = true
          · have start : Matches (!i.argument.segments.isEmpty) out Progress.start
                ⟨false, none, false, false, out⟩ :=
              ⟨rfl, rfl, rfl, fun _ => rfl, (List.append_nil out).symm⟩
            obtain ⟨next, read, result⟩ := exists_scanSegments here keyword (fun _ member => member)
              (Nat.le_refl out.length) start
            rw [if_pos declares, if_pos declares, read, ok_bind, ih later, result,
              List.append_assoc]
            rfl
          · rw [if_neg declares, if_neg declares]
            exact ih later out

end Guarded

end Dockerfile
