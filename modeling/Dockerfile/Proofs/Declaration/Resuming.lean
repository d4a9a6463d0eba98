import Dockerfile.Proofs.Declaration.Assignment
import Dockerfile.Proofs.Declaration.Gist
import Dockerfile.Proofs.Guarded.Variable

/-!
# Values over several lines

All that is known of a value where its line ends is the quote that is open there.  This is enough:
the value goes on in the next line as it would have gone on in its own, unless the line ends between
an escape byte and the byte that it takes along.  So a line of a declaration may be cut anywhere
inside a quoted value, and any number of times, and the instruction declares the same names.
-/

namespace Dockerfile

namespace Variable

section Value

variable {escape : UInt8}

/-- Where a value ends that goes on at an index of a text, and the quote that is open there. -/
def valueFrom (escape : UInt8) (text : Bytes) (start : Nat) (state : Option Quote) :
    Nat × Option Quote :=
  (start + (value escape state (text.drop start)).1, (value escape state (text.drop start)).2)

/-- The last step over a value takes an escape byte outside single quotes by itself, because nothing
follows it in the text. -/
def strandsEscape (escape : UInt8) : Option Quote → Bytes → Bool
  | _, [] => false
  | state, [b] => b == escape && state != some .single
  | state, b :: c :: rest =>
      if b == escape && state != some .single then strandsEscape escape state rest
      else
        match Quote.next state b with
        | none => false
        | some state => strandsEscape escape state (c :: rest)

/-- A value that reaches the end of a text goes on in what follows as if it had been read up to
there. -/
theorem value_append {state final : Option Quote} {text : Bytes}
    (reaches : value escape state text = (text.length, final))
    (whole : strandsEscape escape state text = false) (rest : Bytes) :
    value escape state (text ++ rest) =
      (text.length + (value escape final rest).1, (value escape final rest).2) := by
  fun_induction value escape state text with
  | case1 state =>
      obtain rfl := (Prod.mk.inj reaches).2
      rw [List.nil_append, List.length_nil, Nat.zero_add]
  | case2 state b ends => cases (Prod.mk.inj reaches).1
  | case3 state b next goes =>
      obtain rfl := (Prod.mk.inj reaches).2
      have plain : b ≠ escape ∨ state = some .single := by
        rw [strandsEscape] at whole
        by_contra neither
        simp_all
      rw [List.singleton_append, value_cons rest plain, goes, List.length_singleton, Nat.add_comm]
  | case4 state b c tail escaped size last taken ih =>
      obtain ⟨sized, rfl⟩ := Prod.mk.inj reaches
      have reached : (size, last) = (tail.length, last) := by
        rw [Nat.add_right_cancel sized]
      rw [strandsEscape, if_pos escaped] at whole
      rw [taken] at ih
      rw [List.cons_append, List.cons_append, value, if_pos escaped, ih reached whole]
      dsimp only
      rw [List.length_cons, List.length_cons, Nat.add_right_comm]
  | case5 state b c tail plain ends => cases (Prod.mk.inj reaches).1
  | case6 state b c tail plain next goes size last taken ih =>
      obtain ⟨sized, rfl⟩ := Prod.mk.inj reaches
      have reached : (size, last) = ((c :: tail).length, last) := by
        rw [Nat.add_right_cancel sized]
      rw [strandsEscape, if_neg plain, goes] at whole
      rw [taken] at ih
      rw [List.cons_append, List.cons_append, value, if_neg plain, goes]
      dsimp only
      rw [← List.cons_append, ih reached whole, List.length_cons (a := b), Nat.add_right_comm]

/-- A value that ends before the last byte of a text does so whatever follows the text. -/
theorem value_of_append {state : Option Quote} {text rest : Bytes}
    (ends : (value escape state (text ++ rest)).1 + 1 < text.length) :
    value escape state (text ++ rest) = value escape state text := by
  fun_induction value escape state text with
  | case1 state => cases ends
  | case2 state b _ => exact absurd ends (Nat.not_lt.mpr (Nat.le_add_left 1 _))
  | case3 state b _ _ => exact absurd ends (Nat.not_lt.mpr (Nat.le_add_left 1 _))
  | case4 state b c tail escaped size last taken ih =>
      rw [List.cons_append, List.cons_append, value, if_pos escaped] at ends ⊢
      dsimp only at ends ⊢
      rw [List.length_cons, List.length_cons] at ends
      rw [ih (by omega), taken]
  | case5 state b c tail plain none =>
      rw [List.cons_append, List.cons_append, value, if_neg plain, none]
  | case6 state b c tail plain next goes size last taken ih =>
      rw [List.cons_append, List.cons_append, value, if_neg plain, goes, ← List.cons_append]
        at ends ⊢
      dsimp only at ends ⊢
      rw [List.length_cons] at ends
      rw [ih (by omega), taken]

/-- A quote that is open after a value was open at the end of the text. -/
theorem length_value_of_open {state : Option Quote} {text : Bytes} {q : Quote}
    (unclosed : (value escape state text).2 = some q) :
    (value escape state text).1 = text.length := by
  fun_induction value escape state text with
  | case1 state => rfl
  | case2 state b ends => cases unclosed
  | case3 state b next goes => rfl
  | case4 state b c tail escaped size last taken ih =>
      rw [taken] at ih
      exact congrArg (· + 2) (ih unclosed)
  | case5 state b c tail plain ends => cases unclosed
  | case6 state b c tail plain next goes size last taken ih =>
      rw [taken] at ih
      exact congrArg (· + 1) (ih unclosed)

theorem value_of_valueFrom {text : Bytes} {start : Nat} {state final : Option Quote}
    (inside : start ≤ text.length)
    (reaches : valueFrom escape text start state = (text.length, final)) :
    value escape state (text.drop start) = ((text.drop start).length, final) := by
  obtain ⟨sized, ended⟩ := Prod.mk.inj reaches
  refine Prod.ext ?_ ended
  rw [List.length_drop]
  omega

/-- A value that goes on at an index and reaches the end of a text is resumed in what follows. -/
theorem valueFrom_append {text : Bytes} {start : Nat} {state final : Option Quote}
    (inside : start ≤ text.length)
    (reaches : valueFrom escape text start state = (text.length, final))
    (whole : strandsEscape escape state (text.drop start) = false) (rest : Bytes) :
    valueFrom escape (text ++ rest) start state =
      (text.length + (valueFrom escape rest 0 final).1, (valueFrom escape rest 0 final).2) := by
  rw [valueFrom, List.drop_append_of_le_length inside,
    value_append (value_of_valueFrom inside reaches) whole, valueFrom, List.length_drop,
    List.drop_zero, Nat.zero_add]
  dsimp only
  rw [← Nat.add_assoc, Nat.add_sub_cancel' inside]

end Value

/-! ## A name is held back only outside quotes -/

/-- No name is held back while a quote is open. -/
def Progress.IsQuiet (p : Progress) : Prop :=
  p.quote = none ∨ p.pending = none

section Quiet

variable {site : Site} {p : Progress}

/-- What follows a step that leaves a quote open or holds a name back is nothing, or blanks. -/
theorem step_isQuiet (site : Site) (outside : p.quote = none) (calm : p.pending = none)
    (index : Nat) (text : Bytes) :
    ((step site p index text).progress.pending = none ∧
        ((step site p index text).size < text.length →
          (step site p index text).progress.quote = none)) ∨
      ((step site p index text).progress.quote = none ∧
        Bytes.AllBlank (text.drop (step site p index text).size)) := by
  have whole : (text.takeWhile (!endsName ·)).length + (text.dropWhile (!endsName ·)).length =
      text.length := by
    rw [← List.length_append, List.takeWhile_append_dropWhile]
  unfold step
  dsimp only
  split
  · refine Or.inl ⟨calm, fun less => ?_⟩
    dsimp only at less ⊢
    cases unclosed : (value site.escape none ((text.dropWhile (!endsName ·)).drop 1)).2 with
    | none => rfl
    | some q =>
        have size := length_value_of_open unclosed
        rw [List.length_drop] at size
        omega
  · split
    · exact Or.inl ⟨calm, fun _ => outside⟩
    · split
      · rename_i blank
        refine Or.inr ⟨outside, ?_⟩
        dsimp only
        rw [Bytes.drop_length_takeWhile]
        exact Bytes.trim_eq_nil_iff.mp (List.isEmpty_iff.mp blank)
      · exact Or.inl ⟨calm, fun _ => outside⟩

theorem isQuiet_readNames (calm : p.pending = none) {skip : Nat} {text : Bytes}
    (outside : skip < text.length → p.quote = none) (index : Nat) :
    (readNames site p index skip text).2.IsQuiet := by
  induction text generalizing p index skip with
  | nil =>
      rw [readNames]
      exact Or.inr calm
  | cons b rest ih =>
      cases skip with
      | succ skip => exact ih calm (fun less => outside (Nat.succ_lt_succ less)) (index + 1)
      | zero =>
          have outside : p.quote = none := outside (Nat.succ_pos _)
          rw [readNames]
          split
          · exact ih calm (fun _ => outside) (index + 1)
          · have next := step_isQuiet site outside calm index (b :: rest)
            generalize step site p index (b :: rest) = taken at next
            rcases next with ⟨calm', outside'⟩ | ⟨outside', blank⟩
            · refine ih calm' (fun less => outside' ?_) (index + 1)
              rw [List.length_cons]
              omega
            · have blank' : Bytes.AllBlank (rest.drop (taken.size - 1)) := by
                cases size : taken.size with
                | zero =>
                    rw [size] at blank
                    exact fun c later => blank c (List.mem_cons_of_mem _ later)
                | succ n =>
                    rw [size] at blank
                    exact blank
              dsimp only
              rw [readNames_skip, readNames_of_allBlank _ _ _ blank']
              exact Or.inl outside'

theorem isQuiet_readText (calm : p.pending = none) (text : Bytes) :
    (readText site p text).2.IsQuiet := by
  unfold readText
  split
  · rename_i outside
    exact isQuiet_readNames calm (fun _ => outside) 0
  · rename_i q carried
    refine isQuiet_readNames (by exact calm) (fun less => ?_) 0
    dsimp only at less ⊢
    cases unclosed : (value site.escape (some q) text).2 with
    | none => rfl
    | some q' =>
        rw [length_value_of_open unclosed] at less
        exact absurd less (Nat.lt_irrefl _)

theorem isQuiet_readLine (quiet : p.IsQuiet) (text : Bytes) :
    (readLine site p text).2.IsQuiet := by
  rcases readLine_cases site p text with line | ⟨calm, line⟩ | ⟨v, held, line⟩ | ⟨v, held, line⟩
  · rw [line]
    exact quiet
  · rw [line]
    exact isQuiet_readText calm text
  · rw [line]
    exact isQuiet_readText (p := { p with pending := none }) rfl text
  · rw [line]
    exact Or.inr rfl

end Quiet

/-! ## How a line is read up to a value -/

section Reading

variable {site : Site} {p : Progress}

/-- A line is read up to an index between two names; what it has declared by then, and where the
reading stands. -/
inductive ReadsTo (site : Site) (p : Progress) (text : Bytes) :
    List Variable → Progress → Nat → Prop where
  | opening (outside : p.quote = none) : ReadsTo site p text [] p 0
  | resumed {q : Quote} (carried : p.quote = some q) :
      ReadsTo site p text [] { p with quote := (value site.escape (some q) text).2 }
        (value site.escape (some q) text).1
  | blank {found : List Variable} {p' : Progress} {n : Nat} {b : UInt8}
      (reads : ReadsTo site p text found p' n) (here : text[n]? = some b)
      (blank : Byte.isBlank b = true) : ReadsTo site p text found p' (n + 1)
  | step {found : List Variable} {p' : Progress} {n : Nat} {b : UInt8}
      (reads : ReadsTo site p text found p' n) (here : text[n]? = some b)
      (solid : Byte.isBlank b = false) :
      ReadsTo site p text (found ++ (step site p' n (text.drop n)).declared.toList)
        (step site p' n (text.drop n)).progress (n + (step site p' n (text.drop n)).size)

theorem length_takeWhile_le_step (site : Site) (p : Progress) (index : Nat) (text : Bytes) :
    (text.takeWhile (!endsName ·)).length ≤ (step site p index text).size := by
  have short := Bytes.length_takeWhile_le (!endsName ·) text
  unfold step
  dsimp only
  split
  · dsimp only
    omega
  · split
    · exact Nat.le_refl _
    · split
      · exact Nat.le_refl _
      · exact short

theorem size_step_pos (site : Site) (p : Progress) (index : Nat) {b : UInt8} (rest : Bytes)
    (solid : Byte.isBlank b = false) : 0 < (step site p index (b :: rest)).size := by
  cases ends : endsName b with
  | false =>
      have long := length_takeWhile_le_step site p index (b :: rest)
      rw [List.takeWhile_cons_of_pos (by rw [ends]; rfl), List.length_cons] at long
      omega
  | true =>
      have equals : b = Byte.equals := by
        rw [endsName, solid, Bool.false_or] at ends
        exact beq_iff_eq.mp ends
      obtain rfl := equals
      exact Nat.lt_of_lt_of_le Nat.zero_lt_one (Nat.le_add_right 1 _)

theorem readText_of_readsTo {text : Bytes} {found : List Variable} {p' : Progress} {n : Nat}
    (reads : ReadsTo site p text found p' n) :
    readText site p text = (found ++ (readNames site p' n 0 (text.drop n)).1,
      (readNames site p' n 0 (text.drop n)).2) := by
  induction reads with
  | opening outside =>
      rw [readText, outside]
      rfl
  | resumed carried =>
      rw [readText, carried]
      dsimp only
      rw [readNames_skip, Nat.zero_add]
      rfl
  | blank reads here blank ih =>
      obtain ⟨inside, rfl⟩ := List.getElem?_eq_some_iff.mp here
      rw [ih, List.drop_eq_getElem_cons inside, readNames, if_pos blank]
  | @step found p' n b reads here solid ih =>
      obtain ⟨inside, rfl⟩ := List.getElem?_eq_some_iff.mp here
      have positive : 0 < (step site p' n (text.drop n)).size := by
        rw [List.drop_eq_getElem_cons inside]
        exact size_step_pos site p' n _ solid
      rw [ih, readNames_step inside solid rfl positive, List.append_assoc]

/-- A name that ends before the end of a text's beginning is read there alike. -/
theorem nameAt_front {front back : Bytes} {n : Nat}
    (inside : n + (nameAt (front ++ back) n).length < front.length) :
    nameAt (front ++ back) n = nameAt front n := by
  rw [nameAt, List.drop_append_of_le_length (by omega), List.takeWhile_append] at inside ⊢
  split
  · rename_i all
    rw [if_pos all, List.length_append, List.length_drop] at inside
    omega
  · rfl

/-- A step that ends before a later byte which is no blank is made alike in the beginning of the
text that holds this byte, and neither holds a name back nor takes the rest. -/
theorem step_front {front back : Bytes} {k n : Nat} {b : UInt8} (found : front[k]? = some b)
    (solid : Byte.isBlank b = false)
    (ends : n + (step site p n ((front ++ back).drop n)).size ≤ k) :
    step site p n ((front ++ back).drop n) = step site p n (front.drop n) ∧
      (step site p n (front.drop n)).progress.pending = p.pending ∧
      (step site p n (front.drop n)).progress.closed = p.closed := by
  obtain ⟨inside, -⟩ := List.getElem?_eq_some_iff.mp found
  have short : (nameAt (front ++ back) n).length ≤ _ :=
    length_takeWhile_le_step site p n ((front ++ back).drop n)
  have name : nameAt (front ++ back) n = nameAt front n := nameAt_front (by omega)
  have stops : n + (nameAt (front ++ back) n).length = n + (nameAt front n).length := by rw [name]
  rw [name] at short
  generalize placed : n + (nameAt front n).length = stop at stops
  have head : ((front ++ back).drop stop).head? = (front.drop stop).head? := by
    rw [List.head?_drop, List.head?_drop, List.getElem?_append_left (by omega)]
  have whole : (front ++ back)[k]? = some b := by
    rw [List.getElem?_append_left inside, found]
  by_cases equals : ((front.drop stop).head? == some Byte.equals) = true
  · have assigned := Guarded.step_assigned site p stops (by rw [head]; exact equals)
    have assigned' := Guarded.step_assigned site p placed equals
    have cut : (front ++ back).drop (stop + 1) = front.drop (stop + 1) ++ back :=
      List.drop_append_of_le_length (by omega)
    rw [name, cut] at assigned
    rw [assigned] at ends
    dsimp only at ends
    -- the value stops before a blank, so it stops before the byte at `k`
    have before : stop + 1 + (value site.escape none (front.drop (stop + 1) ++ back)).1 ≠ k := by
      rintro rfl
      rw [← List.getElem?_drop, cut] at whole
      cases solid.symm.trans (isBlank_value whole)
    rw [assigned, assigned', value_of_append (by rw [List.length_drop]; omega)]
    exact ⟨rfl, rfl, rfl⟩
  · have equals' : ¬ (((front ++ back).drop stop).head? == some Byte.equals) = true := by
      rwa [head]
    by_cases seen : p.seen = true
    · rw [Guarded.step_seen site stops equals' seen, Guarded.step_seen site placed equals seen,
        name]
      exact ⟨rfl, rfl, rfl⟩
    · by_cases empty : Bytes.trim ((front ++ back).drop stop) = []
      · have blank := Bytes.trim_eq_nil_iff.mp empty b (by
          rw [← Nat.add_sub_cancel' (show stop ≤ k by omega), ← List.getElem?_drop] at whole
          exact List.mem_of_getElem? whole)
        cases solid.symm.trans blank
      · rw [Guarded.step_legacy site stops equals' seen empty] at ends
        dsimp only at ends
        rw [List.length_drop, List.length_append] at ends
        omega

/-- Up to a byte that is no blank a line is read as its beginning that holds this byte. -/
theorem ReadsTo.front {front back : Bytes} {k : Nat} {b : UInt8} (here : front[k]? = some b)
    (solid : Byte.isBlank b = false) {found : List Variable} {p' : Progress} {n : Nat}
    (reads : ReadsTo site p (front ++ back) found p' n) (before : n ≤ k) :
    ReadsTo site p front found p' n ∧ p'.pending = p.pending ∧ p'.closed = p.closed := by
  obtain ⟨inside, -⟩ := List.getElem?_eq_some_iff.mp here
  have whole : (front ++ back)[k]? = some b := by
    rw [List.getElem?_append_left inside, here]
  induction reads with
  | opening outside => exact ⟨.opening outside, rfl, rfl⟩
  | @resumed q carried =>
      have stops : (value site.escape (some q) (front ++ back)).1 ≠ k := by
        rintro rfl
        cases solid.symm.trans (isBlank_value whole)
      rw [value_of_append (by omega)]
      exact ⟨.resumed carried, rfl, rfl⟩
  | @blank found p' n c reads next blank ih =>
      obtain ⟨reads', kept⟩ := ih (by omega)
      rw [List.getElem?_append_left (by omega)] at next
      exact ⟨.blank reads' next blank, kept⟩
  | @step found p' n c reads next filled ih =>
      obtain ⟨reads', pending, closed⟩ := ih (by omega)
      rw [List.getElem?_append_left (by omega)] at next
      obtain ⟨same, pending', closed'⟩ := step_front here solid before
      rw [same]
      exact ⟨.step reads' next filled, pending'.trans pending, closed'.trans closed⟩

end Reading

/-! ## Cutting a line inside quotes -/

section Cut

variable {site : Site} {p : Progress}

/-- A value is read from an index of a line on: one that an earlier line has left open, with its
quote, or one after an equals sign. -/
inductive StartsValue (site : Site) (p : Progress) (text : Bytes) : Nat → Option Quote → Prop where
  | carried {q : Quote} (carried : p.quote = some q) : StartsValue site p text 0 (some q)
  | assigned {found : List Variable} {p' : Progress} {n : Nat}
      (reads : ReadsTo site p text found p' n)
      (equals : text[n + (nameAt text n).length]? = some Byte.equals) :
      StartsValue site p text (n + (nameAt text n).length + 1) none

/-- The cut between two parts of a line lies in a quoted value, and not behind an escape byte that
takes the next byte along. -/
structure CutsValue (site : Site) (p : Progress) (front back : Bytes) (start : Nat)
    (state : Option Quote) (q : Quote) : Prop where
  starts : StartsValue site p (front ++ back) start state
  inside : start ≤ front.length
  reaches : valueFrom site.escape front start state = (front.length, some q)
  whole : strandsEscape site.escape state (front.drop start) = false

theorem not_isBlank_of_equals {text : Bytes} {n : Nat}
    (equals : text[n + (nameAt text n).length]? = some Byte.equals) {b : UInt8}
    (here : text[n]? = some b) : Byte.isBlank b = false := by
  cases blank : Byte.isBlank b with
  | false => rfl
  | true =>
      obtain ⟨inside, same⟩ := List.getElem?_eq_some_iff.mp here
      have empty : nameAt text n = [] := by
        rw [nameAt, List.drop_eq_getElem_cons inside, same, List.takeWhile_cons_of_neg]
        simp [endsName, blank]
      rw [empty, List.length_nil, Nat.add_zero, here] at equals
      rw [Option.some.inj equals] at blank
      cases blank

theorem readNames_assigned {text : Bytes} {n size after : Nat} {quote : Option Quote}
    (equals : text[n + (nameAt text n).length]? = some Byte.equals)
    (taken : value site.escape none (text.drop (n + (nameAt text n).length + 1)) = (size, quote))
    (next : n + (nameAt text n).length + 1 + size = after) :
    ∃ declared : Option Variable,
      declared.map (·.name) = (if (nameAt text n).isEmpty then none else some (nameAt text n)) ∧
      readNames site p n 0 (text.drop n) = (declared.toList ++ (readNames site
          { p with seen := p.seen || !(nameAt text n).isEmpty, quote := quote } after 0
          (text.drop after)).1,
        (readNames site { p with seen := p.seen || !(nameAt text n).isEmpty, quote := quote }
          after 0 (text.drop after)).2) := by
  obtain ⟨room, -⟩ := List.getElem?_eq_some_iff.mp equals
  have inside : n < text.length := by omega
  have head : ((text.drop (n + (nameAt text n).length)).head? == some Byte.equals) = true := by
    rw [List.head?_drop, equals]
    rfl
  have step := Guarded.step_assigned site p rfl head
  have solid := not_isBlank_of_equals equals (List.getElem?_eq_getElem inside)
  rw [taken] at step
  have read := readNames_step inside solid step (by dsimp only; omega)
  dsimp only at read
  rw [← Nat.add_assoc, ← Nat.add_assoc, next] at read
  refine ⟨_, ?_, read⟩
  split <;> rfl

/-- What is read behind the first part of a line is read like the second part, if the value in which
they meet goes on there. -/
theorem gist_resumed (site : Site) (p : Progress) (q : Quote) (front back : Bytes) :
    gist (readNames site { p with quote := (value site.escape (some q) back).2 }
        (front.length + (value site.escape (some q) back).1) 0
        ((front ++ back).drop (front.length + (value site.escape (some q) back).1))) =
      gist (readText site { p with quote := some q } back) := by
  rw [List.drop_length_add_append, ← readNames_skip]
  exact gist_readNames rfl rfl _ _ _ _

/-- The two parts of a line are read like the whole line, one from where the other leaves off.  The
first holds no name back and does not end the declaration. -/
structure ReadsOn (site : Site) (p : Progress) (front back : Bytes) : Prop where
  pending : (readText site p front).2.pending = p.pending
  closed : (readText site p front).2.closed = p.closed
  same : gist (readText site p (front ++ back)) =
    gist ((readText site p front).1 ++ (readText site (readText site p front).2 back).1,
      (readText site (readText site p front).2 back).2)

/-- The first part of a line may end in a value that an earlier line has left open. -/
theorem readsOn_carried {front : Bytes} {q q' : Quote} (carried : p.quote = some q')
    (taken : value site.escape (some q') front = (front.length, some q))
    (whole : strandsEscape site.escape (some q') front = false) (back : Bytes) :
    ReadsOn site p front back := by
  have first : readText site p front = ([], { p with quote := some q }) := by
    rw [readText, carried]
    dsimp only
    rw [taken, readNames_skip, List.drop_length]
    rfl
  have resumed := gist_resumed site p q front back
  refine ⟨by rw [first], by rw [first], ?_⟩
  rw [first, readText, carried]
  dsimp only
  rw [value_append taken whole, readNames_skip, Nat.zero_add]
  exact resumed

/-- It may end in a value after an equals sign. -/
theorem readsOn_assigned {front back : Bytes} {found : List Variable} {p' : Progress} {n : Nat}
    {q : Quote} (reads : ReadsTo site p (front ++ back) found p' n)
    (equals : front[n + (nameAt front n).length]? = some Byte.equals)
    (name : nameAt (front ++ back) n = nameAt front n)
    (taken : value site.escape none (front.drop (n + (nameAt front n).length + 1)) =
      ((front.drop (n + (nameAt front n).length + 1)).length, some q))
    (whole : strandsEscape site.escape none
      (front.drop (n + (nameAt front n).length + 1)) = false) :
    ReadsOn site p front back := by
  obtain ⟨room, -⟩ := List.getElem?_eq_some_iff.mp equals
  obtain ⟨reads', pending, closed⟩ := reads.front equals (by decide) (Nat.le_add_right _ _)
  obtain ⟨declared, named, narrow⟩ := readNames_assigned (p := p') equals taken
    (show _ = front.length by
      rw [List.length_drop]
      omega)
  have equals' : (front ++ back)[n + (nameAt (front ++ back) n).length]? = some Byte.equals := by
    rw [name, List.getElem?_append_left room, equals]
  have taken' := value_append taken whole back
  rw [← List.drop_append_of_le_length (by omega), ← name] at taken'
  obtain ⟨declared', named', wide⟩ := readNames_assigned (p := p') equals' taken'
    (show _ = front.length + (value site.escape (some q) back).1 by
      rw [name, List.length_drop]
      omega)
  rw [name] at named' wide
  have first : readText site p front = (found ++ declared.toList, { p' with
      seen := p'.seen || !(nameAt front n).isEmpty
      quote := some q }) := by
    rw [readText_of_readsTo reads', narrow, List.drop_length, readNames, List.append_nil]
  have names : (found ++ declared'.toList).map (·.name) =
      (found ++ declared.toList).map (·.name) := by
    rw [List.map_append, List.map_append, ← Option.toList_map, ← Option.toList_map, named, named']
  refine ⟨by rw [first]; exact pending, by rw [first]; exact closed, ?_⟩
  rw [first, readText_of_readsTo reads, wide, ← List.append_assoc]
  exact gist_append names (gist_resumed site { p' with
    seen := p'.seen || !(nameAt front n).isEmpty } q front back)

theorem CutsValue.readsOn {front back : Bytes} {start : Nat} {state : Option Quote} {q : Quote}
    (cut : CutsValue site p front back start state q) : ReadsOn site p front back := by
  obtain ⟨starts, inside, reaches, whole⟩ := cut
  have taken := value_of_valueFrom inside reaches
  cases starts with
  | carried carried => exact readsOn_carried carried taken whole back
  | @assigned found p' n reads equals =>
      have name : nameAt (front ++ back) n = nameAt front n := nameAt_front (by omega)
      rw [List.getElem?_append_left (by omega), name] at equals
      rw [name] at taken whole
      exact readsOn_assigned reads equals name taken whole

theorem gist_readLine_cut (quiet : p.IsQuiet) {front back : Bytes} {start : Nat}
    {state : Option Quote} {q : Quote}
    (cut : CutsValue site { p with pending := none } front back start state q) :
    gist (readLine site p (front ++ back)) =
      gist ((readLine site p front).1 ++ (readLine site (readLine site p front).2 back).1,
        (readLine site (readLine site p front).2 back).2) := by
  obtain ⟨pending, closed, same⟩ := cut.readsOn
  have line (p : Progress) (calm : p.pending = none) (going : p.closed = false) (text : Bytes) :
      readLine site p text = readText site p text := by
    rw [readLine, going, calm, if_neg (by decide)]
  cases ended : p.closed with
  | true =>
      have nothing (text : Bytes) : readLine site p text = ([], p) := by
        rw [readLine, if_pos ended]
      rw [nothing, nothing, nothing]
      rfl
  | false =>
      have second := line _ pending (closed.trans ended) back
      cases held : p.pending with
      | none =>
          have free : { p with pending := none } = p := by rw [← held]
          rw [free] at same second
          rw [line p held ended, line p held ended, second, same]
      | some v =>
          -- the line has an equals sign in its first part, which releases the name
          have equals : Byte.equals ∈ front := by
            cases cut.starts with
            | carried carried =>
                rcases quiet with outside | calm
                · cases outside.symm.trans carried
                · cases calm.symm.trans held
            | assigned reads equals =>
                have inside := cut.inside
                rw [List.getElem?_append_left (by omega)] at equals
                exact List.mem_of_getElem? equals
          have released (text : Bytes) (has : Byte.equals ∈ text) : readLine site p text =
              (v :: (readText site { p with pending := none } text).1,
                (readText site { p with pending := none } text).2) := by
            rw [readLine, ended, held, if_neg (by decide)]
            exact if_pos (List.contains_iff_mem.mpr has)
          rw [released _ equals, released _ (List.mem_append_left back equals)]
          dsimp only
          rw [second]
          change gist ([v] ++ _, _) = gist ([v] ++ (_ ++ _), _)
          exact gist_append rfl same

end Cut

/-! ## Lines that are cut -/

/-- Read the texts of lines, one after the other, as if all of them stood at one place. -/
def readTexts (site : Site) : (p : Progress) → List Bytes → List Variable
  | p, [] => p.pending.toList
  | p, line :: rest =>
      (readLine site p line).1 ++ readTexts site (readLine site p line).2 rest

/-- The second list has the lines of the first, cut inside quoted values any number of times.  What
is left of a line that was cut is a line itself, which may be cut again. -/
inductive Cuts (site : Site) : Progress → List Bytes → List Bytes → Prop where
  | nil (p : Progress) : Cuts site p [] []
  | keep {p : Progress} {line : Bytes} {rest rest' : List Bytes}
      (later : Cuts site (readLine site p line).2 rest rest') :
      Cuts site p (line :: rest) (line :: rest')
  | cut {p : Progress} {front back : Bytes} {rest rest' : List Bytes} {start : Nat}
      {state : Option Quote} {q : Quote}
      (inside : CutsValue site { p with pending := none } front back start state q)
      (later : Cuts site (readLine site p front).2 (back :: rest) rest') :
      Cuts site p ((front ++ back) :: rest) (front :: rest')

section Names

variable {site : Site} {p p' : Progress}

theorem names_pending (alike : p.gist = p'.gist) :
    p.pending.toList.map (·.name) = p'.pending.toList.map (·.name) := by
  rw [← Option.toList_map, ← Option.toList_map, (Progress.eq_of_gist alike).2.2.1]

theorem names_readTexts (alike : p.gist = p'.gist) (lines : List Bytes) :
    (readTexts site p lines).map (·.name) = (readTexts site p' lines).map (·.name) := by
  induction lines generalizing p p' with
  | nil => exact names_pending alike
  | cons line rest ih =>
      obtain ⟨names, progress⟩ := Prod.mk.inj (gist_readLine (Eq.refl site.escape) alike line)
      rw [readTexts, readTexts, List.map_append, List.map_append, names, ih progress]

/-- Which names stretches declare depends on their bytes alone. -/
theorem names_readStretches {keyword : Keyword} {escape : UInt8} (same : escape = site.escape)
    (alike : p.gist = p'.gist) (text : Bytes) (stretches : List Stretch) :
    (readStretches keyword escape text p stretches).map (·.name) =
      (readTexts site p' (stretches.map (Argument.bytesOf text))).map (·.name) := by
  induction stretches generalizing p p' with
  | nil => exact names_pending alike
  | cons s rest ih =>
      have same : Site.escape ⟨keyword, escape, s.line, s.span.start⟩ = site.escape := same
      have line := gist_readLine same alike (Argument.bytesOf text s)
      obtain ⟨names, progress⟩ := Prod.mk.inj line
      rw [readStretches, List.map_cons, readTexts, List.map_append, List.map_append, names,
        ih progress]

/-- Lines declare the same names however they are cut inside quoted values. -/
theorem names_of_cuts {lines lines' : List Bytes} (cuts : Cuts site p lines lines')
    (quiet : p.IsQuiet) (alike : p.gist = p'.gist) :
    (readTexts site p lines).map (·.name) = (readTexts site p' lines').map (·.name) := by
  induction cuts generalizing p' with
  | nil p => exact names_pending alike
  | @keep p line rest rest' later ih =>
      obtain ⟨names, progress⟩ := Prod.mk.inj (gist_readLine (Eq.refl site.escape) alike line)
      rw [readTexts, readTexts, List.map_append, List.map_append, names,
        ih (isQuiet_readLine quiet line) progress]
  | @cut p front back rest rest' start state q inside later ih =>
      obtain ⟨names, progress⟩ := Prod.mk.inj (gist_readLine_cut quiet inside)
      obtain ⟨first, progress'⟩ := Prod.mk.inj (gist_readLine (Eq.refl site.escape) alike front)
      rw [readTexts, readTexts, List.map_append, List.map_append, ← first,
        ← ih (isQuiet_readLine quiet front) progress', readTexts, List.map_append, names,
        List.map_append, List.append_assoc, names_readTexts progress]

end Names

theorem ofInstruction_of_assemble {i : Instruction} {text : Bytes} {escape : UInt8}
    {stretches : List Stretch} {stop : Int}
    (built : Argument.assemble text escape stretches stop = .ok i.argument) :
    (∀ s ∈ stretches, s.Within text) ∧ ofInstruction i =
      match i.keyword with
      | some keyword =>
          if keyword.declaresVariables then readStretches keyword escape text .start stretches
          else []
      | none => [] := by
  obtain ⟨within, same⟩ := Argument.assemble_eq_ok_iff.mp built
  refine ⟨within, ?_⟩
  rw [ofInstruction, same]
  cases i.keyword with
  | none => rfl
  | some keyword =>
      have bytes : ∀ s ∈ (Argument.ofStretches text escape stretches stop).segments,
          textOf (Argument.ofStretches text escape stretches stop) s =
            Argument.bytesOf text s.toStretch :=
        fun s member => (Argument.slice_of_mem_place within [] member).1
      dsimp only
      rw [readSegments_eq keyword bytes, Argument.ofStretches, Argument.map_toStretch_place]

/-- A quoted value that is open at the end of a text is resumed in what follows, from the quote
alone.  So an instruction declares the same names, spelled alike by the texts at their spans,
however its lines are cut inside quoted values. -/
theorem quoted_values_resume :
    (∀ (escape : UInt8) (front back : Bytes) (start : Nat) (state : Option Quote) (q : Quote),
      start ≤ front.length → valueFrom escape front start state = (front.length, some q) →
      strandsEscape escape state (front.drop start) = false →
        valueFrom escape (front ++ back) start state =
          (front.length + (valueFrom escape back 0 (some q)).1,
            (valueFrom escape back 0 (some q)).2)) ∧
    ∀ (i i' : Instruction) (text text' : Bytes) (site : Site) (stretches stretches' : List Stretch)
      (stop stop' : Int), i.keyword = i'.keyword →
      Argument.assemble text site.escape stretches stop = .ok i.argument →
      Argument.assemble text' site.escape stretches' stop' = .ok i'.argument →
      Cuts site .start (stretches.map (Argument.bytesOf text))
        (stretches'.map (Argument.bytesOf text')) →
        (ofInstruction i').map (fun v => (v.name, spelling text' v)) =
          (ofInstruction i).map fun v => (v.name, spelling text v) := by
  refine ⟨fun escape front back start state q inside reaches whole =>
    valueFrom_append inside reaches whole back, ?_⟩
  intro i i' text text' site stretches stretches' stop stop' word built built' cuts
  obtain ⟨within, same⟩ := ofInstruction_of_assemble built
  obtain ⟨within', same'⟩ := ofInstruction_of_assemble built'
  rw [same, same', ← word]
  cases i.keyword with
  | none => rfl
  | some keyword =>
      dsimp only
      split
      · have twice {text : Bytes} {stretches : List Stretch}
            (within : ∀ s ∈ stretches, s.Within text) :
            (readStretches keyword site.escape text .start stretches).map
                (fun v => (v.name, spelling text v)) =
              ((readStretches keyword site.escape text .start stretches).map (·.name)).map
                fun name => (name, name) := by
          rw [List.map_map]
          refine List.map_congr_left fun v member => ?_
          exact congrArg (Prod.mk v.name) (spelling_readStretches within
            (fun w held => absurd held (Option.not_mem_none w)) v member)
        rw [twice within, twice within', names_readStretches rfl rfl, names_readStretches rfl rfl,
          names_of_cuts cuts (Or.inl rfl) rfl]
      · rfl

/-- A line break inside the quotes of a value leaves the names after the value as they are. -/
theorem quoted_values_resume_broken :
    ∃ i i', (Document.ofText [] (utf8 "ENV A=\"x y\" B=1")).instructions = [i] ∧
      (Document.ofText [] (utf8 "ENV A=\"x \\\ny\" B=1")).instructions = [i'] ∧
      (ofInstruction i').map (fun v => (v.name, spelling (utf8 "ENV A=\"x \\\ny\" B=1") v)) =
        [(utf8 "A", utf8 "A"), (utf8 "B", utf8 "B")] := by
  let site : Site := ⟨.env, Byte.backslash, 0, 0⟩
  let i : Instruction := ⟨utf8 "ENV", some .env, ⟨0, 3⟩,
    .ofStretches (utf8 "ENV A=\"x y\" B=1") Byte.backslash [⟨0, 4, 15⟩] 15, .plain, ⟨0, 15⟩⟩
  let i' : Instruction := ⟨utf8 "ENV", some .env, ⟨0, 3⟩,
    .ofStretches (utf8 "ENV A=\"x \\\ny\" B=1") Byte.backslash [⟨0, 4, 9⟩, ⟨1, 11, 17⟩] 17,
    .plain, ⟨0, 17⟩⟩
  have inside : CutsValue site { Progress.start with pending := none } (utf8 "A=\"x ")
      (utf8 "y\" B=1") (0 + (nameAt (utf8 "A=\"x " ++ utf8 "y\" B=1") 0).length + 1) none
      .double :=
    ⟨.assigned (.opening rfl) (by decide), by decide, by decide, by decide⟩
  have cuts : Cuts site .start [utf8 "A=\"x " ++ utf8 "y\" B=1"]
      [utf8 "A=\"x ", utf8 "y\" B=1"] := .cut inside (.keep (.nil _))
  refine ⟨i, i', by decide +kernel, by decide +kernel, ?_⟩
  rw [quoted_values_resume.2 i i' (utf8 "ENV A=\"x y\" B=1") (utf8 "ENV A=\"x \\\ny\" B=1") site
    [⟨0, 4, 15⟩] [⟨0, 4, 9⟩, ⟨1, 11, 17⟩] 15 17 rfl (by decide +kernel) (by decide +kernel) cuts]
  decide +kernel

end Variable

end Dockerfile
