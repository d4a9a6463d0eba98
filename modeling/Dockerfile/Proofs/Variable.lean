import Dockerfile.Proofs.Argument
import Dockerfile.Proofs.Word
import Dockerfile.Variable

/-!
# Where declared names stand

A declared name stands in one segment of its instruction, at the segment's start or after a blank,
and holds neither blank nor equals sign.  Its value, if it has one, stands after it in the same
segment or in a later one.  The declarations of an instruction follow one another in the text.
-/

namespace Dockerfile

namespace Variable

theorem isBlank_value {escape : UInt8} {state : Option Quote} {text : Bytes} {b : UInt8}
    (next : text[(value escape state text).1]? = some b) : Byte.isBlank b = true := by
  fun_induction value escape state text with
  | case1 state => cases next
  | case2 state a ends =>
      rw [← Option.some.inj next]
      exact (Quote.next_eq_none_iff.mp ends).2
  | case3 state a after goes => cases next
  | case4 state a c rest escaped size final taken ih =>
      rw [taken] at ih
      exact ih next
  | case5 state a c rest plain ends =>
      rw [← Option.some.inj next]
      exact (Quote.next_eq_none_iff.mp ends).2
  | case6 state a c rest plain after goes size final taken ih =>
      rw [taken] at ih
      exact ih next

/-- The variable's name is the run of bytes at an index of a line's text, cut off by a blank, an
equals sign or an end of the text. -/
structure NamedAt (site : Site) (text : Bytes) (index : Nat) (v : Variable) : Prop where
  keyword : v.keyword = site.keyword
  line : v.line = site.line
  span : v.nameSpan = site.span index (index + v.name.length)
  filled : v.name ≠ []
  bound : index + v.name.length ≤ text.length
  bytes : v.name = text.slice index (index + v.name.length)
  plain : ∀ b ∈ v.name, endsName b = false
  before : ∀ n b, index = n + 1 → text[n]? = some b → Byte.isBlank b = true
  after : ∀ b, text[index + v.name.length]? = some b → endsName b = true

/-- The variable's value, if it has one, stands in a line's text and after the name. -/
def ValuedAt (site : Site) (text : Bytes) (v : Variable) : Prop :=
  ∀ span, v.valueSpan = some span → v.nameSpan.stop < span.start ∧
    ∃ m n, span = site.span m n ∧ m ≤ n ∧ n ≤ text.length

def EndsBy (v : Variable) (offset : Int) : Prop :=
  v.nameSpan.stop ≤ offset ∧ ∀ span, v.valueSpan = some span → span.stop ≤ offset

/-- One declaration ends before the name of the other starts. -/
def Precedes (v w : Variable) : Prop :=
  v.EndsBy w.nameSpan.start

theorem EndsBy.le {v : Variable} {first second : Int} (ends : v.EndsBy first)
    (le : first ≤ second) : v.EndsBy second :=
  ⟨Int.le_trans ends.1 le, fun span found => Int.le_trans (ends.2 span found) le⟩

theorem endsBy_of_valueSpan_eq_none {v : Variable} {offset : Int} (bare : v.valueSpan = none)
    (le : v.nameSpan.stop ≤ offset) : v.EndsBy offset := by
  refine ⟨le, ?_⟩
  intro span found
  cases bare.symm.trans found

theorem NamedAt.endsBy {site : Site} {text : Bytes} {index : Nat} {v : Variable}
    (named : NamedAt site text index v) (valued : ValuedAt site text v) :
    v.EndsBy (site.start + text.length) := by
  have bound := named.bound
  constructor
  · rw [named.span, Site.span]
    dsimp only
    omega
  · intro span found
    obtain ⟨-, m, n, rfl, -, inside⟩ := valued span found
    rw [Site.span]
    dsimp only
    omega

section Step

variable {site : Site} {text : Bytes} {index : Nat}

def nameAt (text : Bytes) (index : Nat) : Bytes :=
  (text.drop index).takeWhile (!endsName ·)

theorem length_nameAt_le (text : Bytes) (index : Nat) :
    (nameAt text index).length ≤ text.length - index := by
  have short := Bytes.length_takeWhile_le (!endsName ·) (text.drop index)
  rwa [List.length_drop] at short

theorem drop_nameAt (text : Bytes) (index : Nat) :
    (text.drop index).dropWhile (!endsName ·) = text.drop (index + (nameAt text index).length) := by
  rw [← Bytes.drop_length_takeWhile, List.drop_drop]
  rfl

theorem endsName_nameAt {b : UInt8}
    (next : text[index + (nameAt text index).length]? = some b) : endsName b = true := by
  have stops := List.head?_dropWhile_not (!endsName ·) (text.drop index)
  rw [drop_nameAt, List.head?_drop, next] at stops
  simpa using stops

/-- A name that is taken after a blank or at the start of the text stands there. -/
theorem namedAt_declare {valueSpan : Option Span} (filled : nameAt text index ≠ [])
    (before : ∀ n b, index = n + 1 → text[n]? = some b → Byte.isBlank b = true) :
    NamedAt site text index (site.declare index (nameAt text index) valueSpan) where
  keyword := rfl
  line := rfl
  span := rfl
  filled := filled
  bound := by
    have short := length_nameAt_le text index
    have positive := List.length_pos_iff.mpr filled
    change index + (nameAt text index).length ≤ text.length
    omega
  bytes := by
    change nameAt text index = text.slice index (index + (nameAt text index).length)
    rw [Bytes.slice, Nat.add_sub_cancel_left]
    have front := List.takeWhile_prefix (!endsName ·) (l := text.drop index)
    exact List.prefix_iff_eq_take.mp front
  plain := by
    intro b member
    have kept := List.all_eq_true.mp List.all_takeWhile b member
    simpa using kept
  before := before
  after := fun _ next => endsName_nameAt next

/-- A run that neither a blank nor an equals sign cuts off at once is a name. -/
theorem nameAt_ne_nil (inside : index < text.length)
    (solid : ∀ b, text[index]? = some b → Byte.isBlank b = false)
    (plain : text[index + (nameAt text index).length]? ≠ some Byte.equals) :
    nameAt text index ≠ [] := by
  intro empty
  rw [empty, List.length_nil, Nat.add_zero] at plain
  have found := List.getElem?_eq_getElem inside
  have ends : endsName text[index] = true := by
    apply endsName_nameAt
    rw [empty]
    exact found
  rw [endsName, solid _ found, Bool.false_or, beq_iff_eq] at ends
  rw [found, ends] at plain
  exact plain rfl

theorem isBlank_nameAt (plain : text[index + (nameAt text index).length]? ≠ some Byte.equals)
    {b : UInt8} (next : text[index + (nameAt text index).length]? = some b) :
    Byte.isBlank b = true := by
  rcases Bool.or_eq_true_iff.mp (endsName_nameAt next) with blank | equals
  · exact blank
  · rw [next, beq_iff_eq.mp equals] at plain
    exact absurd rfl plain

/-- Where a step leaves off: it takes bytes, all of them in the text, and stops before a blank or
at the end.  It declares a name that stands at its index, or nothing; or it holds back a name after
which only blanks remain. -/
structure Taken (site : Site) (p : Progress) (text : Bytes) (index : Nat) (taken : Step) :
    Prop where
  positive : 0 < taken.size
  bound : index + taken.size ≤ text.length
  stops : ∀ b, text[index + taken.size]? = some b → Byte.isBlank b = true
  outcome : (taken.progress.pending = p.pending ∧ ∀ v, taken.declared = some v →
      NamedAt site text index v ∧ ValuedAt site text v ∧
        v.EndsBy (site.start + (index + taken.size : Nat))) ∨
    (taken.declared = none ∧ Bytes.AllBlank (text.drop (index + taken.size)) ∧
      ∃ v, taken.progress.pending = some v ∧ v.valueSpan = none ∧ NamedAt site text index v)

theorem taken_assignment {p : Progress} {quote : Option Quote} {size : Nat} {seen : Bool}
    (before : ∀ n b, index = n + 1 → text[n]? = some b → Byte.isBlank b = true)
    (equals : text[index + (nameAt text index).length]? = some Byte.equals)
    (read : value site.escape none (text.drop (index + (nameAt text index).length + 1)) =
      (size, quote)) :
    Taken site p text index
      ⟨if (nameAt text index).isEmpty then none
        else some (site.declare index (nameAt text index)
          (some (site.span (index + (nameAt text index).length + 1)
            (index + (nameAt text index).length + 1 + size)))),
        (nameAt text index).length + 1 + size, { p with seen := seen, quote := quote }⟩ := by
  obtain ⟨room, -⟩ := List.getElem?_eq_some_iff.mp equals
  have fits := value_le site.escape none (text.drop (index + (nameAt text index).length + 1))
  rw [read, List.length_drop] at fits
  dsimp only at fits
  refine ⟨by dsimp only; omega, by dsimp only; omega, ?_, Or.inl ⟨rfl, ?_⟩⟩
  · intro b next
    have place : index + ((nameAt text index).length + 1 + size) =
        index + (nameAt text index).length + 1 + size := by omega
    dsimp only at next
    rw [place, ← List.getElem?_drop] at next
    have fits : (text.drop (index + (nameAt text index).length + 1))[(value site.escape none
        (text.drop (index + (nameAt text index).length + 1))).1]? = some b := by
      rw [read]
      exact next
    exact isBlank_value fits
  · intro v declared
    dsimp only at declared
    split at declared
    · cases declared
    · rename_i filled
      obtain rfl := Option.some.inj declared
      have named : NamedAt site text index (site.declare index (nameAt text index)
          (some (site.span (index + (nameAt text index).length + 1)
            (index + (nameAt text index).length + 1 + size)))) :=
        namedAt_declare (fun empty => filled (List.isEmpty_iff.mpr empty)) before
      refine ⟨named, ?_, ?_, ?_⟩
      · rintro span found
        obtain rfl := Option.some.inj found
        refine ⟨?_, _, _, rfl, by omega, by omega⟩
        dsimp only [Site.declare, Site.span]
        omega
      · dsimp only [Site.declare, Site.span]
        omega
      · rintro span found
        obtain rfl := Option.some.inj found
        dsimp only [Site.span]
        omega

/-- A value without an equals sign takes the rest of the line. -/
theorem taken_legacy {p : Progress} {seen closed : Bool}
    (before : ∀ n b, index = n + 1 → text[n]? = some b → Byte.isBlank b = true)
    (filled : nameAt text index ≠ [])
    (stops : ∀ b, text[index + (nameAt text index).length]? = some b → Byte.isBlank b = true)
    (legacy : ¬ Bytes.AllBlank (text.drop (index + (nameAt text index).length))) :
    Taken site p text index
      ⟨some (site.declare index (nameAt text index) (some (site.span
          (index + (nameAt text index).length +
            Bytes.indent (text.drop (index + (nameAt text index).length)))
          (index + (nameAt text index).length +
            Bytes.indent (text.drop (index + (nameAt text index).length)) +
            (Bytes.trim (text.drop (index + (nameAt text index).length))).length)))),
        (text.drop index).length, { p with seen := seen, closed := closed }⟩ := by
  have positive := List.length_pos_iff.mpr filled
  have short := length_nameAt_le text index
  have fits := Bytes.indent_add_length_trim_le (text.drop (index + (nameAt text index).length))
  -- the byte that ends the name is a blank, so name and value do not touch
  have apart : 0 < Bytes.indent (text.drop (index + (nameAt text index).length)) := by
    cases rest : text.drop (index + (nameAt text index).length) with
    | nil =>
        rw [rest] at legacy
        exact absurd nofun legacy
    | cons b tail =>
        have blank := stops b (by rw [← List.head?_drop, rest]; rfl)
        rw [Bytes.indent, List.takeWhile_cons_of_pos blank]
        exact Nat.succ_pos _
  rw [List.length_drop] at fits ⊢
  refine ⟨by dsimp only; omega, by dsimp only; omega, ?_, Or.inl ⟨rfl, ?_⟩⟩
  · intro b next
    dsimp only at next
    rw [List.getElem?_eq_none (by omega)] at next
    cases next
  · rintro v declared
    obtain rfl := Option.some.inj declared
    refine ⟨namedAt_declare filled before, ?_, ?_, ?_⟩
    · rintro span found
      obtain rfl := Option.some.inj found
      refine ⟨?_, _, _, rfl, by omega, by omega⟩
      dsimp only [Site.declare, Site.span]
      omega
    · dsimp only [Site.declare, Site.span]
      omega
    · rintro span found
      obtain rfl := Option.some.inj found
      dsimp only [Site.span]
      omega

/-- What a step does at a byte that is no blank. -/
theorem taken_step (site : Site) (p : Progress) (inside : index < text.length)
    (solid : ∀ b, text[index]? = some b → Byte.isBlank b = false)
    (before : ∀ n b, index = n + 1 → text[n]? = some b → Byte.isBlank b = true) :
    Taken site p text index (step site p index (text.drop index)) := by
  unfold step
  dsimp only
  rw [drop_nameAt, ← nameAt, List.head?_drop]
  split
  · rename_i equals
    rw [List.drop_drop]
    exact taken_assignment before (beq_iff_eq.mp equals) rfl
  · rename_i other
    have plain : text[index + (nameAt text index).length]? ≠ some Byte.equals :=
      fun same => other (beq_iff_eq.mpr same)
    have filled := nameAt_ne_nil inside solid plain
    have positive := List.length_pos_iff.mpr filled
    have short := length_nameAt_le text index
    have stops : ∀ b, text[index + (nameAt text index).length]? = some b →
        Byte.isBlank b = true := fun b next => isBlank_nameAt plain next
    split
    · refine ⟨positive, by dsimp only; omega, stops, Or.inl ⟨rfl, ?_⟩⟩
      rintro v declared
      obtain rfl := Option.some.inj declared
      refine ⟨namedAt_declare filled before, nofun, ?_⟩
      exact endsBy_of_valueSpan_eq_none rfl (Int.le_refl _)
    · split
      · rename_i empty
        refine ⟨positive, by dsimp only; omega, stops, Or.inr ⟨rfl, ?_, _, rfl, rfl, ?_⟩⟩
        · exact Bytes.trim_eq_nil_iff.mp (List.isEmpty_iff.mp empty)
        · exact namedAt_declare filled before
      · rename_i legacy
        exact taken_legacy before filled stops
          (fun blank => legacy (List.isEmpty_iff.mpr (Bytes.trim_eq_nil_iff.mpr blank)))

end Step

section Line

variable {site : Site} {text : Bytes}

theorem readNames_skip (site : Site) (p : Progress) (index skip : Nat) (text : Bytes) :
    readNames site p index skip text = readNames site p (index + skip) 0 (text.drop skip) := by
  induction text generalizing index skip with
  | nil =>
      rw [List.drop_nil]
      cases skip <;> rfl
  | cons b rest ih =>
      cases skip with
      | zero => rfl
      | succ skip =>
          rw [readNames, ih, List.drop_succ_cons, Nat.add_right_comm]
          rfl

theorem readNames_of_allBlank (site : Site) (p : Progress) (index : Nat) {text : Bytes}
    (blank : Bytes.AllBlank text) : readNames site p index 0 text = ([], p) := by
  induction text generalizing index with
  | nil => rfl
  | cons b rest ih =>
      rw [readNames, if_pos (blank b List.mem_cons_self)]
      exact ih _ (fun c later => blank c (List.mem_cons_of_mem _ later))

theorem readNames_step {n : Nat} {p : Progress} {taken : Step} (inside : n < text.length)
    (solid : Byte.isBlank text[n] = false) (same : step site p n (text.drop n) = taken)
    (positive : 0 < taken.size) :
    readNames site p n 0 (text.drop n) =
      (taken.declared.toList ++ (readNames site taken.progress (n + taken.size) 0
          (text.drop (n + taken.size))).1,
        (readNames site taken.progress (n + taken.size) 0 (text.drop (n + taken.size))).2) := by
  have cut := List.drop_eq_getElem_cons inside
  have next : n + taken.size = n + 1 + (taken.size - 1) := by omega
  rw [cut] at same ⊢
  rw [readNames, if_neg (by rw [solid]; decide), same]
  dsimp only
  rw [readNames_skip, List.drop_drop, ← next]

/-- What the reading of a line from an index on leads to: its names stand on the line, one that is
held back included, and follow one another. -/
structure Gathered (site : Site) (text : Bytes) (n : Nat) (found : List Variable × Progress) :
    Prop where
  stand : ∀ v ∈ found.1 ++ found.2.pending.toList, ∃ index, n ≤ index ∧
    NamedAt site text index v ∧ ValuedAt site text v
  bare : ∀ v, found.2.pending = some v → v.valueSpan = none
  ordered : (found.1 ++ found.2.pending.toList).Pairwise Precedes

theorem gathered_nothing {n : Nat} {p : Progress} (calm : p.pending = none) :
    Gathered site text n ([], p) := by
  constructor
  · rw [calm]
    exact fun v member => absurd member List.not_mem_nil
  · intro v found
    cases calm.symm.trans found
  · rw [calm]
    exact List.Pairwise.nil

theorem Gathered.down {m n : Nat} {found : List Variable × Progress} (le : m ≤ n)
    (gathered : Gathered site text n found) : Gathered site text m found := by
  refine ⟨?_, gathered.bare, gathered.ordered⟩
  intro v member
  obtain ⟨index, low, stands⟩ := gathered.stand v member
  exact ⟨index, Nat.le_trans le low, stands⟩

theorem Gathered.cons {n : Nat} {p : Progress} {taken : Step} {found : List Variable × Progress}
    (step : Taken site p text n taken)
    (declares : ∀ v, taken.declared = some v → NamedAt site text n v ∧ ValuedAt site text v ∧
      v.EndsBy (site.start + (n + taken.size : Nat)))
    (later : Gathered site text (n + taken.size) found) :
    Gathered site text n (taken.declared.toList ++ found.1, found.2) := by
  have positive := step.positive
  refine ⟨?_, later.bare, ?_⟩
  · intro v member
    rw [List.append_assoc] at member
    rcases List.mem_append.mp member with here | there
    · obtain ⟨named, valued, -⟩ := declares v (Option.mem_toList.mp here)
      exact ⟨n, Nat.le_refl n, named, valued⟩
    · obtain ⟨index, low, named, valued⟩ := later.stand v there
      exact ⟨index, by omega, named, valued⟩
  · rw [List.append_assoc]
    cases declared : taken.declared with
    | none => exact later.ordered
    | some v =>
        refine List.Pairwise.cons ?_ later.ordered
        intro w member
        obtain ⟨index, low, named, -⟩ := later.stand w member
        refine (declares v declared).2.2.le ?_
        rw [named.span, Site.span]
        dsimp only
        omega

theorem gathered_readNames (p : Progress) (n : Nat) (calm : p.pending = none)
    (between : Word.Between text n) :
    Gathered site text n (readNames site p n 0 (text.drop n)) := by
  induction left : text.length - n using Nat.strongRecOn generalizing p n with
  | ind left ih =>
      rcases Nat.lt_or_ge n text.length with inside | past
      · have cut := List.drop_eq_getElem_cons inside
        have here := List.getElem?_eq_getElem inside
        cases blank : Byte.isBlank text[n] with
        | true =>
            rw [cut, readNames, if_pos blank]
            have next : Word.Between text (n + 1) := by
              refine Or.inl ?_
              rintro m b same found
              cases Nat.succ.inj same
              rwa [← Option.some.inj (here.symm.trans found)]
            exact (ih (text.length - (n + 1)) (by omega) p (n + 1) calm next rfl).down
              (Nat.le_succ n)
        | false =>
            have solid : ∀ b, text[n]? = some b → Byte.isBlank b = false :=
              fun b found => by rwa [← Option.some.inj (here.symm.trans found)]
            have before : ∀ m b, n = m + 1 → text[m]? = some b → Byte.isBlank b = true := by
              rcases between with started | ends
              · exact started
              · cases blank.symm.trans (ends _ here)
            have step := taken_step site p inside solid before
            generalize same : Variable.step site p n (text.drop n) = taken at step
            have positive := step.positive
            rw [readNames_step inside blank same positive]
            rcases step.outcome with ⟨kept, declares⟩ | ⟨nothing, blanks, v, held, bare, named⟩
            · refine Gathered.cons step declares ?_
              exact ih _ (by omega) _ _ (kept.trans calm) (Or.inr step.stops) rfl
            · rw [readNames_of_allBlank _ _ _ blanks, nothing]
              refine ⟨?_, ?_, ?_⟩
              · intro w member
                rw [held] at member
                obtain rfl := List.mem_singleton.mp member
                refine ⟨n, Nat.le_refl n, named, ?_⟩
                intro span found
                cases bare.symm.trans found
              · intro w found
                rw [← Option.some.inj (held.symm.trans found)]
                exact bare
              · rw [held]
                exact List.pairwise_singleton _ _
      · rw [List.drop_eq_nil_of_le past]
        exact gathered_nothing calm

/-- The names on a line stand there in order, also behind the rest of a quoted value. -/
theorem gathered_readText {p : Progress} (calm : p.pending = none) :
    Gathered site text 0 (readText site p text) := by
  unfold readText
  split
  · exact gathered_readNames p 0 calm (Or.inl nofun)
  · rename_i q unclosed
    have between : Word.Between text (value site.escape (some q) text).1 :=
      Or.inr fun b next => isBlank_value next
    rcases taken : value site.escape (some q) text with ⟨size, quote⟩
    rw [taken] at between
    dsimp only
    rw [readNames_skip, Nat.zero_add]
    have gathered : Gathered site text size _ :=
      gathered_readNames { p with quote := quote } size calm between
    exact gathered.down (Nat.zero_le size)

/-- A line is passed over, or read for its names, after a name that was held back was released; or
its text becomes the value of that name. -/
theorem readLine_cases (site : Site) (p : Progress) (text : Bytes) :
    readLine site p text = ([], p) ∨
    (p.pending = none ∧ readLine site p text = readText site p text) ∨
    (∃ v, p.pending = some v ∧ readLine site p text =
      (v :: (readText site { p with pending := none } text).1,
        (readText site { p with pending := none } text).2)) ∨
    ∃ v, p.pending = some v ∧ readLine site p text =
      ([{ v with valueSpan := some (site.span text.indent (text.indent + text.trim.length)) }],
        { p with pending := none, closed := true }) := by
  unfold readLine
  split
  · exact Or.inl rfl
  · split
    · exact Or.inr (Or.inl ⟨‹_›, rfl⟩)
    · rename_i v held
      split
      · exact Or.inr (Or.inr (Or.inl ⟨v, held, rfl⟩))
      · split
        · exact Or.inl rfl
        · exact Or.inr (Or.inr (Or.inr ⟨v, held, rfl⟩))

end Line

def siteOf (keyword : Keyword) (a : Argument) (s : Segment) : Site :=
  ⟨keyword, a.escape, s.line, s.span.start⟩

def textOf (a : Argument) (s : Segment) : Bytes :=
  a.text.slice s.logical s.logicalStop.toNat

/-- The name stands in one of the segments, and the value in one of them too. -/
structure StandsIn (keyword : Keyword) (a : Argument) (segments : List Segment) (v : Variable) :
    Prop where
  named : ∃ s ∈ segments, ∃ index, NamedAt (siteOf keyword a s) (textOf a s) index v
  valued : ∃ s ∈ segments, ValuedAt (siteOf keyword a s) (textOf a s) v

section Segments

variable {keyword : Keyword} {a : Argument} {all : List Segment}

/-- A name that is held back has no value yet, stands in one of the segments and ends before what
is still to be read. -/
def Waits (keyword : Keyword) (a : Argument) (all left : List Segment) (p : Progress) : Prop :=
  ∀ v, p.pending = some v → v.valueSpan = none ∧
    (∃ s ∈ all, ∃ index, NamedAt (siteOf keyword a s) (textOf a s) index v) ∧
    ∀ s ∈ left, v.nameSpan.stop < s.span.start

def ComesFrom (p : Progress) (offset : Int) (v : Variable) : Prop :=
  (∃ w, p.pending = some w ∧ v.nameSpan = w.nameSpan) ∨ offset ≤ v.nameSpan.start

/-- What the reading of one segment leads to. -/
structure LineRead (keyword : Keyword) (a : Argument) (all : List Segment) (s : Segment)
    (p : Progress) (found : List Variable × Progress) : Prop where
  stand : ∀ v ∈ found.1 ++ found.2.pending.toList, StandsIn keyword a all v ∧
    v.EndsBy s.span.stop ∧ ComesFrom p s.span.start v
  bare : ∀ v, found.2.pending = some v → v.valueSpan = none
  ordered : (found.1 ++ found.2.pending.toList).Pairwise Precedes

theorem Waits.standsIn {left : List Segment} {p : Progress} {v : Variable}
    (waits : Waits keyword a all left p) (held : p.pending = some v) :
    StandsIn keyword a all v := by
  obtain ⟨bare, ⟨s, inside, index, named⟩, -⟩ := waits v held
  refine ⟨⟨s, inside, index, named⟩, s, inside, ?_⟩
  intro span found
  cases bare.symm.trans found

theorem Waits.endsBy {s : Segment} {left : List Segment} {p : Progress} {v : Variable}
    (waits : Waits keyword a all (s :: left) p) (held : p.pending = some v) :
    v.EndsBy s.span.start := by
  obtain ⟨bare, -, before⟩ := waits v held
  exact endsBy_of_valueSpan_eq_none bare (Int.le_of_lt (before s List.mem_cons_self))

theorem lineRead_nothing {s : Segment} {left : List Segment} {p : Progress}
    (order : s.span.start ≤ s.span.stop) (waits : Waits keyword a all (s :: left) p) :
    LineRead keyword a all s p ([], p) := by
  refine ⟨?_, fun v held => (waits v held).1, ?_⟩
  · intro v member
    have held : p.pending = some v := Option.mem_toList.mp member
    exact ⟨waits.standsIn held, (waits.endsBy held).le order, Or.inl ⟨v, held, rfl⟩⟩
  · cases p.pending with
    | none => exact List.Pairwise.nil
    | some v => exact List.pairwise_singleton _ _

theorem lineRead_readText {s : Segment} {p q : Progress} (inside : s ∈ all)
    (size : s.span.start + (textOf a s).length = s.span.stop) (calm : q.pending = none) :
    LineRead keyword a all s p (readText (siteOf keyword a s) q (textOf a s)) := by
  have gathered : Gathered (siteOf keyword a s) (textOf a s) 0 _ := gathered_readText calm
  refine ⟨?_, gathered.bare, gathered.ordered⟩
  intro v member
  obtain ⟨index, -, named, valued⟩ := gathered.stand v member
  refine ⟨⟨⟨s, inside, index, named⟩, s, inside, valued⟩, ?_, Or.inr ?_⟩
  · rw [← size]
    exact named.endsBy valued
  · rw [named.span]
    change s.span.start ≤ s.span.start + index
    omega

/-- A name that was held back comes before the names of the line. -/
theorem LineRead.cons {s : Segment} {left : List Segment} {p q : Progress} {v : Variable}
    {found : List Variable × Progress} (calm : q.pending = none)
    (read : LineRead keyword a all s q found) (order : s.span.start ≤ s.span.stop)
    (waits : Waits keyword a all (s :: left) p) (held : p.pending = some v) :
    LineRead keyword a all s p (v :: found.1, found.2) := by
  have after : ∀ w ∈ found.1 ++ found.2.pending.toList, s.span.start ≤ w.nameSpan.start := by
    intro w member
    rcases (read.stand w member).2.2 with ⟨u, impossible, -⟩ | after
    · cases calm.symm.trans impossible
    · exact after
  refine ⟨?_, read.bare, ?_⟩
  · intro w member
    rcases List.mem_cons.mp member with rfl | later
    · exact ⟨waits.standsIn held, (waits.endsBy held).le order, Or.inl ⟨w, held, rfl⟩⟩
    · obtain ⟨stands, ends, -⟩ := read.stand w later
      exact ⟨stands, ends, Or.inr (after w later)⟩
  · exact List.Pairwise.cons (fun w later => (waits.endsBy held).le (after w later)) read.ordered

/-- A name that was held back takes the text of the line as its value. -/
theorem lineRead_value {s : Segment} {p q : Progress} {v : Variable} {m n : Nat}
    (calm : q.pending = none) (inside : s ∈ all)
    (size : s.span.start + (textOf a s).length = s.span.stop) (le : m ≤ n)
    (fits : n ≤ (textOf a s).length) {left : List Segment}
    (waits : Waits keyword a all (s :: left) p) (held : p.pending = some v) :
    LineRead keyword a all s p
      ([{ v with valueSpan := some ((siteOf keyword a s).span m n) }], q) := by
  obtain ⟨bare, ⟨t, inside', index, named⟩, before⟩ := waits v held
  have ends := before s List.mem_cons_self
  refine ⟨?_, ?_, ?_⟩
  · intro w member
    rw [calm] at member
    obtain rfl := List.mem_singleton.mp member
    refine ⟨⟨⟨t, inside', index, ?_⟩, s, inside, ?_⟩, ⟨?_, ?_⟩, Or.inl ⟨v, held, rfl⟩⟩
    · exact ⟨named.keyword, named.line, named.span, named.filled, named.bound, named.bytes,
        named.plain, named.before, named.after⟩
    · intro span found
      obtain rfl := Option.some.inj found
      refine ⟨?_, m, n, rfl, le, fits⟩
      change v.nameSpan.stop < s.span.start + m
      omega
    · change v.nameSpan.stop ≤ s.span.stop
      omega
    · intro span found
      obtain rfl := Option.some.inj found
      change s.span.start + n ≤ s.span.stop
      omega
  · intro w impossible
    cases calm.symm.trans impossible
  · rw [calm]
    exact List.pairwise_singleton _ _

/-- The reading of one segment: what is found there stands in the argument and in order. -/
theorem lineRead_readLine {s : Segment} {p : Progress} (inside : s ∈ all)
    (size : s.span.start + (textOf a s).length = s.span.stop) {left : List Segment}
    (waits : Waits keyword a all (s :: left) p) :
    LineRead keyword a all s p (readLine (siteOf keyword a s) p (textOf a s)) := by
  rcases readLine_cases (siteOf keyword a s) p (textOf a s) with
    same | ⟨calm, same⟩ | ⟨v, held, same⟩ | ⟨v, held, same⟩
  · rw [same]
    exact lineRead_nothing (by omega) waits
  · rw [same]
    exact lineRead_readText inside size calm
  · rw [same]
    exact LineRead.cons (q := { p with pending := none }) rfl
      (lineRead_readText inside size rfl) (by omega) waits held
  · rw [same]
    exact lineRead_value rfl inside size (Nat.le_add_right _ _)
      (Bytes.indent_add_length_trim_le _) waits held

theorem LineRead.waits {s : Segment} {p : Progress} {found : List Variable × Progress}
    (read : LineRead keyword a all s p found) {left : List Segment}
    (before : ∀ t ∈ left, s.span.stop < t.span.start) : Waits keyword a all left found.2 := by
  intro v held
  obtain ⟨stands, ends, -⟩ := read.stand v (List.mem_append_right _ (Option.mem_toList.mpr held))
  refine ⟨read.bare v held, stands.named, ?_⟩
  intro t member
  have less := before t member
  have stop := ends.1
  omega

/-- The declarations in the segments of an argument stand in them and follow one another. -/
theorem readSegments_spec (keyword : Keyword) {left : List Segment} {p : Progress}
    (sub : ∀ s ∈ left, s ∈ all)
    (sizes : ∀ s ∈ left, s.span.start + (textOf a s).length = s.span.stop)
    (ordered : left.Pairwise fun s t => s.span.stop < t.span.start)
    (waits : Waits keyword a all left p) :
    (∀ v ∈ readSegments keyword a p left, StandsIn keyword a all v ∧
      ((∃ w, p.pending = some w ∧ v.nameSpan = w.nameSpan) ∨
        ∃ s ∈ left, s.span.start ≤ v.nameSpan.start)) ∧
      (readSegments keyword a p left).Pairwise Precedes := by
  induction left generalizing p with
  | nil =>
      constructor
      · intro v member
        have held : p.pending = some v := Option.mem_toList.mp member
        exact ⟨waits.standsIn held, Or.inl ⟨v, held, rfl⟩⟩
      · rw [readSegments]
        cases p.pending with
        | none => exact List.Pairwise.nil
        | some v => exact List.pairwise_singleton _ _
  | cons s rest ih =>
      obtain ⟨before, ordered⟩ := List.pairwise_cons.mp ordered
      have read := lineRead_readLine (sub s List.mem_cons_self) (sizes s List.mem_cons_self) waits
      change (∀ v ∈ (readLine (siteOf keyword a s) p (textOf a s)).1 ++ readSegments keyword a
          (readLine (siteOf keyword a s) p (textOf a s)).2 rest, _) ∧
        ((readLine (siteOf keyword a s) p (textOf a s)).1 ++ readSegments keyword a
          (readLine (siteOf keyword a s) p (textOf a s)).2 rest).Pairwise _
      generalize readLine (siteOf keyword a s) p (textOf a s) = found at read
      obtain ⟨stand, laterOrdered⟩ := ih (fun t member => sub t (List.mem_cons_of_mem _ member))
        (fun t member => sizes t (List.mem_cons_of_mem _ member)) ordered (read.waits before)
      have heldMember {w : Variable} (held : found.2.pending = some w) :
          w ∈ found.1 ++ found.2.pending.toList :=
        List.mem_append_right _ (Option.mem_toList.mpr held)
      have origin {w : Variable} (comes : ComesFrom p s.span.start w) {v : Variable}
          (same : v.nameSpan = w.nameSpan) :
          (∃ u, p.pending = some u ∧ v.nameSpan = u.nameSpan) ∨
            ∃ t ∈ s :: rest, t.span.start ≤ v.nameSpan.start := by
        rcases comes with ⟨u, held, same'⟩ | after
        · exact Or.inl ⟨u, held, same.trans same'⟩
        · exact Or.inr ⟨s, List.mem_cons_self, by rw [same]; exact after⟩
      constructor
      · intro v member
        rcases List.mem_append.mp member with here | later
        · obtain ⟨stands, -, comes⟩ := read.stand v (List.mem_append_left _ here)
          exact ⟨stands, origin comes rfl⟩
        · obtain ⟨stands, ⟨w, held, same⟩ | ⟨t, inside, after⟩⟩ := stand v later
          · obtain ⟨-, -, comes⟩ := read.stand w (heldMember held)
            exact ⟨stands, origin comes same⟩
          · exact ⟨stands, Or.inr ⟨t, List.mem_cons_of_mem _ inside, after⟩⟩
      · obtain ⟨first, -, across⟩ := List.pairwise_append.mp read.ordered
        refine List.pairwise_append.mpr ⟨first, laterOrdered, ?_⟩
        intro v here w later
        obtain ⟨-, ⟨u, held, same⟩ | ⟨t, inside, after⟩⟩ := stand w later
        · have precedes := across v here u (Option.mem_toList.mpr held)
          rw [Precedes, same]
          exact precedes
        · obtain ⟨-, ends, -⟩ := read.stand v (List.mem_append_left _ here)
          exact ends.le (Int.le_trans (Int.le_of_lt (before t inside)) after)

end Segments

end Variable

end Dockerfile
