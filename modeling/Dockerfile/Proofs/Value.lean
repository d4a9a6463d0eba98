import Dockerfile.Proofs.Definition

/-!
# Where values stand

A value is cut from one line's text: it starts at the text's start, after an equals sign or after a
blank, and ends at the text's end or before a blank.  An escape byte may take along the first byte
of a longer character, but a value does not end there: it goes on until it meets a blank.  So both
ends of a value stand between characters.
-/

namespace Dockerfile

namespace Bytes

/-- An index that a blank or nothing follows. -/
theorem isLoose_of_next {text : Bytes} {n : Nat} (bound : n ≤ text.length)
    (stops : ∀ b, text[n]? = some b → Byte.isBlank b = true) : text.IsLoose n := by
  rcases Nat.lt_or_eq_of_le bound with inside | same
  · have found := List.getElem?_eq_getElem inside
    exact Or.inr (Or.inr (Or.inl ⟨_, found, ascii_of_isBlank (stops _ found)⟩))
  · exact Or.inr (Or.inl same)

/-- Blanks that are passed over lead from such an index to another one. -/
theorem isLoose_indent {text : Bytes} {n : Nat} (loose : text.IsLoose n) :
    text.IsLoose (n + indent (text.drop n)) := by
  cases size : indent (text.drop n) with
  | zero => exact loose
  | succ k =>
      have less : k < indent (text.drop n) := by omega
      obtain ⟨b, found, blank⟩ := getElem?_of_lt_takeWhile less
      rw [List.getElem?_drop] at found
      exact Or.inr (Or.inr (Or.inr ⟨n + k, b, rfl, found, ascii_of_isBlank blank⟩))

theorem isLoose_indent_start (text : Bytes) : text.IsLoose text.indent := by
  have start : text.IsLoose (0 + indent (text.drop 0)) := isLoose_indent (Or.inl rfl)
  rwa [Nat.zero_add] at start

theorem isBlank_after_trim {text : Bytes} {b : UInt8}
    (found : text[text.indent + text.trim.length]? = some b) : Byte.isBlank b = true := by
  obtain ⟨blanks, split, blank⟩ := exists_trimRight_append text.trimLeft
  rw [← List.getElem?_drop, drop_indent] at found
  have behind := congrArg (·[text.trim.length]?) split
  rw [found, trim, List.getElem?_append_right (Nat.le_refl _)] at behind
  exact blank b (List.mem_of_getElem? behind.symm)

end Bytes

namespace Variable

/-- A name that is cut off by a blank, an equals sign or an end stands between characters. -/
theorem NamedAt.isLoose {site : Site} {text : Bytes} {index : Nat} {v : Variable}
    (named : NamedAt site text index v) :
    text.IsLoose index ∧ text.IsLoose (index + v.name.length) := by
  have bound := named.bound
  constructor
  · cases index with
    | zero => exact Or.inl rfl
    | succ n =>
        have found := List.getElem?_eq_getElem (show n < text.length by omega)
        exact Or.inr (Or.inr (Or.inr ⟨n, _, rfl, found,
          Bytes.ascii_of_isBlank (named.before n _ rfl found)⟩))
  · rcases Nat.lt_or_eq_of_le bound with inside | same
    · have found := List.getElem?_eq_getElem inside
      have ends := named.after _ found
      refine Or.inr (Or.inr (Or.inl ⟨_, found, ?_⟩))
      rcases Bool.or_eq_true_iff.mp ends with blank | equals
      · exact Bytes.ascii_of_isBlank blank
      · rw [beq_iff_eq.mp equals]
        decide
    · exact Or.inr (Or.inl same)

def LooseAt (site : Site) (text : Bytes) (v : Variable) : Prop :=
  ∀ span, v.valueSpan = some span → ∃ m n, span = site.span m n ∧ m ≤ n ∧ n ≤ text.length ∧
    text.IsLoose m ∧ text.IsLoose n

def Progress.IsBare (p : Progress) : Prop :=
  ∀ v, p.pending = some v → v.valueSpan = none

theorem Progress.isBare_of_eq_none {p : Progress} (calm : p.pending = none) : p.IsBare := by
  intro v held
  cases calm.symm.trans held

theorem looseAt_of_eq_none {site : Site} {text : Bytes} {v : Variable} (bare : v.valueSpan = none) :
    LooseAt site text v := by
  intro span found
  cases bare.symm.trans found

section Line

variable {site : Site} {text : Bytes} {index : Nat} {p : Progress}

/-- What one step declares has its value between characters. -/
theorem looseAt_step (site : Site) (bare : p.IsBare) (inside : index < text.length) :
    (∀ v, (step site p index (text.drop index)).declared = some v → LooseAt site text v) ∧
      (step site p index (text.drop index)).progress.IsBare := by
  have short := length_nameAt_le text index
  unfold step
  dsimp only
  rw [drop_nameAt, ← nameAt, List.head?_drop]
  split
  · rename_i equals
    have equals := beq_iff_eq.mp equals
    have room : index + (nameAt text index).length < text.length :=
      (List.getElem?_eq_some_iff.mp equals).1
    rw [List.drop_drop]
    refine ⟨?_, bare⟩
    intro v declared
    dsimp only at declared
    split at declared
    · cases declared
    · obtain rfl := Option.some.inj declared
      rintro span found
      obtain rfl := Option.some.inj found
      have bound := value_le site.escape none (text.drop (index + (nameAt text index).length + 1))
      rw [List.length_drop] at bound
      refine ⟨_, _, rfl, by omega, by omega, ?_, ?_⟩
      · exact Or.inr (Or.inr (Or.inr ⟨_, _, rfl, equals, by decide⟩))
      · refine Bytes.isLoose_of_next (by omega) ?_
        intro b next
        rw [← List.getElem?_drop] at next
        exact isBlank_value next
  · rename_i other
    have stops : ∀ b, text[index + (nameAt text index).length]? = some b →
        Byte.isBlank b = true :=
      fun b next => isBlank_nameAt (fun same => other (beq_iff_eq.mpr same)) next
    split
    · refine ⟨?_, bare⟩
      rintro v declared
      obtain rfl := Option.some.inj declared
      exact looseAt_of_eq_none rfl
    · split
      · constructor
        · intro v declared
          cases declared
        · rintro v held
          obtain rfl := Option.some.inj held
          rfl
      · refine ⟨?_, bare⟩
        rintro v declared
        obtain rfl := Option.some.inj declared
        rintro span found
        obtain rfl := Option.some.inj found
        have bound := Bytes.indent_add_length_trim_le
          (text.drop (index + (nameAt text index).length))
        rw [List.length_drop] at bound
        refine ⟨_, _, rfl, by omega, by omega, ?_, ?_⟩
        · exact Bytes.isLoose_indent (Bytes.isLoose_of_next (by omega) stops)
        · refine Bytes.isLoose_of_next (by omega) ?_
          intro b next
          rw [Nat.add_assoc, ← List.getElem?_drop] at next
          exact Bytes.isBlank_after_trim next

theorem looseAt_readNames (bare : p.IsBare) {skip : Nat} {rest : Bytes}
    (place : text.drop index = rest) :
    (∀ v ∈ (readNames site p index skip rest).1, LooseAt site text v) ∧
      (readNames site p index skip rest).2.IsBare := by
  induction rest generalizing p index skip with
  | nil => exact ⟨fun v member => absurd member List.not_mem_nil, by rw [readNames]; exact bare⟩
  | cons b rest ih =>
      have next : text.drop (index + 1) = rest := by
        rw [← List.drop_drop, place]
        rfl
      cases skip with
      | succ skip => exact ih bare next
      | zero =>
          rw [readNames]
          split
          · exact ih bare next
          · have inside : index < text.length := by
              refine Nat.lt_of_not_le fun past => ?_
              rw [List.drop_eq_nil_of_le past] at place
              cases place
            obtain ⟨declares, kept⟩ := looseAt_step site bare inside
            rw [place] at declares kept
            obtain ⟨later, final⟩ := ih kept next
            refine ⟨?_, final⟩
            intro v member
            rcases List.mem_append.mp member with here | there
            · exact declares v (Option.mem_toList.mp here)
            · exact later v there

theorem looseAt_readLine (site : Site) (text : Bytes) (bare : p.IsBare) :
    (∀ v ∈ (readLine site p text).1, LooseAt site text v) ∧ (readLine site p text).2.IsBare := by
  have names {q : Progress} (bare : q.IsBare) :
      (∀ v ∈ (readText site q text).1, LooseAt site text v) ∧ (readText site q text).2.IsBare := by
    unfold readText
    split <;> exact looseAt_readNames (by exact bare) rfl
  rcases readLine_cases site p text with
    same | ⟨calm, same⟩ | ⟨v, held, same⟩ | ⟨v, held, same⟩
  · rw [same]
    exact ⟨fun v member => absurd member List.not_mem_nil, bare⟩
  · rw [same]
    exact names bare
  · have free : Progress.IsBare { p with pending := none } := Progress.isBare_of_eq_none rfl
    obtain ⟨later, final⟩ := names free
    rw [same]
    refine ⟨?_, final⟩
    intro w member
    rcases List.mem_cons.mp member with rfl | there
    · exact looseAt_of_eq_none (bare w held)
    · exact later w there
  · rw [same]
    refine ⟨?_, Progress.isBare_of_eq_none rfl⟩
    intro w member
    obtain rfl := List.mem_singleton.mp member
    rintro span found
    obtain rfl := Option.some.inj found
    refine ⟨_, _, rfl, Nat.le_add_right _ _, Bytes.indent_add_length_trim_le _, ?_, ?_⟩
    · exact Bytes.isLoose_indent_start text
    · exact Bytes.isLoose_of_next (Bytes.indent_add_length_trim_le _)
        fun b next => Bytes.isBlank_after_trim next

end Line

/-- Every value stands between characters in the text of one of the segments. -/
theorem looseAt_readSegments {keyword : Keyword} {a : Argument} {p : Progress} (bare : p.IsBare)
    (segments : List Segment) : ∀ v ∈ readSegments keyword a p segments, v.valueSpan = none ∨
      ∃ s ∈ segments, LooseAt (siteOf keyword a s) (textOf a s) v := by
  induction segments generalizing p with
  | nil =>
      intro v member
      exact Or.inl (bare v (Option.mem_toList.mp member))
  | cons s rest ih =>
      obtain ⟨here, kept⟩ := looseAt_readLine (siteOf keyword a s) (textOf a s) bare
      intro v member
      rcases List.mem_append.mp member with found | later
      · exact Or.inr ⟨s, List.mem_cons_self, here v found⟩
      · rcases ih kept v later with none | ⟨t, inside, loose⟩
        · exact Or.inl none
        · exact Or.inr ⟨t, List.mem_cons_of_mem _ inside, loose⟩

end Variable

end Dockerfile
