import Dockerfile.Text.Tokens

/-!
# Tokens in order

One induction covers every scan: a property of an index and of the tokens found from there on holds
throughout if it holds at the end, passes over a skipped element and takes a token in front.  Where
no token starts inside another one, passing over a token skips nothing.  For things that stand in
order, a search that stops at the first one past a bound misses nothing.
-/

namespace Dockerfile

namespace Tokens

variable {α β : Type}

/-- Induction along a scan, from the end of the text to its start. -/
theorem scan_induction (read : Nat → List α → Option (β × Nat)) (text : List α)
    {motive : Nat → List β → Prop}
    (positive : ∀ n rest token size, read n rest = some (token, size) → 0 < size)
    (done : ∀ n, text.length ≤ n → motive n [])
    (passed : ∀ n found, n < text.length → read n (text.drop n) = none →
      motive (n + 1) found → motive n found)
    (taken : ∀ n token size found, n < text.length →
      read n (text.drop n) = some (token, size) → motive (n + size) found →
      motive n (token :: found))
    (n : Nat) : motive n (scan read n 0 (text.drop n)) := by
  induction left : text.length - n using Nat.strongRecOn generalizing n with
  | ind left ih =>
      rcases Nat.lt_or_ge n text.length with inside | past
      · have step := List.drop_eq_getElem_cons inside
        cases found : read n (text.drop n) with
        | none =>
            have rest := ih (text.length - (n + 1)) (by omega) (n + 1) rfl
            apply passed n _ inside found
            rw [step] at found ⊢
            rwa [scan_none read found]
        | some entry =>
            obtain ⟨token, size⟩ := entry
            obtain ⟨size, rfl⟩ :=
              Nat.exists_eq_add_one_of_ne_zero (Nat.ne_of_gt (positive _ _ _ _ found))
            have rest := ih (text.length - (n + (size + 1))) (by omega) (n + (size + 1)) rfl
            have later := taken n token (size + 1) _ inside found rest
            rw [step] at found ⊢
            rwa [scan_some read found, List.drop_drop, Nat.add_right_comm n 1 size]
      · rw [List.drop_eq_nil_of_le past, scan_nil]
        exact done n past

theorem exists_read_of_mem {read : Nat → List α → Option (β × Nat)} {text : List α}
    (positive : ∀ n rest token size, read n rest = some (token, size) → 0 < size) {token : β}
    (member : token ∈ tokens read text) :
    ∃ n size, n < text.length ∧ read n (text.drop n) = some (token, size) := by
  refine scan_induction read text (motive := fun _ found => ∀ token ∈ found,
    ∃ n size, n < text.length ∧ read n (text.drop n) = some (token, size)) positive ?_ ?_ ?_ 0
      token member
  · exact fun _ _ => nofun
  · exact fun _ _ _ _ ih => ih
  · intro n token size found inside taken ih
    exact List.forall_mem_cons.mpr ⟨⟨n, size, inside, taken⟩, ih⟩

/-- If nothing can be read inside a token, a scan finds what is read at any index: what it passes
over after a token holds no other. -/
theorem tokens_eq_filterMap {read : Nat → List α → Option (β × Nat)} {text : List α}
    (positive : ∀ n rest token size, read n rest = some (token, size) → 0 < size)
    (bound : ∀ n token size, read n (text.drop n) = some (token, size) → n + size ≤ text.length)
    (alone : ∀ n token size, read n (text.drop n) = some (token, size) →
      ∀ m, n < m → m < n + size → read m (text.drop m) = none) :
    tokens read text =
      (List.range text.length).filterMap fun n => (read n (text.drop n)).map Prod.fst := by
  have scanned := scan_induction read text (motive := fun n found => found =
    (List.range' n (text.length - n)).filterMap fun m => (read m (text.drop m)).map Prod.fst)
    positive ?_ ?_ ?_ 0
  · rwa [List.drop_zero, Nat.sub_zero, ← List.range_eq_range'] at scanned
  · intro n past
    rw [Nat.sub_eq_zero_of_le past]
    rfl
  · intro n found inside passed ih
    have left : text.length - n = text.length - (n + 1) + 1 := by omega
    rw [left, List.range'_succ, List.filterMap_cons, passed, ih]
    rfl
  · intro n token size found inside taken ih
    have room := bound n token size taken
    have some := positive n _ token size taken
    have left : text.length - n = size - 1 + (text.length - (n + size)) + 1 := by omega
    have next : n + 1 + (size - 1) = n + size := by omega
    -- nothing is read between the first index of the token and its end
    have none : (List.range' (n + 1) (size - 1)).filterMap
        (fun m => (read m (text.drop m)).map Prod.fst) = [] := by
      rw [List.filterMap_eq_nil_iff]
      intro m member
      obtain ⟨after, before⟩ := List.mem_range'_1.mp member
      rw [alone n token size taken m after (by omega)]
      rfl
    rw [left, List.range'_succ, List.filterMap_cons, taken, ← List.range'_append_1,
      List.filterMap_append, none, next, ih]
    rfl

/-- Where a property holds up to some point of a list, what precedes the first failure is all that
has it. -/
theorem takeWhile_eq_filter {p : α → Bool} {list : List α}
    (ordered : list.Pairwise fun a b => p b = true → p a = true) :
    list.takeWhile p = list.filter p := by
  induction list with
  | nil => rfl
  | cons a rest ih =>
      obtain ⟨before, later⟩ := List.pairwise_cons.mp ordered
      by_cases holds : p a = true
      · rw [List.takeWhile_cons_of_pos holds, List.filter_cons_of_pos holds, ih later]
      · rw [List.takeWhile_cons_of_neg holds, List.filter_cons_of_neg holds]
        refine (List.filter_eq_nil_iff.mpr ?_).symm
        intro b member held
        exact holds (before b member held)

theorem find?_map_of_mem {f : α → β} {p : β → Bool} {q : α → Bool} {list : List α}
    (same : ∀ a ∈ list, p (f a) = q a) : (list.map f).find? p = (list.find? q).map f := by
  induction list with
  | nil => rfl
  | cons a rest ih =>
      have here := same a List.mem_cons_self
      have later := ih fun b member => same b (List.mem_cons_of_mem _ member)
      by_cases holds : q a = true
      · rw [List.map_cons, List.find?_cons_of_pos (here.trans holds), List.find?_cons_of_pos holds,
          Option.map_some]
      · rw [List.map_cons, List.find?_cons_of_neg (by rw [here]; exact holds),
          List.find?_cons_of_neg holds, later]

theorem findSome?_map_of_mem {f : β → γ} {p : α → Option γ} {q : α → Option β} {list : List α}
    (same : ∀ a ∈ list, p a = (q a).map f) : list.findSome? p = (list.findSome? q).map f := by
  induction list with
  | nil => rfl
  | cons a rest ih =>
      have later := ih fun b member => same b (List.mem_cons_of_mem _ member)
      rw [List.findSome?_cons, List.findSome?_cons, same a List.mem_cons_self, later]
      cases q a <;> rfl

/-- Where no two elements have a property, a search finds the one that has it. -/
theorem find?_eq_some_iff_mem {q : α → Bool} {list : List α}
    (apart : list.Pairwise fun a b => q a = true → q b = false) {a : α} :
    list.find? q = some a ↔ a ∈ list ∧ q a = true := by
  induction list with
  | nil => exact ⟨nofun, nofun⟩
  | cons b rest ih =>
      obtain ⟨alone, later⟩ := List.pairwise_cons.mp apart
      by_cases here : q b = true
      · rw [List.find?_cons_of_pos here]
        constructor
        · intro same
          rw [← Option.some.inj same]
          exact ⟨List.mem_cons_self, here⟩
        · rintro ⟨member, held⟩
          rcases List.mem_cons.mp member with same | inside
          · rw [same]
          · cases (alone a inside here).symm.trans held
      · rw [List.find?_cons_of_neg here, ih later]
        constructor
        · rintro ⟨inside, held⟩
          exact ⟨List.mem_cons_of_mem _ inside, held⟩
        · rintro ⟨member, held⟩
          rcases List.mem_cons.mp member with same | inside
          · rw [same] at held
            exact absurd held here
          · exact ⟨inside, held⟩

/-- So does a search that stops early, if what it leaves out cannot have the property. -/
theorem find?_takeWhile_eq_some_iff {p q : α → Bool} {list : List α}
    (ordered : list.Pairwise fun a b => p b = true → p a = true)
    (apart : list.Pairwise fun a b =>
      p a = true ∧ q a = true → ¬ (p b = true ∧ q b = true)) {a : α} :
    (list.takeWhile p).find? q = some a ↔ a ∈ list ∧ p a = true ∧ q a = true := by
  rw [takeWhile_eq_filter ordered, List.find?_filter, find?_eq_some_iff_mem, decide_eq_true_iff]
  refine apart.imp ?_
  intro a b alone held
  exact decide_eq_false (alone (of_decide_eq_true held))

end Tokens

end Dockerfile
