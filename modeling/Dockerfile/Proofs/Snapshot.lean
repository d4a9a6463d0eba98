import Dockerfile.Snapshot
import Mathlib.Data.List.DropRight

/-!
# Stores and their histories

A store forgets a document when it is closed, and otherwise keeps one revision of it.  Which one is
determined by the revisions that have come in since the document was last closed: it is the first of
those with the greatest version.  The calls for one document neither see nor disturb what is kept of
another.
-/

namespace Dockerfile

namespace Snapshot

/-- A text of a document, under its version. -/
structure Revision where
  version : Int
  text : Bytes
  deriving DecidableEq, Repr

namespace Revision

def snapshot (uri : Bytes) (r : Revision) : Snapshot :=
  ofText uri r.version r.text

/-- The first revision with the greatest version. -/
def latest? (history : List Revision) : Option Revision :=
  history.find? fun r => history.all (·.version ≤ r.version)

theorem latest?_eq_some_iff {history : List Revision} {r : Revision} :
    latest? history = some r ↔ ∃ front back, history = front ++ r :: back ∧
      (∀ q ∈ front, q.version < r.version) ∧ ∀ q ∈ back, q.version ≤ r.version := by
  rw [latest?, List.find?_eq_some_iff_append]
  simp only [List.all_eq_true, decide_eq_true_eq]
  constructor
  · rintro ⟨greatest, front, back, split, exceeded⟩
    have inside (q : Revision) (member : q ∈ front ++ r :: back) : q.version ≤ r.version :=
      greatest q (split ▸ member)
    refine ⟨front, back, split, ?_, ?_⟩
    · intro q member
      have low := exceeded q member
      simp only [Bool.not_eq_true', List.all_eq_false, decide_eq_true_eq] at low
      obtain ⟨other, there, more⟩ := low
      have bound := greatest other there
      omega
    · exact fun q member => inside q (List.mem_append_right _ (List.mem_cons_of_mem _ member))
  · rintro ⟨front, back, split, below, rest⟩
    refine ⟨?_, front, back, split, ?_⟩
    · intro q member
      rw [split, List.mem_append, List.mem_cons] at member
      rcases member with before | rfl | after
      · exact Int.le_of_lt (below q before)
      · exact Int.le_refl _
      · exact rest q after
    · intro q member
      simp only [Bool.not_eq_true', List.all_eq_false, decide_eq_true_eq]
      refine ⟨r, ?_, Int.not_le.mpr (below q member)⟩
      rw [split]
      exact List.mem_append_right _ List.mem_cons_self

theorem mem_of_latest? {history : List Revision} {r : Revision} (latest : latest? history = some r) :
    r ∈ history :=
  List.mem_of_find?_eq_some latest

theorem version_le_of_latest? {history : List Revision} {r q : Revision}
    (latest : latest? history = some r) (member : q ∈ history) : q.version ≤ r.version := by
  have greatest := List.find?_some latest
  simp only [List.all_eq_true, decide_eq_true_eq] at greatest
  exact greatest q member

theorem exists_latest? {history : List Revision} (filled : history ≠ []) :
    ∃ r, latest? history = some r := by
  induction history with
  | nil => exact absurd rfl filled
  | cons q rest ih =>
      by_cases alone : rest = []
      · exact ⟨q, latest?_eq_some_iff.mpr ⟨[], [], by rw [alone]; rfl, nofun, nofun⟩⟩
      · obtain ⟨r, latest⟩ := ih alone
        by_cases stale : r.version ≤ q.version
        · refine ⟨q, latest?_eq_some_iff.mpr ⟨[], rest, rfl, nofun, ?_⟩⟩
          exact fun p member => Int.le_trans (version_le_of_latest? latest member) stale
        · obtain ⟨front, back, split, below, after⟩ := latest?_eq_some_iff.mp latest
          refine ⟨r, latest?_eq_some_iff.mpr ⟨q :: front, back, by rw [split]; rfl, ?_, after⟩⟩
          intro p member
          rcases List.mem_cons.mp member with rfl | inside
          · exact Int.not_le.mp stale
          · exact below p inside

theorem latest?_eq_none_iff {history : List Revision} : latest? history = none ↔ history = [] := by
  constructor
  · intro none
    by_contra filled
    obtain ⟨r, latest⟩ := exists_latest? filled
    cases none.symm.trans latest
  · rintro rfl
    rfl

/-- Of two revisions the second, unless its version is not later. -/
def prefer : Option Revision → Option Revision → Option Revision
  | none, second => second
  | some first, none => some first
  | some first, some second => if second.version ≤ first.version then some first else some second

theorem latest?_append (front back : List Revision) :
    latest? (front ++ back) = prefer (latest? front) (latest? back) := by
  cases first : latest? front with
  | none =>
      rw [latest?_eq_none_iff.mp first, List.nil_append]
      rfl
  | some r =>
      cases second : latest? back with
      | none =>
          rw [latest?_eq_none_iff.mp second, List.append_nil, first]
          rfl
      | some q =>
          obtain ⟨left, right, split, below, rest⟩ := latest?_eq_some_iff.mp first
          obtain ⟨left', right', split', below', rest'⟩ := latest?_eq_some_iff.mp second
          rw [prefer]
          split
          · rename_i stale
            refine latest?_eq_some_iff.mpr ⟨left, right ++ back, ?_, below, ?_⟩
            · rw [split, List.append_assoc, List.cons_append]
            · intro p member
              rcases List.mem_append.mp member with here | there
              · exact rest p here
              · exact Int.le_trans (version_le_of_latest? second there) stale
          · rename_i later
            refine latest?_eq_some_iff.mpr ⟨front ++ left', right', ?_, ?_, rest'⟩
            · rw [split', List.append_assoc]
            · intro p member
              rcases List.mem_append.mp member with here | there
              · have bound := version_le_of_latest? first here
                omega
              · exact below' p there

theorem latest?_singleton (r : Revision) : latest? [r] = some r :=
  latest?_eq_some_iff.mpr ⟨[], [], rfl, nofun, nofun⟩

def AreDistinct (history : List Revision) : Prop :=
  history.Pairwise fun a b => a.version ≠ b.version

instance (history : List Revision) : Decidable (AreDistinct history) :=
  inferInstanceAs (Decidable (history.Pairwise _))

theorem AreDistinct.eq_of_version {history : List Revision} (distinct : AreDistinct history)
    {a b : Revision} (first : a ∈ history) (second : b ∈ history)
    (same : a.version = b.version) : a = b := by
  obtain ⟨i, bound, rfl⟩ := List.mem_iff_getElem.mp first
  obtain ⟨j, bound', rfl⟩ := List.mem_iff_getElem.mp second
  have apart := List.pairwise_iff_getElem.mp distinct
  rcases Nat.lt_trichotomy i j with less | rfl | greater
  · exact absurd same (apart i j bound bound' less)
  · rfl
  · exact absurd same.symm (apart j i bound' bound greater)

/-- The order of revisions does not matter where versions are distinct. -/
theorem latest?_of_perm {history other : List Revision} (perm : history.Perm other)
    (distinct : AreDistinct history) : latest? history = latest? other := by
  cases first : latest? history with
  | none =>
      rw [latest?_eq_none_iff.mp first] at perm
      exact (latest?_eq_none_iff.mpr perm.nil_eq.symm).symm
  | some r =>
      have member := mem_of_latest? first
      obtain ⟨q, second⟩ := exists_latest? (List.ne_nil_of_mem (perm.mem_iff.mp member))
      have member' := perm.mem_iff.mpr (mem_of_latest? second)
      have same : r.version = q.version := Int.le_antisymm
        (version_le_of_latest? second (perm.mem_iff.mp member))
        (version_le_of_latest? first member')
      rw [second, distinct.eq_of_version member member' same]

end Revision

namespace Store

inductive Call where
  | update (uri : Bytes) (version : Int) (text : Bytes)
  | get (uri : Bytes)
  | close (uri : Bytes)
  deriving DecidableEq, Repr

namespace Call

def uri : Call → Bytes
  | .update uri .. => uri
  | .get uri => uri
  | .close uri => uri

/-- The revision of a document that a call brings in. -/
def revision? (uri : Bytes) : Call → Option Revision
  | .update other version text => if other = uri then some ⟨version, text⟩ else none
  | .get _ => none
  | .close _ => none

theorem revision?_of_ne {call : Call} {uri : Bytes} (differs : call.uri ≠ uri) :
    call.revision? uri = none := by
  cases call with
  | update other version text => exact if_neg differs
  | get other => rfl
  | close other => rfl

theorem ne_close_of_ne {call : Call} {uri : Bytes} (differs : call.uri ≠ uri) :
    call ≠ .close uri := by
  rintro rfl
  exact differs rfl

end Call

/-- The revisions of a document since it was last closed, in the order in which they came in. -/
def history (uri : Bytes) (calls : List Call) : List Revision :=
  (calls.rtakeWhile (· != .close uri)).filterMap (Call.revision? uri)

/-- Perform a call: the store after it, and the snapshot that it returns. -/
def perform (store : Store) : Call → Store × Option Snapshot
  | .update uri version text =>
      let (next, kept, _) := store.update uri version text
      (next, some kept)
  | .get uri => (store, store.get? uri)
  | .close uri => (store.close uri, none)

def after (store : Store) (calls : List Call) : Store :=
  calls.foldl (fun store call => (store.perform call).1) store

theorem after_concat (store : Store) (calls : List Call) (call : Call) :
    store.after (calls ++ [call]) = ((store.after calls).perform call).1 := by
  rw [after, List.foldl_append]
  rfl

theorem history_concat (uri : Bytes) (calls : List Call) (call : Call) :
    history uri (calls ++ [call]) =
      if call = .close uri then [] else history uri calls ++ (call.revision? uri).toList := by
  rw [history]
  split
  · rename_i closes
    rw [List.rtakeWhile_concat_neg _ _ _ (by simpa using closes)]
    rfl
  · rename_i stays
    rw [List.rtakeWhile_concat_pos _ _ _ (by simpa using stays), List.filterMap_append, ← history]
    cases brings : call.revision? uri with
    | none => rw [List.filterMap_cons_none brings]; rfl
    | some r => rw [List.filterMap_cons_some brings]; rfl

theorem history_filter (uri : Bytes) (calls : List Call) :
    history uri (calls.filter (·.uri = uri)) = history uri calls := by
  induction calls using List.reverseRecOn with
  | nil => rfl
  | append_singleton calls call ih =>
      rw [List.filter_append, history_concat]
      by_cases own : call.uri = uri
      · rw [List.filter_cons_of_pos (by simpa using own), List.filter_nil, history_concat, ih]
      · rw [List.filter_cons_of_neg (by simpa using own), List.filter_nil, List.append_nil, ih,
          if_neg (Call.ne_close_of_ne own), Call.revision?_of_ne own, Option.toList_none,
          List.append_nil]

/-- What came in before the last closing does not count. -/
theorem history_append (uri : Bytes) (front back : List Call) :
    history uri (front ++ back) =
      if .close uri ∈ back then history uri back else history uri front ++ history uri back := by
  induction back using List.reverseRecOn with
  | nil =>
      rw [if_neg List.not_mem_nil, List.append_nil]
      exact (List.append_nil _).symm
  | append_singleton back call ih =>
      rw [← List.append_assoc, history_concat, history_concat, ih]
      by_cases closes : call = .close uri
      · have member : Call.close uri ∈ back ++ [call] := by simp [closes]
        rw [if_pos closes, if_pos closes, if_pos member]
      · have same : Call.close uri ∈ back ++ [call] ↔ Call.close uri ∈ back := by
          simp [Ne.symm closes]
        simp only [if_neg closes, same]
        split
        · rfl
        · rw [List.append_assoc]

theorem history_of_close_not_mem {uri : Bytes} {calls : List Call}
    (stays : .close uri ∉ calls) : history uri calls = calls.filterMap (Call.revision? uri) := by
  rw [history, List.rtakeWhile_eq_self_iff.mpr]
  intro call member
  rw [bne_iff_ne]
  rintro rfl
  exact stays member

section Step

variable (store : Store) (uri : Bytes)

theorem get?_update (version : Int) (text : Bytes) :
    (store.update uri version text).1.get? uri = some (store.update uri version text).2.1 := by
  unfold update
  dsimp only
  split
  · rename_i kept there
    split
    · exact there
    · exact get?_put store uri _
  · exact get?_put store uri _

theorem get?_update_of_ne {other : Bytes} (differs : other ≠ uri) (version : Int) (text : Bytes) :
    (store.update uri version text).1.get? other = store.get? other := by
  unfold update
  dsimp only
  split
  · split
    · rfl
    · exact get?_put_of_ne store _ differs
  · exact get?_put_of_ne store _ differs

/-- An update keeps the revision that it brings unless a version at least as late is kept. -/
theorem get?_update_of_kept {kept : Option Revision}
    (there : store.get? uri = kept.map (Revision.snapshot uri)) (version : Int) (text : Bytes) :
    (store.update uri version text).1.get? uri =
      (Revision.prefer kept (some ⟨version, text⟩)).map (Revision.snapshot uri) := by
  unfold update
  rw [there]
  cases kept with
  | none => exact get?_put store uri _
  | some r =>
      by_cases stale : version ≤ r.version
      · simp only [Option.map_some, Revision.snapshot, ofText, Revision.prefer, if_pos stale]
        exact there
      · simp only [Option.map_some, Revision.snapshot, ofText, Revision.prefer, if_neg stale]
        exact get?_put store uri _

theorem get?_perform_of_ne {call : Call} (differs : call.uri ≠ uri) :
    (store.perform call).1.get? uri = store.get? uri := by
  cases call with
  | update other version text => exact get?_update_of_ne store other (Ne.symm differs) version text
  | get other => rfl
  | close other => exact get?_close_of_ne store (Ne.symm differs)

theorem get?_perform (call : Call) {kept : Option Revision}
    (there : store.get? uri = kept.map (Revision.snapshot uri)) :
    (store.perform call).1.get? uri =
      (if call = .close uri then none else Revision.prefer kept (call.revision? uri)).map
        (Revision.snapshot uri) := by
  have unchanged : Revision.prefer kept none = kept := by cases kept <;> rfl
  by_cases own : call.uri = uri
  · cases call with
    | update other version text =>
        obtain rfl : other = uri := own
        rw [if_neg nofun, Call.revision?, if_pos rfl]
        exact get?_update_of_kept store other there version text
    | get other =>
        rw [if_neg nofun, Call.revision?, unchanged]
        exact there
    | close other =>
        obtain rfl : other = uri := own
        rw [if_pos rfl]
        exact get?_close store other
  · rw [get?_perform_of_ne store uri own, if_neg (Call.ne_close_of_ne own),
      Call.revision?_of_ne own, unchanged]
    exact there

end Step

/-- After any calls a new store keeps the latest revision since the last closing. -/
theorem get?_after (uri : Bytes) (calls : List Call) :
    (empty.after calls).get? uri =
      (Revision.latest? (history uri calls)).map (Revision.snapshot uri) := by
  induction calls using List.reverseRecOn with
  | nil => rfl
  | append_singleton calls call ih =>
      rw [after_concat, get?_perform _ uri call ih, history_concat]
      split
      · rfl
      · rw [Revision.latest?_append]
        cases call.revision? uri with
        | none => rfl
        | some r => rw [Option.toList_some, Revision.latest?_singleton]

theorem get?_after_eq_none_iff (uri : Bytes) (calls : List Call) :
    (empty.after calls).get? uri = none ↔ history uri calls = [] := by
  rw [get?_after, Option.map_eq_none_iff, Revision.latest?_eq_none_iff]

def uris (store : Store) : List Bytes :=
  store.entries.map Prod.fst

theorem mem_uris_iff {store : Store} {uri : Bytes} :
    uri ∈ store.uris ↔ store.get? uri ≠ none := by
  rw [uris, List.mem_map, get?, Option.ne_none_iff_isSome, List.lookup_isSome_iff]
  simp only [beq_iff_eq, eq_comm (a := uri)]

theorem nodup_uris_close {store : Store} (distinct : store.uris.Nodup) (uri : Bytes) :
    (store.close uri).uris.Nodup :=
  distinct.sublist (List.filter_sublist.map Prod.fst)

theorem nodup_uris_put {store : Store} (distinct : store.uris.Nodup) (uri : Bytes)
    (snapshot : Snapshot) : (store.put uri snapshot).uris.Nodup := by
  refine List.nodup_cons.mpr ⟨?_, nodup_uris_close distinct uri⟩
  intro member
  exact mem_uris_iff.mp member (get?_close store uri)

/-- No call makes a store keep two entries of one document. -/
theorem nodup_uris_perform {store : Store} (distinct : store.uris.Nodup) (call : Call) :
    (store.perform call).1.uris.Nodup := by
  cases call with
  | get uri => exact distinct
  | close uri => exact nodup_uris_close distinct uri
  | update uri version text =>
      change (store.update uri version text).1.uris.Nodup
      unfold update
      dsimp only
      split
      · split
        · exact distinct
        · exact nodup_uris_put distinct uri _
      · exact nodup_uris_put distinct uri _

theorem nodup_uris_after (calls : List Call) : (empty.after calls).uris.Nodup := by
  induction calls using List.reverseRecOn with
  | nil => exact List.nodup_nil
  | append_singleton calls call ih =>
      rw [after_concat]
      exact nodup_uris_perform ih call

theorem mem_uris_after_iff (uri : Bytes) (calls : List Call) :
    uri ∈ (empty.after calls).uris ↔ history uri calls ≠ [] := by
  rw [mem_uris_iff, Ne, get?_after_eq_none_iff]

theorem size_eq (store : Store) : store.size = store.uris.length :=
  (List.length_map Prod.fst).symm

theorem same_of_history {calls others : List Call}
    (same : ∀ uri, history uri calls = history uri others) :
    (∀ uri, (empty.after calls).get? uri = (empty.after others).get? uri) ∧
      (empty.after calls).size = (empty.after others).size := by
  constructor
  · intro uri
    rw [get?_after, get?_after, same]
  · rw [size_eq, size_eq]
    refine List.Perm.length_eq ((List.perm_ext_iff_of_nodup (nodup_uris_after calls)
      (nodup_uris_after others)).mpr fun uri => ?_)
    rw [mem_uris_after_iff, mem_uris_after_iff, same]

/-- Revisions with distinct versions may come in in any order. -/
theorem latest?_history_of_perm (uri : Bytes) (calls later : List Call)
    {updates reordered : List Call} (perm : updates.Perm reordered) (stays : .close uri ∉ updates)
    (distinct : Revision.AreDistinct (updates.filterMap (Call.revision? uri))) :
    Revision.latest? (history uri (calls ++ updates ++ later)) =
      Revision.latest? (history uri (calls ++ reordered ++ later)) := by
  have stays' : .close uri ∉ reordered := fun closes => stays (perm.mem_iff.mpr closes)
  have same := Revision.latest?_of_perm (perm.filterMap (Call.revision? uri)) distinct
  rw [← history_of_close_not_mem stays, ← history_of_close_not_mem stays'] at same
  rw [history_append, history_append uri (calls ++ reordered)]
  split
  · rfl
  · rw [Revision.latest?_append, Revision.latest?_append, history_append, history_append,
      if_neg stays, if_neg stays', Revision.latest?_append, Revision.latest?_append, same]

/-- Neighbouring calls for different documents may change places. -/
theorem history_swap (uri : Bytes) (calls later : List Call) {first second : Call}
    (differs : first.uri ≠ second.uri) :
    history uri (calls ++ first :: second :: later) =
      history uri (calls ++ second :: first :: later) := by
  rw [← history_filter, ← history_filter uri (calls ++ second :: first :: later)]
  congr 1
  by_cases own : first.uri = uri
  · have other : second.uri ≠ uri := fun same => differs (own.trans same.symm)
    simp [own, other]
  · simp [List.filter_cons, own]

/-- What a call returns depends only on what is kept of its own document. -/
theorem perform_snd_congr {store other : Store} {call : Call}
    (same : store.get? call.uri = other.get? call.uri) :
    (store.perform call).2 = (other.perform call).2 := by
  cases call with
  | update uri version text =>
      change some (store.update uri version text).2.1 = some (other.update uri version text).2.1
      change store.get? uri = other.get? uri at same
      unfold update
      rw [same]
      cases other.get? uri with
      | none => rfl
      | some kept => dsimp only; split <;> rfl
  | get uri => exact same
  | close uri => rfl

/-- A new store is determined by its history.  After any calls, it has an entry of a document exactly
if a revision has come in since the last closing, and this is the first of the greatest version; its
size is the number of such documents; an update returns the entry that is kept after it.  Hence
updates of distinct versions may come in in any order, and calls for different documents may change
places: they return the same, and nothing differs later on. -/
theorem determined_by_history (calls : List Call) :
    (∀ uri, ((empty.after calls).get? uri = none ↔ history uri calls = []) ∧
      (empty.after calls).get? uri = (Revision.latest? (history uri calls)).map fun r =>
        ⟨r.version, Analysis.ofDocument (Document.ofText uri r.text)⟩) ∧
    (∃ uris : List Bytes, uris.Nodup ∧ (∀ uri, uri ∈ uris ↔ history uri calls ≠ []) ∧
      (empty.after calls).size = uris.length) ∧
    (∀ uri version text, ((empty.after calls).perform (.update uri version text)).2 =
      (empty.after (calls ++ [.update uri version text])).get? uri) ∧
    (∀ uri updates reordered later, updates.Perm reordered → .close uri ∉ updates →
      Revision.AreDistinct (updates.filterMap (Call.revision? uri)) →
      (empty.after (calls ++ updates ++ later)).get? uri =
        (empty.after (calls ++ reordered ++ later)).get? uri) ∧
    ∀ first second : Call, first.uri ≠ second.uri →
      ((empty.after calls).perform first).2 = ((empty.after (calls ++ [second])).perform first).2 ∧
      ((empty.after calls).perform second).2 = ((empty.after (calls ++ [first])).perform second).2 ∧
      ∀ later, (∀ uri, (empty.after (calls ++ first :: second :: later)).get? uri =
          (empty.after (calls ++ second :: first :: later)).get? uri) ∧
        (empty.after (calls ++ first :: second :: later)).size =
          (empty.after (calls ++ second :: first :: later)).size := by
  refine ⟨?_, ?_, ?_, ?_, ?_⟩
  · exact fun uri => ⟨get?_after_eq_none_iff uri calls, get?_after uri calls⟩
  · exact ⟨_, nodup_uris_after calls, fun uri => mem_uris_after_iff uri calls, size_eq _⟩
  · intro uri version text
    rw [after_concat]
    exact (get?_update _ uri version text).symm
  · intro uri updates reordered later perm stays distinct
    rw [get?_after, get?_after, latest?_history_of_perm uri calls later perm stays distinct]
  · intro first second differs
    refine ⟨?_, ?_, ?_⟩
    · apply perform_snd_congr
      rw [after_concat, get?_perform_of_ne _ _ (Ne.symm differs)]
    · apply perform_snd_congr
      rw [after_concat, get?_perform_of_ne _ _ differs]
    · exact fun later => same_of_history fun uri => history_swap uri calls later differs

/-- A closed document starts over: of two updates after the closing the later version is kept in
either order, although both are older than what was forgotten.  A call for another document may come
before or after an update. -/
theorem determined_by_history_reopened :
    let calls : List Call := [.update [1] 7 (utf8 "ARG a"), .close [1]]
    let older : Call := .update [1] (-2) (utf8 "ARG b")
    let newer : Call := .update [1] 3 (utf8 "ARG c")
    history [1] (calls ++ [older, newer] ++ []) = [⟨-2, utf8 "ARG b"⟩, ⟨3, utf8 "ARG c"⟩] ∧
    (empty.after (calls ++ [older, newer] ++ [])).get? [1] =
      (empty.after (calls ++ [newer, older] ++ [])).get? [1] ∧
    (empty.after (calls ++ [newer, .close [2]])).size =
      (empty.after (calls ++ [.close [2], newer])).size := by
  intro calls older newer
  obtain ⟨-, -, -, reorder, commute⟩ := determined_by_history calls
  refine ⟨by decide +kernel, ?_, ?_⟩
  · exact reorder [1] [older, newer] [newer, older] [] (List.Perm.swap newer older []) (by decide)
      (by decide)
  · exact ((commute newer (.close [2]) (by decide)).2.2 []).2

end Store

end Snapshot

end Dockerfile
