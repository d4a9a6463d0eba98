import Dockerfile.Event

/-!
# Snapshots of open documents

A store keeps one analysis for each open document.  A later version replaces the one before; a
version that is not later than the one kept is left aside.
-/

namespace Dockerfile

structure Snapshot where
  version : Int
  analysis : Analysis

namespace Snapshot

def ofText (uri : Bytes) (version : Int) (text : Bytes) : Snapshot :=
  ⟨version, Analysis.ofDocument (Document.ofText uri text)⟩

structure Store where
  entries : List (Bytes × Snapshot)

namespace Store

def empty : Store := ⟨[]⟩

def get? (store : Store) (uri : Bytes) : Option Snapshot :=
  store.entries.lookup uri

def close (store : Store) (uri : Bytes) : Store :=
  ⟨store.entries.filter (·.1 != uri)⟩

def put (store : Store) (uri : Bytes) (snapshot : Snapshot) : Store :=
  ⟨(uri, snapshot) :: (store.close uri).entries⟩

theorem get?_close (store : Store) (uri : Bytes) : (store.close uri).get? uri = none := by
  unfold get? close
  induction store.entries with
  | nil => rfl
  | cons entry rest ih =>
      by_cases same : entry.1 = uri
      · rw [List.filter_cons_of_neg (by simpa using same)]
        exact ih
      · have missed : (uri == entry.1) = false := by simpa using fun h => same h.symm
        rw [List.filter_cons_of_pos (by simpa using same), List.lookup_cons, missed]
        exact ih

theorem get?_close_of_ne (store : Store) {uri other : Bytes} (differs : other ≠ uri) :
    (store.close uri).get? other = store.get? other := by
  unfold get? close
  induction store.entries with
  | nil => rfl
  | cons entry rest ih =>
      by_cases same : entry.1 = uri
      · have missed : (other == entry.1) = false := by simpa [same] using differs
        rw [List.filter_cons_of_neg (by simpa using same), List.lookup_cons, missed]
        exact ih
      · rw [List.filter_cons_of_pos (by simpa using same), List.lookup_cons, List.lookup_cons]
        cases other == entry.1 with
        | true => rfl
        | false => exact ih

theorem get?_put (store : Store) (uri : Bytes) (snapshot : Snapshot) :
    (store.put uri snapshot).get? uri = some snapshot :=
  List.lookup_cons_self

theorem get?_put_of_ne (store : Store) {uri other : Bytes} (snapshot : Snapshot)
    (differs : other ≠ uri) : (store.put uri snapshot).get? other = store.get? other := by
  have missed : (other == uri) = false := by simpa using differs
  change List.lookup other ((uri, snapshot) :: (store.close uri).entries) = _
  rw [List.lookup_cons, missed]
  exact get?_close_of_ne store differs

def size (store : Store) : Nat :=
  store.entries.length

/-- Take in a version of a document; the answer is the store after it, the snapshot kept, and what
is reported. -/
def update (store : Store) (uri : Bytes) (version : Int) (text : Bytes) :
    Store × Snapshot × List Event :=
  let fresh := ofText uri version text
  let stored := (store.put uri fresh, fresh,
    fresh.analysis.document.events ++
      [.snapshotStored uri version fresh.analysis.instructions.length])
  match store.get? uri with
  | some kept =>
      if version ≤ kept.version then (store, kept, [.snapshotUnchanged uri version kept.version])
      else stored
  | none => stored

end Store

end Snapshot

end Dockerfile
