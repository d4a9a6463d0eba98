import Dockerfile.Proofs.Snapshot
import Dockerfile.Session.Session

/-!
# Sessions and their stores

An open session is a store that is driven by messages: each of them counts as one call of the store
or as none.  A change counts as an update with the last whole text it brings, and does not count if
every change in it is of a range.  Hence a request is answered from the latest revision of its
document since it was last closed, as if this text had been analysed on its own.
-/

namespace Dockerfile

/-- Members against the order of their names are turned round. -/
theorem Json.sortedMembers_of_descending {members : List (Bytes × Json)}
    (descending : members.Pairwise fun a b => b.1 < a.1) :
    (Json.object members).sortedMembers = members.reverse := by
  have ascending : members.reverse.Pairwise fun a b => a.1 < b.1 :=
    List.pairwise_reverse.mpr descending
  rw [sortedMembers]
  generalize members.reverse = list at ascending ⊢
  have distinct : list.eraseDupsBy (fun a b => a.1 == b.1) = list := by
    induction list with
    | nil => rfl
    | cons m rest ih =>
        obtain ⟨first, later⟩ := List.pairwise_cons.mp ascending
        have kept : rest.filter (fun b => decide ((b.1 == m.1) = false)) = rest := by
          refine List.filter_eq_self.mpr fun b member => ?_
          have differs : b.1 ≠ m.1 := fun same => List.lt_irrefl m.1 (same ▸ first b member)
          simpa using differs
        rw [List.eraseDupsBy_cons, kept, ih later]
  rw [distinct]
  exact List.mergeSort_of_pairwise
    (ascending.imp fun less => decide_eq_true (List.le_of_lt less))

/-- The text that a change makes the whole text. -/
def Parameters.Change.text? : Parameters.Change → Option Bytes
  | .whole text => some text
  | .ranged => none

theorem Parameters.Change.filterMap_text?_of_ranged {changes : List Parameters.Change}
    (ranged : ∀ c ∈ changes, c = .ranged) : changes.filterMap text? = [] := by
  refine List.filterMap_eq_nil_iff.mpr fun c member => ?_
  rw [ranged c member]
  rfl

/-- What a message says about a document, its parameters decoded. -/
inductive Notice where
  | opened (uri : Bytes) (version : Int) (text : Bytes)
  | changed (uri : Bytes) (version : Int) (changes : List Parameters.Change)
  | closed (uri : Bytes)
  | asked (uri : Bytes) (p : Position)
  deriving DecidableEq, Repr

namespace Notice

def call? : Notice → Option Snapshot.Store.Call
  | .opened uri version text => some (.update uri version text)
  | .changed uri version changes =>
      (changes.filterMap Parameters.Change.text?).getLast?.map (.update uri version)
  | .closed uri => some (.close uri)
  | .asked uri _ => some (.get uri)

def readers : List (String × Shape × (List (Bytes × Json) → Notice)) :=
  [("textDocument/didOpen", Parameters.openShape, fun members =>
      .opened (Parameters.uri members) (Parameters.version members) (Parameters.text members)),
    ("textDocument/didChange", Parameters.changeShape, fun members =>
      .changed (Parameters.uri members) (Parameters.version members) (Parameters.changes members)),
    ("textDocument/didClose", Parameters.closeShape, fun members =>
      .closed (Parameters.uri members)),
    ("textDocument/definition", Parameters.definitionShape, fun members =>
      .asked (Parameters.uri members) (Parameters.position members))]

end Notice

namespace Message

/-- The notice that a message gives, if it is about a document and its parameters have the right
shape. -/
def notice? (m : Message) : Option Notice :=
  match Notice.readers.find? fun entry => utf8 entry.1 == m.method with
  | some (_, shape, read) => (Parameters.members? shape m.parameters).map read
  | none => none

def call? (m : Message) : Option Snapshot.Store.Call :=
  m.notice?.bind Notice.call?

def Connects (m : Message) : Prop :=
  m.method = utf8 "initialize" ∧
    (Parameters.members? Parameters.connectShape m.parameters).isSome = true

/-- The message neither shuts a session down nor ends it. -/
def Lasts (m : Message) : Prop :=
  m.method ≠ utf8 "shutdown" ∧ m.method ≠ utf8 "exit"

end Message

namespace Session

open Snapshot

variable {s : Session} {m : Message}

def respond (s : Session) : Notice → Session × Reply × List Event
  | .opened uri version text =>
      let (s, events) := s.update uri version text
      (s, .nothing, events)
  | .changed uri version changes =>
      let (s, events) := s.applyChanges uri version changes.reverse
      (s, .nothing, events)
  | .closed uri => ({ s with store := s.store.close uri }, .nothing, [])
  | .asked uri p =>
      let (reply, events) := s.define uri p
      (s, reply, events)

/-- Every method whose parameters are decoded has a handler that responds to the notice. -/
theorem handler_of_reader {name : String} {shape : Shape} {read : List (Bytes × Json) → Notice}
    (member : (name, shape, read) ∈ Notice.readers) :
    (utf8 name ≠ utf8 "shutdown" ∧ utf8 name ≠ utf8 "exit") ∧
      ∃ handler, methods.find? (fun entry => utf8 entry.1 == utf8 name) =
          some (name, shape, handler) ∧
        ∀ s members, handler s members = respond s (read members) := by
  simp only [Notice.readers, List.mem_cons, Prod.mk.injEq, List.not_mem_nil, or_false] at member
  rcases member with ⟨rfl, rfl, rfl⟩ | ⟨rfl, rfl, rfl⟩ | ⟨rfl, rfl, rfl⟩ | ⟨rfl, rfl, rfl⟩
  · exact ⟨by decide, onOpen, rfl, fun _ _ => rfl⟩
  · exact ⟨by decide, onChange, rfl, fun _ _ => rfl⟩
  · exact ⟨by decide, onClose, rfl, fun _ _ => rfl⟩
  · exact ⟨by decide, onDefinition, rfl, fun _ _ => rfl⟩

/-- Every other method leaves an open session as it is. -/
theorem reader_of_handler {name : String} {shape : Shape} {handler : Handler}
    (member : (name, shape, handler) ∈ methods) :
    (∃ read, Notice.readers.find? (fun entry => utf8 entry.1 == utf8 name) =
      some (name, shape, read)) ∨
      ∀ s members, s.isOpen = true → (handler s members).1 = s := by
  simp only [methods, List.mem_cons, Prod.mk.injEq, List.not_mem_nil, or_false] at member
  rcases member with ⟨rfl, rfl, rfl⟩ | ⟨rfl, rfl, rfl⟩ | ⟨rfl, rfl, rfl⟩ | ⟨rfl, rfl, rfl⟩ |
    ⟨rfl, rfl, rfl⟩ | ⟨rfl, rfl, rfl⟩ | ⟨rfl, rfl, rfl⟩
  · refine Or.inr fun s members isOpen => ?_
    change { s with isOpen := true } = s
    rw [← isOpen]
  · exact Or.inr fun _ _ _ => rfl
  · exact Or.inr fun _ _ _ => rfl
  · exact Or.inl ⟨_, rfl⟩
  · exact Or.inl ⟨_, rfl⟩
  · exact Or.inl ⟨_, rfl⟩
  · exact Or.inl ⟨_, rfl⟩

theorem handle_of_method (isOpen : s.isOpen = true) (lasts : m.method ≠ utf8 "shutdown")
    {name : String} {shape : Shape} {handler : Handler}
    (found : methods.find? (fun entry => utf8 entry.1 == m.method) = some (name, shape, handler)) :
    s.handle m = match Parameters.members? shape m.parameters with
      | some members => handler s members
      | none => (s, .uselessParameters, []) := by
  unfold handle
  rw [isOpen, if_neg (by simp), if_neg (by simpa using lasts)]
  cases given : Parameters.members? shape m.parameters with
  | none => simp only [found, given]
  | some members => simp only [found, given]

theorem exists_reader_of_notice {notice : Notice} (given : m.notice? = some notice) :
    ∃ name shape read members, (name, shape, read) ∈ Notice.readers ∧ utf8 name = m.method ∧
      Parameters.members? shape m.parameters = some members ∧ read members = notice := by
  unfold Message.notice? at given
  split at given
  · rename_i name shape read found
    obtain ⟨members, decoded, same⟩ := Option.map_eq_some_iff.mp given
    exact ⟨name, shape, read, members, List.mem_of_find?_eq_some found,
      by simpa using List.find?_some found, decoded, same⟩
  · cases given

theorem handle_of_notice (isOpen : s.isOpen = true) {notice : Notice}
    (given : m.notice? = some notice) : s.handle m = s.respond notice := by
  obtain ⟨name, shape, read, members, member, method, decoded, rfl⟩ :=
    exists_reader_of_notice given
  obtain ⟨lasts, handler, found, responds⟩ := handler_of_reader member
  rw [method] at lasts found
  rw [handle_of_method isOpen lasts.1 found, decoded]
  exact responds s members

/-- A message that says nothing about a document leaves an open session as it is. -/
theorem handle_of_no_notice (isOpen : s.isOpen = true) (lasts : m.Lasts)
    (none : m.notice? = none) : (s.handle m).1 = s := by
  cases found : methods.find? fun entry => utf8 entry.1 == m.method with
  | none =>
      unfold handle
      rw [isOpen, if_neg (by simp), if_neg (by simpa using lasts.1), found]
  | some entry =>
      obtain ⟨name, shape, handler⟩ := entry
      have method : utf8 name = m.method := by simpa using List.find?_some found
      rw [handle_of_method isOpen lasts.1 found]
      cases decoded : Parameters.members? shape m.parameters with
      | none => rfl
      | some members =>
          rcases reader_of_handler (List.mem_of_find?_eq_some found) with ⟨read, there⟩ | idle
          · rw [method] at there
            rw [Message.notice?, there] at none
            dsimp only at none
            rw [decoded] at none
            cases none
          · exact idle s members isOpen

theorem lasts_of_notice {notice : Notice} (given : m.notice? = some notice) : m.Lasts := by
  obtain ⟨name, shape, read, members, member, method, -⟩ := exists_reader_of_notice given
  rw [Message.Lasts, ← method]
  exact (handler_of_reader member).1

/-- Of changes, the last first, the first whole text is taken in. -/
theorem applyChanges_fst (uri : Bytes) (version : Int) (changes : List Parameters.Change) :
    (s.applyChanges uri version changes).1 =
      match (changes.filterMap Parameters.Change.text?).head? with
      | some text => (s.update uri version text).1
      | none => s := by
  induction changes with
  | nil => rfl
  | cons change rest ih =>
      cases change with
      | whole text => rfl
      | ranged => exact ih

/-- What a notice does to the store is the call that it counts as. -/
theorem respond_fst (s : Session) (notice : Notice) :
    (s.respond notice).1 = { s with store := s.store.after notice.call?.toList } := by
  cases notice with
  | opened uri version text => rfl
  | closed uri => rfl
  | asked uri p => rfl
  | changed uri version changes =>
      change (s.applyChanges uri version changes.reverse).1 = _
      rw [applyChanges_fst, List.filterMap_reverse, List.head?_reverse, Notice.call?]
      cases (changes.filterMap Parameters.Change.text?).getLast? <;> rfl

theorem handle_fst (isOpen : s.isOpen = true) (lasts : m.Lasts) :
    (s.handle m).1 = { s with store := s.store.after m.call?.toList } := by
  cases given : m.notice? with
  | none =>
      rw [handle_of_no_notice isOpen lasts given, Message.call?, given]
      rfl
  | some notice =>
      rw [handle_of_notice isOpen given, respond_fst, Message.call?, given]
      rfl

def after (s : Session) (messages : List Message) : Session :=
  messages.foldl (fun s m => (s.handle m).1) s

theorem after_cons (s : Session) (m : Message) (messages : List Message) :
    s.after (m :: messages) = (s.handle m).1.after messages :=
  rfl

/-- What messages do to an open session are the calls that they count as. -/
theorem after_eq (isOpen : s.isOpen = true) {messages : List Message}
    (lasting : ∀ m ∈ messages, m.Lasts) :
    s.after messages = { s with store := s.store.after (messages.filterMap Message.call?) } := by
  induction messages generalizing s with
  | nil => rfl
  | cons m messages ih =>
      have step := handle_fst isOpen (lasting m List.mem_cons_self)
      rw [after_cons, ih (by rw [step]; exact isOpen)
        fun n member => lasting n (List.mem_cons_of_mem _ member), step]
      cases counts : m.call? with
      | none => rw [List.filterMap_cons_none counts]; rfl
      | some call => rw [List.filterMap_cons_some counts]; rfl

theorem handle_of_connects (connects : m.Connects) : (start.handle m).1 = ⟨true, .empty⟩ := by
  obtain ⟨method, shaped⟩ := connects
  obtain ⟨members, decoded⟩ := Option.isSome_iff_exists.mp shaped
  have found : methods.find? (fun entry => utf8 entry.1 == m.method) =
      some ("initialize", Parameters.connectShape, onConnect) := by
    rw [method]
    rfl
  unfold handle
  rw [method, if_neg (by decide), if_neg (by decide), ← method, found]
  dsimp only
  rw [decoded]
  rfl

/-- An opened session keeps what a new store keeps after the calls that the messages count as. -/
theorem after_connects {messages : List Message} (connects : m.Connects)
    (lasting : ∀ n ∈ messages, n.Lasts) :
    start.after (m :: messages) = ⟨true, Store.empty.after (messages.filterMap Message.call?)⟩ := by
  rw [after_cons, handle_of_connects connects]
  exact after_eq rfl lasting

/-- The replies to messages that do not end the session, and to more messages behind them. -/
theorem exists_replies (s : Session) {messages : List Message}
    (lasting : ∀ m ∈ messages, m.method ≠ utf8 "exit") :
    ∃ replies, replies.length = messages.countP (·.id.isSome) ∧
      ∀ rest, (s.run (messages ++ rest)).1 = replies ++ ((s.after messages).run rest).1 := by
  induction messages generalizing s with
  | nil => exact ⟨[], rfl, fun rest => rfl⟩
  | cons m messages ih =>
      obtain ⟨replies, counted, later⟩ := ih (s.handle m).1
        fun n member => lasting n (List.mem_cons_of_mem _ member)
      have stays : isExit m = false := by simpa [isExit] using lasting m List.mem_cons_self
      refine ⟨m.id.toList.map (fun id => (id, (s.handle m).2.1)) ++ replies, ?_, ?_⟩
      · rw [List.length_append, counted, List.countP_cons, Nat.add_comm]
        cases m.id <;> rfl
      · intro rest
        rw [List.cons_append, run, stays, after_cons, List.append_assoc, ← later rest]
        rfl

theorem exists_reply (s : Session) {messages : List Message}
    (lasting : ∀ n ∈ messages, n.method ≠ utf8 "exit") (stays : m.method ≠ utf8 "exit")
    {id : Identifier} (numbered : m.id = some id) (rest : List Message) :
    ∃ earlier later, (s.run (messages ++ m :: rest)).1 =
      earlier ++ (id, ((s.after messages).handle m).2.1) :: later ∧
      earlier.length = messages.countP (·.id.isSome) := by
  obtain ⟨replies, counted, split⟩ := exists_replies s lasting
  have goesOn : isExit m = false := by simpa [isExit] using stays
  refine ⟨replies, (((s.after messages).handle m).1.run rest).1, ?_, counted⟩
  rw [split, run, goesOn, numbered]
  rfl

/-- The answer about a position of a document, given the revision that counts. -/
def answer (uri : Bytes) (p : Position) : Option Revision → Reply
  | none => .ofFault (.unknownDocument uri)
  | some r => .result (((Document.ofText uri r.text).definition? p).elim .null .ofLocation)

theorem define_of_get? {uri : Bytes} {kept : Option Revision}
    (there : s.store.get? uri = kept.map (Revision.snapshot uri)) (p : Position) :
    (s.define uri p).1 = answer uri p kept := by
  unfold define
  rw [there]
  cases kept with
  | none => rfl
  | some r =>
      have read : (Revision.snapshot uri r).analysis.definition? p =
          (Document.ofText uri r.text).definition? p := rfl
      simp only [Option.map_some, read, answer]
      cases (Document.ofText uri r.text).definition? p with
      | none => rfl
      | some location => rfl

/-- A session answers from the current text.  After any messages to an opened session, a change
counts as one update with the last whole text in it, and does nothing if all its changes are of
ranges.  A request changes nothing; it fails exactly if no text of its document has come in since it
was last closed, and otherwise its reply, in its turn, is the definition in the text that came in
first under the greatest version since then, analysed on its own. -/
theorem answers_from_current_text (hello : Message) (messages : List Message)
    (connects : hello.Connects) (lasting : ∀ m ∈ messages, m.Lasts) :
    let s := start.after (hello :: messages)
    let calls := messages.filterMap Message.call?
    (∀ m uri version changes, m.notice? = some (.changed uri version changes) →
      (∀ front text back, changes = front ++ .whole text :: back → (∀ c ∈ back, c = .ranged) →
        (s.handle m).1 = (s.update uri version text).1) ∧
      ((∀ c ∈ changes, c = .ranged) → (s.handle m).1 = s)) ∧
    ∀ m uri p, m.notice? = some (.asked uri p) →
      (s.handle m).1 = s ∧
      ((s.handle m).2.1 = .ofFault (.unknownDocument uri) ↔ Store.history uri calls = []) ∧
      (∀ r, Revision.latest? (Store.history uri calls) = some r → (s.handle m).2.1 =
        .result (((Document.ofText uri r.text).definition? p).elim .null .ofLocation)) ∧
      ∀ id rest, m.id = some id →
        ∃ earlier later, (start.run (hello :: messages ++ m :: rest)).1 =
          earlier ++ (id, (s.handle m).2.1) :: later ∧
          earlier.length = (hello :: messages).countP (·.id.isSome) := by
  intro s calls
  have state : s = ⟨true, Store.empty.after calls⟩ := after_connects connects lasting
  have isOpen : s.isOpen = true := by rw [state]
  constructor
  · intro m uri version changes given
    rw [handle_of_notice isOpen given]
    change (∀ front text back, _ → _ → (s.applyChanges uri version changes.reverse).1 = _) ∧
      (_ → (s.applyChanges uri version changes.reverse).1 = s)
    rw [applyChanges_fst, List.filterMap_reverse, List.head?_reverse]
    constructor
    · rintro front text back rfl ranged
      rw [List.filterMap_append, List.filterMap_cons_some (f := Parameters.Change.text?) rfl,
        Parameters.Change.filterMap_text?_of_ranged ranged, List.getLast?_concat]
    · intro ranged
      rw [Parameters.Change.filterMap_text?_of_ranged ranged]
      rfl
  · intro m uri p given
    have kept : s.store.get? uri =
        (Revision.latest? (Store.history uri calls)).map (Revision.snapshot uri) := by
      rw [state]
      exact Store.get?_after uri calls
    have reply := define_of_get? kept p
    have handled := handle_of_notice isOpen given
    have replied : (s.handle m).2.1 = (s.define uri p).1 := by rw [handled]; rfl
    rw [reply] at replied
    refine ⟨by rw [handled]; rfl, ?_, ?_, ?_⟩
    · rw [replied, ← Revision.latest?_eq_none_iff]
      cases Revision.latest? (Store.history uri calls) with
      | none => exact ⟨fun _ => rfl, fun _ => rfl⟩
      | some r => exact ⟨nofun, nofun⟩
    · intro r latest
      rw [replied, latest]
      rfl
    · intro id rest numbered
      refine exists_reply start ?_ (lasts_of_notice given).2 numbered rest
      intro n member
      rcases List.mem_cons.mp member with rfl | inside
      · rw [connects.1]
        decide
      · exact (lasting n inside).2

/-- The change brings a whole text and then a range, so the request is answered from that text and
not from the one the document was opened with. -/
theorem answers_from_current_text_changed :
    let hello : Message := ⟨none, utf8 "initialize", some (.object [])⟩
    let opens : Message := ⟨none, utf8 "textDocument/didOpen", some (.object [(utf8 "textDocument",
      .object [(utf8 "version", .ofInt 1), (utf8 "uri", .ofString "u"),
        (utf8 "text", .ofString "RUN $a")])])⟩
    let changes : Message := ⟨none, utf8 "textDocument/didChange", some (.object
      [(utf8 "textDocument", .object [(utf8 "version", .ofInt 2), (utf8 "uri", .ofString "u")]),
        (utf8 "contentChanges", .array [.object [(utf8 "text", .ofString "ARG a\nRUN $a")],
          .object [(utf8 "text", .ofString "RUN"), (utf8 "range", .object [])]])])⟩
    let asks : Message := ⟨some (.number 7), utf8 "textDocument/definition", some (.object
      [(utf8 "textDocument", .object [(utf8 "uri", .ofString "u")]),
        (utf8 "position", .object [(utf8 "line", .ofNat 1), (utf8 "character", .ofNat 5)])])⟩
    hello.Connects ∧ (∀ m ∈ [opens, changes], m.Lasts) ∧
      ∃ later, (start.run [hello, opens, changes, asks]).1 =
        (.number 7, .result (.ofLocation ⟨utf8 "u", ⟨⟨0, 4⟩, ⟨0, 5⟩⟩⟩)) :: later := by
  intro hello opens changes asks
  have connects : hello.Connects := by
    simp +decide (disch := decide) [hello, Message.Connects, Parameters.members?,
      Parameters.connectShape, Shape.accepts, Shape.acceptsAll, Json.sortedMembers_of_descending,
      Json.valuesUnder]
  obtain ⟨opened, changed, asked⟩ :
      opens.notice? = some (.opened (utf8 "u") 1 (utf8 "RUN $a")) ∧
        changes.notice? =
          some (.changed (utf8 "u") 2 [.whole (utf8 "ARG a\nRUN $a"), .ranged]) ∧
        asks.notice? = some (.asked (utf8 "u") ⟨1, 5⟩) := by
    refine ⟨?_, ?_, ?_⟩ <;>
      simp +decide (disch := decide) [opens, changes, asks, Message.notice?, Notice.readers,
        Parameters.members?, Parameters.openShape, Parameters.changeShape,
        Parameters.definitionShape, Parameters.documentShape, Parameters.versionedDocumentShape,
        Parameters.contentChangeShape, Parameters.rangeShape, Parameters.positionShape,
        Shape.accepts, Shape.acceptsAll, Json.sortedMembers_of_descending, Json.valuesUnder,
        Parameters.uri, Parameters.version, Parameters.text, Parameters.changes, Parameters.change,
        Parameters.position, Json.itemsUnder, Json.lastUnder, Json.lastAt, Json.inside?, Json.inside,
        Json.textUnder, Json.integerUnder, Json.under, Json.isNull, Json.ofString, Json.ofInt,
        Json.ofNat, List.filterMap_cons]
  have calls : [opens, changes].filterMap Message.call? =
      [.update (utf8 "u") 1 (utf8 "RUN $a"), .update (utf8 "u") 2 (utf8 "ARG a\nRUN $a")] := by
    simp only [List.filterMap_cons, List.filterMap_nil, Message.call?, opened, changed]
    rfl
  have lasting : ∀ m ∈ [opens, changes], m.Lasts := by
    intro m member
    rcases List.mem_cons.mp member with rfl | member
    · exact lasts_of_notice opened
    · rw [List.mem_singleton.mp member]
      exact lasts_of_notice changed
  obtain ⟨-, requests⟩ := answers_from_current_text hello [opens, changes] connects lasting
  obtain ⟨-, -, answered, inTurn⟩ := requests asks _ _ asked
  obtain ⟨earlier, later, run, none⟩ := inTurn (.number 7) [] rfl
  rw [List.eq_nil_of_length_eq_zero none, answered ⟨2, utf8 "ARG a\nRUN $a"⟩ (by rw [calls]; decide),
    show (Document.ofText (utf8 "u") (utf8 "ARG a\nRUN $a")).definition? ⟨1, 5⟩ =
      some ⟨utf8 "u", ⟨⟨0, 4⟩, ⟨0, 5⟩⟩⟩ by decide +kernel] at run
  exact ⟨connects, lasting, later, run⟩

end Session

end Dockerfile
