import Dockerfile.Proofs.Reference
import Dockerfile.Proofs.Stage
import Dockerfile.Proofs.Statement.Edges

/-!
# What stands under a position

A position in none of the segments shows nothing.  Any other position lies in the segments of one
instruction only, and shows the stage name that this instruction gives, the first of its `--from`
values there, the variable reference there, or nothing, in this order.  The position lies in the
range of whatever it shows.
-/

namespace Dockerfile

namespace Document

variable {doc : Document}

theorem raw_contains_of_covers {g : Statement.Group} (member : g ∈ doc.groups) {offset : Int}
    (covers : (doc.ofGroup g).argument.Covers offset) :
    (doc.ofGroup g).raw.contains offset = true := by
  obtain ⟨s, inside, contains⟩ := covers
  obtain ⟨-, low, high⟩ := fills_of_mem_segments member inside
  rw [Argument.contains_iff] at contains ⊢
  omega

theorem start_le_stop_raw {i : Instruction} (member : i ∈ doc.instructions) :
    i.raw.start ≤ i.raw.stop := by
  rw [instructions_eq] at member
  obtain ⟨g, inside, rfl⟩ := List.mem_map.mp member
  have room := Bytes.indent_le g.first.content
  have bound := Statement.Group.stop_le_stop_last (pairwise_lines_group inside)
    (List.mem_cons_self : g.first ∈ g.lines)
  rw [raw_ofGroup inside]
  rw [Line.stop] at bound
  dsimp only
  omega

/-- The search by offset finds the instruction whose lines hold the offset. -/
theorem at?_instructions_eq_some_iff {offset : Int} {i : Instruction} :
    Instruction.at? doc.instructions offset = some i ↔
      i ∈ doc.instructions ∧ i.raw.contains offset = true := by
  have ordered : doc.instructions.Pairwise fun i j =>
      decide (j.raw.start ≤ offset) = true → decide (i.raw.start ≤ offset) = true := by
    refine List.Pairwise.imp_of_mem ?_ doc.pairwise_raw
    intro i j member _ apart
    have filled := start_le_stop_raw member
    simp only [decide_eq_true_iff]
    omega
  have alone : doc.instructions.Pairwise fun i j =>
      decide (i.raw.start ≤ offset) = true ∧ i.raw.contains offset = true →
        ¬ (decide (j.raw.start ≤ offset) = true ∧ j.raw.contains offset = true) := by
    refine doc.pairwise_raw.imp ?_
    intro i j apart
    simp only [decide_eq_true_iff, Argument.contains_iff]
    omega
  rw [Instruction.at?, Tokens.find?_takeWhile_eq_some_iff ordered alone, decide_eq_true_iff]
  constructor
  · rintro ⟨member, -, contains⟩
    exact ⟨member, contains⟩
  · rintro ⟨member, contains⟩
    exact ⟨member, (Argument.contains_iff.mp contains).1, contains⟩

theorem at?_instructions_of_covers {i : Instruction} {offset : Int}
    (member : i ∈ doc.instructions) (covers : i.argument.Covers offset) :
    Instruction.at? doc.instructions offset = some i := by
  refine at?_instructions_eq_some_iff.mpr ⟨member, ?_⟩
  rw [instructions_eq] at member
  obtain ⟨g, inside, rfl⟩ := List.mem_map.mp member
  exact raw_contains_of_covers inside covers

/-- Two instructions that cover one offset are the same. -/
theorem eq_of_covers {i j : Instruction} {offset : Int} (first : i ∈ doc.instructions)
    (second : j ∈ doc.instructions) (covers : i.argument.Covers offset)
    (covers' : j.argument.Covers offset) : i = j := by
  have found := at?_instructions_of_covers first covers
  rw [at?_instructions_of_covers second covers'] at found
  exact (Option.some.inj found).symm

end Document

theorem Instruction.opensStage_iff {i : Instruction} :
    i.opensStage = true ↔ i.keyword = some .fromImage := by
  unfold Instruction.opensStage
  cases i.keyword with
  | none => exact ⟨nofun, nofun⟩
  | some keyword => cases keyword <;> decide

theorem Instruction.refersToStage_iff {i : Instruction} :
    i.refersToStage = true ↔ i.keyword = some .copy := by
  unfold Instruction.refersToStage
  cases i.keyword with
  | none => exact ⟨nofun, nofun⟩
  | some keyword => cases keyword <;> decide

namespace Symbol

/-- The instruction is a `FROM` and gives its stage a name whose span holds the offset. -/
def IsAliasAt (i : Instruction) (offset : Int) (word : Word) : Prop :=
  i.keyword = some .fromImage ∧ Stage.alias? i.argument = some word ∧
    (i.argument.lineSpan word.start word.stop).contains offset = true

/-- The flag is `--from` with a value whose span holds the offset. -/
def IsSourceAt (i : Instruction) (offset : Int) (flag : Flag) (value : Word) : Prop :=
  flag.name.text = utf8 "from" ∧ flag.value = some value ∧
    (i.argument.lineSpan value.start value.stop).contains offset = true

/-- No flag that leads the argument of a `COPY` is a `--from` with its value at the offset. -/
def NoSourceAt (i : Instruction) (offset : Int) : Prop :=
  i.keyword = some .copy → ∀ flag ∈ Flag.leading (Word.all i.argument.text), ∀ value,
    ¬ IsSourceAt i offset flag value

/-- What an instruction shows at an offset that was read at a logical index. -/
inductive Shown (i : Instruction) (offset : Int) (k : Nat) : Option Symbol → Prop where
  | stageAlias {word : Word} (here : IsAliasAt i offset word) :
      Shown i offset k (some ⟨.stageAlias, word.text, i.argument.lineSpan word.start word.stop⟩)
  | stageReference {before after : List Flag} {flag : Flag} {value : Word}
      (noAlias : ∀ word, ¬ IsAliasAt i offset word) (copies : i.keyword = some .copy)
      (split : Flag.leading (Word.all i.argument.text) = before ++ flag :: after)
      (first : ∀ other ∈ before, ∀ value, ¬ IsSourceAt i offset other value)
      (here : IsSourceAt i offset flag value) :
      Shown i offset k
        (some ⟨.stageReference, value.text, i.argument.lineSpan value.start value.stop⟩)
  | variableReference {r : Reference} (noAlias : ∀ word, ¬ IsAliasAt i offset word)
      (noSource : NoSourceAt i offset) (member : r ∈ Reference.all i.argument.text)
      (covers : r.start ≤ k ∧ k < r.stop)
      (only : ∀ other ∈ Reference.all i.argument.text,
        other.start ≤ k → k < other.stop → other = r) :
      Shown i offset k
        (some ⟨.variableReference, r.name, i.argument.sourceSpan r.start r.stop⟩)
  | nothing (noAlias : ∀ word, ¬ IsAliasAt i offset word) (noSource : NoSourceAt i offset)
      (noReference : ∀ r ∈ Reference.all i.argument.text, ¬ (r.start ≤ k ∧ k < r.stop)) :
      Shown i offset k none

def ofFlag? (i : Instruction) (offset : Int) (flag : Flag) : Option Symbol :=
  match flag.value with
  | some value =>
      let span := i.argument.lineSpan value.start value.stop
      if flag.name.text == utf8 "from" && span.contains offset then
        some ⟨.stageReference, value.text, span⟩
      else none
  | none => none

theorem stageReferenceAt?_eq (i : Instruction) (offset : Int) :
    Analysis.stageReferenceAt? i offset =
      (Flag.leading (Word.all i.argument.text)).findSome? (ofFlag? i offset) :=
  rfl

theorem ofFlag?_of_isSourceAt {i : Instruction} {offset : Int} {flag : Flag} {value : Word}
    (here : IsSourceAt i offset flag value) : ofFlag? i offset flag =
      some ⟨.stageReference, value.text, i.argument.lineSpan value.start value.stop⟩ := by
  obtain ⟨named, valued, contains⟩ := here
  rw [ofFlag?, valued]
  dsimp only
  rw [named, contains]
  rfl

theorem exists_isSourceAt_of_ofFlag? {i : Instruction} {offset : Int} {flag : Flag}
    {symbol : Symbol} (found : ofFlag? i offset flag = some symbol) :
    ∃ value, IsSourceAt i offset flag value ∧ symbol =
      ⟨.stageReference, value.text, i.argument.lineSpan value.start value.stop⟩ := by
  unfold ofFlag? at found
  split at found
  · rename_i value valued
    dsimp only at found
    split at found
    · rename_i both
      obtain ⟨named, contains⟩ := Bool.and_eq_true_iff.mp both
      exact ⟨value, ⟨beq_iff_eq.mp named, valued, contains⟩, (Option.some.inj found).symm⟩
    · cases found
  · cases found

theorem not_isSourceAt_of_ofFlag? {i : Instruction} {offset : Int} {flag : Flag}
    (nothing : ofFlag? i offset flag = none) (value : Word) :
    ¬ IsSourceAt i offset flag value := by
  intro here
  cases nothing.symm.trans (ofFlag?_of_isSourceAt here)

/-- Where neither a stage name nor a `--from` value stands, a variable reference may. -/
theorem shown_variableReferenceAt? {i : Instruction} {offset : Int} {k : Nat}
    (read : i.argument.logical? offset = some k)
    (noAlias : ∀ word, ¬ IsAliasAt i offset word) (noSource : NoSourceAt i offset) :
    Shown i offset k (Analysis.variableReferenceAt? i offset) := by
  rw [Analysis.variableReferenceAt?, read]
  change Shown i offset k ((Reference.at? i.argument.text k).bind fun r =>
    some ⟨.variableReference, r.name, i.argument.sourceSpan r.start r.stop⟩)
  cases found : Reference.at? i.argument.text k with
  | none =>
      refine Shown.nothing noAlias noSource ?_
      intro r member covers
      cases found.symm.trans (Reference.at?_eq_some_iff.mpr ⟨member, covers⟩)
  | some r =>
      obtain ⟨member, covers⟩ := Reference.at?_eq_some_iff.mp found
      refine Shown.variableReference noAlias noSource member covers ?_
      intro other inside low high
      exact Reference.eq_of_covers inside member (Reference.covers_natCast.mpr ⟨low, high⟩)
        (Reference.covers_natCast.mpr covers)

theorem shown_of_not_isAliasAt {i : Instruction} {offset : Int} {k : Nat}
    (read : i.argument.logical? offset = some k)
    (noAlias : ∀ word, ¬ IsAliasAt i offset word) :
    Shown i offset k ((if i.refersToStage then Analysis.stageReferenceAt? i offset else none).or
      (Analysis.variableReferenceAt? i offset)) := by
  split
  · rename_i copies
    rw [stageReferenceAt?_eq]
    cases found : (Flag.leading (Word.all i.argument.text)).findSome? (ofFlag? i offset) with
    | none =>
        refine shown_variableReferenceAt? read noAlias ?_
        intro _ flag member
        exact not_isSourceAt_of_ofFlag? (List.findSome?_eq_none_iff.mp found flag member)
    | some symbol =>
        obtain ⟨before, flag, after, split, hit, missed⟩ := List.findSome?_eq_some_iff.mp found
        obtain ⟨value, here, rfl⟩ := exists_isSourceAt_of_ofFlag? hit
        refine Shown.stageReference noAlias (Instruction.refersToStage_iff.mp copies) split ?_ here
        intro other member
        exact not_isSourceAt_of_ofFlag? (missed other member)
  · rename_i other
    refine shown_variableReferenceAt? read noAlias ?_
    intro copies
    exact absurd (Instruction.refersToStage_iff.mpr copies) other

end Symbol

namespace Document

variable {doc : Document} {i : Instruction} {offset : Int}

theorem covers_of_alias {word : Word} (member : i ∈ doc.instructions)
    (found : Stage.alias? i.argument = some word)
    (contains : (i.argument.lineSpan word.start word.stop).contains offset = true) :
    i.argument.Covers offset := by
  rw [instructions_eq] at member
  obtain ⟨g, inside, rfl⟩ := List.mem_map.mp member
  have stands := (Word.all_standsIn _).1 word (Stage.alias?_mem found)
  exact covers_of_lineSpan inside stands.filled stands.bound contains

/-- The stage found at an offset of an instruction is the one that the instruction names there,
although all stages of the document are searched. -/
theorem stageAliasAt?_eq_some {symbol : Symbol} (member : i ∈ doc.instructions)
    (covers : i.argument.Covers offset)
    (found : (Analysis.ofDocument doc).stageAliasAt? offset = some symbol) :
    ∃ word, Symbol.IsAliasAt i offset word ∧ symbol =
      ⟨.stageAlias, word.text, i.argument.lineSpan word.start word.stop⟩ := by
  obtain ⟨stage, hit, rfl⟩ := Option.map_eq_some_iff.mp found
  have contains := List.find?_some hit
  obtain ⟨j, inside, opens, n, named⟩ := Stage.exists_of_mem_collect (List.mem_of_find?_eq_some hit)
  obtain ⟨word, third, rfl⟩ := Option.map_eq_some_iff.mp named
  have same := eq_of_covers inside member (covers_of_alias inside third contains) covers
  subst same
  exact ⟨word, ⟨Instruction.opensStage_iff.mp opens, third, contains⟩, rfl⟩

theorem not_isAliasAt_of_stageAliasAt? (member : i ∈ doc.instructions)
    (nothing : (Analysis.ofDocument doc).stageAliasAt? offset = none) (word : Word) :
    ¬ Symbol.IsAliasAt i offset word := by
  rintro ⟨opens, third, contains⟩
  obtain ⟨stage, listed, -, span⟩ := Stage.exists_mem_collect 0 member
    (Instruction.opensStage_iff.mpr opens) third
  have missed := List.find?_eq_none.mp (Option.map_eq_none_iff.mp nothing) stage listed
  rw [span] at missed
  exact missed contains

theorem shown_symbolIn? {k : Nat} (member : i ∈ doc.instructions)
    (read : i.argument.logical? offset = some k) (covers : i.argument.Covers offset) :
    Symbol.Shown i offset k ((Analysis.ofDocument doc).symbolIn? i offset) := by
  rw [Analysis.symbolIn?, Option.or_assoc]
  split
  · cases found : (Analysis.ofDocument doc).stageAliasAt? offset with
    | none =>
        exact Symbol.shown_of_not_isAliasAt read (not_isAliasAt_of_stageAliasAt? member found)
    | some symbol =>
        obtain ⟨word, here, rfl⟩ := stageAliasAt?_eq_some member covers found
        exact Symbol.Shown.stageAlias here
  · rename_i other
    refine Symbol.shown_of_not_isAliasAt read ?_
    rintro word ⟨opens, -, -⟩
    exact other (Instruction.opensStage_iff.mpr opens)

theorem standsIn_value {text : Bytes} {flag : Flag} {value : Word}
    (leads : flag ∈ Flag.leading (Word.all text)) (valued : flag.value = some value) :
    value.start ≤ value.stop ∧ value.stop ≤ text.length ∧ text.IsLoose value.start ∧
      text.IsLoose value.stop := by
  obtain ⟨word, listed, isFlag, rfl⟩ := Flag.exists_word_of_mem_leading leads
  have stands := (Word.all_standsIn text).1 word listed
  obtain ⟨order, stop, -, n, start, equals⟩ := Flag.value_ofWord stands isFlag valued
  refine ⟨order, by rw [stop]; exact stands.bound, ?_, by rw [stop]; exact stands.isLoose_stop⟩
  exact Or.inr (Or.inr (Or.inr ⟨n, _, start, equals, by decide⟩))

/-- A value whose span holds an offset is not empty. -/
theorem start_lt_stop_value {flag : Flag} {value : Word}
    (leads : flag ∈ Flag.leading (Word.all i.argument.text))
    (here : Symbol.IsSourceAt i offset flag value) : value.start < value.stop := by
  obtain ⟨-, valued, contains⟩ := here
  rcases Nat.eq_or_lt_of_le (standsIn_value leads valued).1 with same | less
  · rw [same, Argument.not_contains_lineSpan_self] at contains
    cases contains
  · exact less

/-- Outside the segments of all instructions nothing is shown. -/
theorem symbolIn?_eq_none (member : i ∈ doc.instructions)
    (outside : ∀ j ∈ doc.instructions, ¬ j.argument.Covers offset) :
    (Analysis.ofDocument doc).symbolIn? i offset = none := by
  have noAlias : (Analysis.ofDocument doc).stageAliasAt? offset = none := by
    cases found : (Analysis.ofDocument doc).stageAliasAt? offset with
    | none => rfl
    | some symbol =>
        obtain ⟨stage, hit, -⟩ := Option.map_eq_some_iff.mp found
        have contains := List.find?_some hit
        obtain ⟨j, inside, -, n, named⟩ :=
          Stage.exists_of_mem_collect (List.mem_of_find?_eq_some hit)
        obtain ⟨word, third, rfl⟩ := Option.map_eq_some_iff.mp named
        exact absurd (covers_of_alias inside third contains) (outside j inside)
  rw [instructions_eq] at member
  obtain ⟨g, grouped, rfl⟩ := List.mem_map.mp member
  have uncovered := outside _ (by rw [instructions_eq]; exact member)
  have noSource : Analysis.stageReferenceAt? (doc.ofGroup g) offset = none := by
    rw [Symbol.stageReferenceAt?_eq, List.findSome?_eq_none_iff]
    intro flag leads
    cases found : Symbol.ofFlag? (doc.ofGroup g) offset flag with
    | none => rfl
    | some symbol =>
        obtain ⟨value, here, -⟩ := Symbol.exists_isSourceAt_of_ofFlag? found
        have bound := (standsIn_value leads here.2.1).2.1
        exact absurd (covers_of_lineSpan grouped (start_lt_stop_value leads here) bound here.2.2)
          uncovered
  have noReference : Analysis.variableReferenceAt? (doc.ofGroup g) offset = none := by
    rw [Analysis.variableReferenceAt?]
    cases read : (doc.ofGroup g).argument.logical? offset with
    | none => rfl
    | some k => exact absurd ((sound_argument grouped).covers_of_logical? read) uncovered
  rw [Analysis.symbolIn?, noAlias, noSource, noReference]
  split <;> split <;> rfl

/-- The span of what is shown has proper ends and holds the offset. -/
theorem exists_proper_span {g : Statement.Group} (member : g ∈ doc.groups) {k : Nat}
    {shown : Option Symbol} (read : (doc.ofGroup g).argument.logical? offset = some k)
    (shows : Symbol.Shown (doc.ofGroup g) offset k shown) {symbol : Symbol}
    (found : shown = some symbol) : ∃ m n : Nat, symbol.span = ⟨m, n⟩ ∧ doc.IsProper m ∧
      doc.IsProper n ∧ (m : Int) ≤ offset ∧ offset < n := by
  have sound := sound_argument member
  cases shows with
  | stageAlias here =>
      rename_i word
      obtain rfl := Option.some.inj found
      have stands := (Word.all_standsIn _).1 word (Stage.alias?_mem here.2.1)
      obtain ⟨m, n, span, first, last⟩ := isProper_lineSpan member stands.filled stands.bound
        stands.isLoose_start stands.isLoose_stop
      have contains := here.2.2
      rw [span, Argument.contains_iff] at contains
      exact ⟨m, n, span, first, last, contains⟩
  | stageReference noAlias copies split before here =>
      rename_i front back flag value
      obtain rfl := Option.some.inj found
      have leads : flag ∈ Flag.leading (Word.all (doc.ofGroup g).argument.text) := by
        rw [split]
        exact List.mem_append_right _ List.mem_cons_self
      obtain ⟨-, bound, start, stop⟩ := standsIn_value leads here.2.1
      obtain ⟨m, n, span, first, last⟩ := isProper_lineSpan member (start_lt_stop_value leads here)
        bound start stop
      have contains := here.2.2
      rw [span, Argument.contains_iff] at contains
      exact ⟨m, n, span, first, last, contains⟩
  | variableReference noAlias noSource listed covers only =>
      rename_i r
      obtain rfl := Option.some.inj found
      have stands := (Reference.all_standsIn _).1 r listed
      obtain ⟨m, n, span, first, last⟩ := isProper_sourceSpan member stands.filled stands.bound
        stands.isLoose_start stands.isLoose_stop
      have contains := (sound.contains_sourceSpan_iff stands.filled stands.bound
        (sound.logical?_eq_some_iff.mp read)).mpr covers
      rw [span, Argument.contains_iff] at contains
      exact ⟨m, n, span, first, last, contains⟩
  | nothing noAlias noSource noReference => cases found

/-- What a position shows, by its offset: nothing outside the segments, and otherwise what the only
instruction with a segment there shows. -/
theorem symbolAt?_of_offsetAt? {p : Position} {o : Nat} (found : doc.offsetAt? p = some o) :
    ((∀ i ∈ doc.instructions, ¬ i.argument.Covers o) →
        (Analysis.ofDocument doc).symbolAt? p = none) ∧
      ∀ i ∈ doc.instructions, i.argument.Covers o →
        (Analysis.ofDocument doc).symbolAt? p = (Analysis.ofDocument doc).symbolIn? i o := by
  have lookup : (Analysis.ofDocument doc).symbolAt? p =
      (Instruction.at? doc.instructions o).bind
        fun i => (Analysis.ofDocument doc).symbolIn? i o := by
    rw [Analysis.symbolAt?]
    change (doc.offsetAt? p).bind _ = _
    rw [found]
    rfl
  rw [lookup]
  constructor
  · intro outside
    cases hit : Instruction.at? doc.instructions o with
    | none => rfl
    | some i => exact symbolIn?_eq_none (at?_instructions_eq_some_iff.mp hit).1 outside
  · intro i member covers
    rw [at?_instructions_of_covers member covers]
    rfl

theorem symbolAt?_eq_none_of_offsetAt? {p : Position} (missing : doc.offsetAt? p = none) :
    (Analysis.ofDocument doc).symbolAt? p = none := by
  rw [Analysis.symbolAt?]
  change (doc.offsetAt? p).bind _ = _
  rw [missing]
  rfl

/-- Only one entry of the list of instructions covers an offset. -/
theorem exists_split_of_covers (member : i ∈ doc.instructions) (covers : i.argument.Covers offset) :
    ∃ before after, doc.instructions = before ++ i :: after ∧
      ∀ j ∈ before ++ after, ¬ j.argument.Covers offset := by
  obtain ⟨before, after, split⟩ := List.append_of_mem member
  refine ⟨before, after, split, ?_⟩
  have ordered := doc.pairwise_raw
  have filled : i.raw.start ≤ i.raw.stop := start_le_stop_raw member
  rw [split] at ordered
  obtain ⟨-, later, across⟩ := List.pairwise_append.mp ordered
  have listed : ∀ j ∈ before ++ after, j ∈ doc.instructions := by
    intro j inside
    rw [split]
    rcases List.mem_append.mp inside with first | second
    · exact List.mem_append_left _ first
    · exact List.mem_append_right _ (List.mem_cons_of_mem _ second)
  intro j inside covers'
  have same := eq_of_covers (listed j inside) member covers' covers
  subst same
  rcases List.mem_append.mp inside with first | second
  · have apart := across j first j List.mem_cons_self
    omega
  · have apart := (List.pairwise_cons.mp later).1 j second
    omega

/-- Whatever is shown is shown by an instruction at one of its logical indexes. -/
theorem exists_shown {p : Position} {symbol : Symbol}
    (shows : (Analysis.ofDocument doc).symbolAt? p = some symbol) :
    ∃ o g k, doc.offsetAt? p = some o ∧ g ∈ doc.groups ∧
      (doc.ofGroup g).argument.logical? o = some k ∧
      Symbol.Shown (doc.ofGroup g) o k (some symbol) := by
  cases found : doc.offsetAt? p with
  | none => cases (symbolAt?_eq_none_of_offsetAt? found).symm.trans shows
  | some o =>
      obtain ⟨nothing, something⟩ := symbolAt?_of_offsetAt? found
      by_cases outside : ∀ i ∈ doc.instructions, ¬ i.argument.Covers o
      · cases (nothing outside).symm.trans shows
      · simp only [Classical.not_forall, Classical.not_not] at outside
        obtain ⟨i, member, covers⟩ := outside
        have same := something i member covers
        have listed := member
        rw [instructions_eq] at listed
        obtain ⟨g, grouped, rfl⟩ := List.mem_map.mp listed
        obtain ⟨k, read⟩ := (sound_argument grouped).exists_logical?_of_covers covers
        have shown := shown_symbolIn? member read covers
        rw [← same, shows] at shown
        exact ⟨o, g, k, rfl, grouped, read, shown⟩

/-- The exact classification of a position. -/
theorem symbolAt?_exact (uri text : Bytes) (short : text.length < 0x100000000) (p : Position) :
    let doc := Document.ofText uri text
    let shown := (Analysis.ofDocument doc).symbolAt? p
    (doc.offsetAt? p = none → shown = none) ∧
    (∀ o, doc.offsetAt? p = some o →
      ((∀ i ∈ doc.instructions, ¬ i.argument.Covers o) → shown = none) ∧
      ∀ i ∈ doc.instructions, i.argument.Covers o →
        (∃ before after, doc.instructions = before ++ i :: after ∧
          ∀ j ∈ before ++ after, ¬ j.argument.Covers o) ∧
        ∃ k, i.argument.logical? o = some k ∧ Symbol.Shown i o k shown) ∧
    ∀ symbol, shown = some symbol → (doc.rangeOf symbol.span).contains p = true := by
  intro doc shown
  refine ⟨symbolAt?_eq_none_of_offsetAt?, ?_, ?_⟩
  · intro o found
    obtain ⟨nothing, something⟩ := symbolAt?_of_offsetAt? found
    refine ⟨nothing, ?_⟩
    intro i member covers
    refine ⟨exists_split_of_covers member covers, ?_⟩
    have listed := member
    rw [instructions_eq] at listed
    obtain ⟨g, grouped, rfl⟩ := List.mem_map.mp listed
    obtain ⟨k, read⟩ := (sound_argument grouped).exists_logical?_of_covers covers
    refine ⟨k, read, ?_⟩
    change Symbol.Shown (doc.ofGroup g) o k ((Analysis.ofDocument doc).symbolAt? p)
    rw [something _ member covers]
    exact shown_symbolIn? member read covers
  · intro symbol shows
    obtain ⟨o, g, k, found, grouped, read, shown⟩ := exists_shown shows
    obtain ⟨m, n, span, first, last, low, high⟩ := exists_proper_span grouped read shown rfl
    rw [span, contains_rangeOf short found first last]
    omega

/-- At the name in `FROM a AS b` the classification says that the name is shown. -/
theorem symbolAt?_exact_alias :
    (utf8 "FROM a AS b").length < 0x100000000 ∧
    (Analysis.ofDocument (ofText [] (utf8 "FROM a AS b"))).symbolAt? ⟨0, 10⟩ =
      some ⟨.stageAlias, utf8 "b", ⟨10, 11⟩⟩ ∧
    ((ofText [] (utf8 "FROM a AS b")).rangeOf ⟨10, 11⟩).contains ⟨0, 10⟩ = true := by
  have short : (utf8 "FROM a AS b").length < 0x100000000 := by decide
  have shows : (Analysis.ofDocument (ofText [] (utf8 "FROM a AS b"))).symbolAt? ⟨0, 10⟩ =
      some ⟨.stageAlias, utf8 "b", ⟨10, 11⟩⟩ := by decide +kernel
  obtain ⟨-, -, range⟩ := symbolAt?_exact [] (utf8 "FROM a AS b") short ⟨0, 10⟩
  have inside := range _ shows
  exact ⟨short, shows, inside⟩

end Document

end Dockerfile
