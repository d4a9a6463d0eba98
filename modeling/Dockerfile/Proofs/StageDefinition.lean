import Dockerfile.Proofs.Cursor

/-!
# Where stage names lead

A stage's name leads to itself from everywhere in its range.  A `--from` value leads to the first
stage of its name, and from there the answer does not change.  The value is never read as anything
else on the line where it starts; what a continuation moves to later lines is no longer recognised
as part of the value, and a variable reference there is found.
-/

namespace Dockerfile

namespace Stage

theorem pairwise_collect {rel : Stage → Stage → Prop} (index : Nat)
    {instructions : List Instruction}
    (ordered : instructions.Pairwise fun i j => ∀ m n s t,
      ofArgument? m i.argument = some s → ofArgument? n j.argument = some t → rel s t) :
    (collect index instructions).Pairwise rel := by
  induction instructions generalizing index with
  | nil => exact List.Pairwise.nil
  | cons i rest ih =>
      obtain ⟨first, later⟩ := List.pairwise_cons.mp ordered
      rw [collect]
      split
      · refine List.pairwise_append.mpr ⟨?_, ih _ later, ?_⟩
        · cases ofArgument? index i.argument with
          | none => exact List.Pairwise.nil
          | some s => exact List.pairwise_singleton _ _
        · intro s here t there
          obtain ⟨j, inside, -, n, named⟩ := exists_of_mem_collect there
          exact first j inside index n s t (Option.mem_toList.mp here) named
      · exact ih _ later

/-- The search by name finds the first of the stages that have the name. -/
theorem find?_eq_some {stages : List Stage} {name : Bytes} {stage : Stage}
    {rel : Stage → Stage → Prop} (ordered : stages.Pairwise rel)
    (found : find? stages name = some stage) :
    stage ∈ stages ∧ stage.name = name ∧
      ∀ other ∈ stages, other.name = name → other = stage ∨ rel stage other := by
  obtain ⟨named, before, after, split, missed⟩ := List.find?_eq_some_iff_append.mp found
  rw [split] at ordered ⊢
  refine ⟨List.mem_append_right _ List.mem_cons_self, beq_iff_eq.mp named, ?_⟩
  intro other member same
  rcases List.mem_append.mp member with earlier | later
  · have different := missed other earlier
    simp [same] at different
  · rcases List.mem_cons.mp later with here | beyond
    · exact Or.inl here
    · exact Or.inr ((List.pairwise_cons.mp (List.pairwise_append.mp ordered).2.1).1 other beyond)

theorem find?_eq_none_iff {stages : List Stage} {name : Bytes} :
    find? stages name = none ↔ ∀ stage ∈ stages, stage.name ≠ name := by
  rw [find?, List.find?_eq_none]
  simp only [beq_iff_eq, ne_eq]

end Stage

namespace Document

variable {doc : Document}

theorem exists_alias_of_mem_stages {stage : Stage} (listed : stage ∈ Stage.all doc.instructions) :
    ∃ g ∈ doc.groups, (doc.ofGroup g).opensStage = true ∧ ∃ word,
      Stage.alias? (doc.ofGroup g).argument = some word ∧ stage.name = word.text ∧
      stage.nameSpan = (doc.ofGroup g).argument.lineSpan word.start word.stop := by
  obtain ⟨i, member, opens, n, named⟩ := Stage.exists_of_mem_collect listed
  rw [instructions_eq] at member
  obtain ⟨g, grouped, rfl⟩ := List.mem_map.mp member
  obtain ⟨word, third, rfl⟩ := Option.map_eq_some_iff.mp named
  exact ⟨g, grouped, opens, word, third, rfl, rfl⟩

theorem lineSpan_within_raw {g : Statement.Group} (member : g ∈ doc.groups) {start stop : Nat}
    (filled : start < stop) (bound : stop ≤ (doc.ofGroup g).argument.text.length) :
    (doc.ofGroup g).raw.start ≤ ((doc.ofGroup g).argument.lineSpan start stop).start ∧
      ((doc.ofGroup g).argument.lineSpan start stop).stop ≤ (doc.ofGroup g).raw.stop := by
  obtain ⟨s, inside, -, low, -, high⟩ := (sound_argument member).lineSpan_inside filled bound
  obtain ⟨-, first, last⟩ := fills_of_mem_segments member inside
  omega

theorem pairwise_stages (doc : Document) :
    (Stage.all doc.instructions).Pairwise fun s t => s.nameSpan.stop < t.nameSpan.start := by
  refine Stage.pairwise_collect 0 ?_
  refine List.Pairwise.imp_of_mem ?_ doc.pairwise_raw
  intro i j first second apart m n s t named named'
  rw [instructions_eq] at first second
  obtain ⟨g, grouped, rfl⟩ := List.mem_map.mp first
  obtain ⟨h, grouped', rfl⟩ := List.mem_map.mp second
  obtain ⟨word, third, rfl⟩ := Option.map_eq_some_iff.mp named
  obtain ⟨word', third', rfl⟩ := Option.map_eq_some_iff.mp named'
  have stands := (Word.all_standsIn _).1 word (Stage.alias?_mem third)
  have stands' := (Word.all_standsIn _).1 word' (Stage.alias?_mem third')
  have ends := (lineSpan_within_raw grouped stands.filled stands.bound).2
  have starts := (lineSpan_within_raw grouped' stands'.filled stands'.bound).1
  dsimp only
  omega

/-- Both ends of a span on one line of an argument lie on the same line of the document. -/
theorem lineOf_lineSpan {g : Statement.Group} (member : g ∈ doc.groups) {start stop m n : Nat}
    (filled : start < stop) (bound : stop ≤ (doc.ofGroup g).argument.text.length)
    (span : (doc.ofGroup g).argument.lineSpan start stop = ⟨m, n⟩) :
    m < n ∧ doc.lineOf m = doc.lineOf n := by
  obtain ⟨s, inside, -, low, order, high⟩ := (sound_argument member).lineSpan_inside filled bound
  obtain ⟨index, line, found, -, first, last⟩ := exists_line_of_mem_segments member inside
  rw [span] at low order high
  dsimp only at low order high
  have onFirst : doc.lineOf m = index := lineOf_eq found (by omega) (by omega)
  have onLast : doc.lineOf n = index := lineOf_eq found (by omega) (by omega)
  exact ⟨by omega, onFirst.trans onLast.symm⟩

theorem exists_proper_nameSpan {stage : Stage} (listed : stage ∈ Stage.all doc.instructions) :
    ∃ m n : Nat, stage.nameSpan = ⟨m, n⟩ ∧ m < n ∧ doc.IsProper m ∧ doc.IsProper n ∧
      doc.lineOf m = doc.lineOf n := by
  obtain ⟨g, grouped, -, word, third, -, span⟩ := exists_alias_of_mem_stages listed
  have stands := (Word.all_standsIn _).1 word (Stage.alias?_mem third)
  obtain ⟨m, n, ends, first, last⟩ := isProper_lineSpan grouped stands.filled stands.bound
    stands.isLoose_start stands.isLoose_stop
  obtain ⟨filled, together⟩ := lineOf_lineSpan grouped stands.filled stands.bound ends
  exact ⟨m, n, span.trans ends, filled, first, last, together⟩

/-- Where an instruction names its stage, that name is shown. -/
theorem symbolAt?_of_isAliasAt {i : Instruction} {word : Word} {p : Position} {o : Nat}
    (member : i ∈ doc.instructions) (found : doc.offsetAt? p = some o)
    (here : Symbol.IsAliasAt i o word) : (Analysis.ofDocument doc).symbolAt? p =
      some ⟨.stageAlias, word.text, i.argument.lineSpan word.start word.stop⟩ := by
  have covers := covers_of_alias member here.2.1 here.2.2
  rw [(symbolAt?_of_offsetAt? found).2 i member covers]
  have listed := member
  rw [instructions_eq] at listed
  obtain ⟨g, grouped, rfl⟩ := List.mem_map.mp listed
  obtain ⟨k, read⟩ := (sound_argument grouped).exists_logical?_of_covers covers
  have shown := shown_symbolIn? member read covers
  generalize (Analysis.ofDocument doc).symbolIn? (doc.ofGroup g) o = symbol at shown
  cases shown with
  | stageAlias there => rw [Option.some.inj (there.2.1.symm.trans here.2.1)]
  | stageReference noAlias => exact absurd here (noAlias word)
  | variableReference noAlias => exact absurd here (noAlias word)
  | nothing noAlias => exact absurd here (noAlias word)

theorem symbolAt?_of_mem_stages (short : doc.text.length < 0x100000000) {stage : Stage}
    (listed : stage ∈ Stage.all doc.instructions) {p : Position}
    (contains : (doc.rangeOf stage.nameSpan).contains p = true) :
    (Analysis.ofDocument doc).symbolAt? p =
      some ⟨.stageAlias, stage.name, stage.nameSpan⟩ := by
  obtain ⟨m, n, ends, -, first, last, together⟩ := exists_proper_nameSpan listed
  rw [ends] at contains
  obtain ⟨o, found⟩ := exists_offsetAt?_of_contains short first last together contains
  obtain ⟨low, high⟩ := (contains_rangeOf short found first last).mp contains
  obtain ⟨g, grouped, opens, word, third, name, span⟩ := exists_alias_of_mem_stages listed
  have here : Symbol.IsAliasAt (doc.ofGroup g) o word := by
    refine ⟨Instruction.opensStage_iff.mp opens, third, ?_⟩
    rw [← span, ends, Argument.contains_iff]
    dsimp only
    omega
  rw [symbolAt?_of_isAliasAt (ofGroup_mem_instructions grouped) found here, name, span]

theorem contains_start_nameSpan (short : doc.text.length < 0x100000000) {stage : Stage}
    (listed : stage ∈ Stage.all doc.instructions) :
    (doc.rangeOf stage.nameSpan).contains (doc.positionAt stage.nameSpan.start) = true := by
  obtain ⟨m, n, ends, filled, first, last, -⟩ := exists_proper_nameSpan listed
  rw [ends, contains_rangeOf short (offsetAt?_positionAt short first) first last]
  omega

theorem definition?_of_stageAlias {p : Position} {name : Bytes} {span : Span}
    (shows : (Analysis.ofDocument doc).symbolAt? p = some ⟨.stageAlias, name, span⟩) :
    (Analysis.ofDocument doc).definition? p = some (doc.locationOf span) := by
  rw [Analysis.definition?, shows]
  rfl

theorem definition?_of_stageReference {p : Position} {symbol : Symbol}
    (shows : (Analysis.ofDocument doc).symbolAt? p = some symbol)
    (kind : symbol.kind = .stageReference) :
    (Analysis.ofDocument doc).definition? p = (Stage.find? (Stage.all doc.instructions)
      symbol.name).map fun stage => doc.locationOf stage.nameSpan := by
  rw [Analysis.definition?, shows]
  change ((Analysis.ofDocument doc).resolve? symbol).bind
    (fun span => some (doc.locationOf span)) = _
  rw [Analysis.resolve?, kind]
  change ((Stage.find? (Stage.all doc.instructions) symbol.name).map Stage.nameSpan).bind _ = _
  cases Stage.find? (Stage.all doc.instructions) symbol.name with
  | none => rfl
  | some stage => rfl

/-- A stage's name leads to itself, and a reference to a stage leads to the first stage of the name
and stays there. -/
theorem definition?_stage (uri text : Bytes) (short : text.length < 0x100000000) :
    let a := Analysis.ofDocument (ofText uri text)
    (∀ stage ∈ a.stages,
      (a.document.rangeOf stage.nameSpan).contains
          (a.document.positionAt stage.nameSpan.start) = true ∧
      ∀ p, (a.document.rangeOf stage.nameSpan).contains p = true →
        a.symbolAt? p = some ⟨.stageAlias, stage.name, stage.nameSpan⟩ ∧
        a.definition? p = some (a.document.locationOf stage.nameSpan)) ∧
    ∀ p symbol, a.symbolAt? p = some symbol → symbol.kind = .stageReference →
      (a.definition? p = none ↔ ∀ stage ∈ a.stages, stage.name ≠ symbol.name) ∧
      ∀ location, a.definition? p = some location →
        (∃ stage ∈ a.stages, stage.name = symbol.name ∧
          (∀ other ∈ a.stages, other.name = symbol.name →
            other = stage ∨ stage.nameSpan.stop < other.nameSpan.start) ∧
          location = a.document.locationOf stage.nameSpan) ∧
        ∀ q, location.range.contains q = true → a.definition? q = some location := by
  intro a
  have leads : ∀ stage ∈ a.stages, ∀ p, (a.document.rangeOf stage.nameSpan).contains p = true →
      a.symbolAt? p = some ⟨.stageAlias, stage.name, stage.nameSpan⟩ ∧
      a.definition? p = some (a.document.locationOf stage.nameSpan) := by
    intro stage listed p contains
    have shows : a.symbolAt? p = _ := symbolAt?_of_mem_stages short listed contains
    exact ⟨shows, definition?_of_stageAlias shows⟩
  refine ⟨fun stage listed => ⟨contains_start_nameSpan short listed, leads stage listed⟩, ?_⟩
  intro p symbol shows kind
  have answer : a.definition? p = _ := definition?_of_stageReference shows kind
  rw [answer]
  constructor
  · rw [Option.map_eq_none_iff]
    exact Stage.find?_eq_none_iff
  · intro location found
    obtain ⟨stage, first, rfl⟩ := Option.map_eq_some_iff.mp found
    obtain ⟨listed, name, before⟩ := Stage.find?_eq_some (pairwise_stages _) first
    exact ⟨⟨stage, listed, name, before, rfl⟩, fun q inside => (leads stage listed q inside).2⟩

/-- With two stages of one name, a reference to it leads to the first, whose range leads to itself;
the second leads to itself as well. -/
theorem definition?_stage_first :
    (Analysis.ofDocument (ofText []
      (utf8 "FROM x AS a\nFROM y AS a\nCOPY --from=a . ."))).definition? ⟨2, 12⟩ =
        some ⟨[], ⟨0, 10⟩, ⟨0, 11⟩⟩ ∧
    (Analysis.ofDocument (ofText []
      (utf8 "FROM x AS a\nFROM y AS a\nCOPY --from=a . ."))).definition? ⟨0, 10⟩ =
        some ⟨[], ⟨0, 10⟩, ⟨0, 11⟩⟩ ∧
    (Analysis.ofDocument (ofText []
      (utf8 "FROM x AS a\nFROM y AS a\nCOPY --from=a . ."))).definition? ⟨1, 10⟩ =
        some ⟨[], ⟨1, 10⟩, ⟨1, 11⟩⟩ := by
  have short : (utf8 "FROM x AS a\nFROM y AS a\nCOPY --from=a . .").length < 0x100000000 := by
    decide
  have shows : (Analysis.ofDocument (ofText []
      (utf8 "FROM x AS a\nFROM y AS a\nCOPY --from=a . ."))).symbolAt? ⟨2, 12⟩ =
        some ⟨.stageReference, utf8 "a", ⟨36, 37⟩⟩ := by decide +kernel
  have found : (Analysis.ofDocument (ofText []
      (utf8 "FROM x AS a\nFROM y AS a\nCOPY --from=a . ."))).definition? ⟨2, 12⟩ =
        some ⟨[], ⟨0, 10⟩, ⟨0, 11⟩⟩ := by decide +kernel
  have second : (⟨utf8 "a", ⟨22, 23⟩, 1, 1⟩ : Stage) ∈ (Analysis.ofDocument (ofText []
      (utf8 "FROM x AS a\nFROM y AS a\nCOPY --from=a . ."))).stages := by decide +kernel
  obtain ⟨itself, reference⟩ := definition?_stage [] _ short
  have again := ((reference ⟨2, 12⟩ _ shows rfl).2 _ found).2 ⟨0, 10⟩ (by decide)
  have other := ((itself _ second).2 ⟨1, 10⟩ (by decide +kernel)).2
  have range : (ofText [] (utf8 "FROM x AS a\nFROM y AS a\nCOPY --from=a . .")).locationOf
      ⟨22, 23⟩ = ⟨[], ⟨1, 10⟩, ⟨1, 11⟩⟩ := by decide +kernel
  exact ⟨found, again, other.trans (congrArg some range)⟩

/-! ## Values of `--from` -/

/-- A `COPY` refers to a stage with the value of a leading `--from` flag, and the value covers a
logical index of the argument. -/
structure RefersAt (doc : Document) (i : Instruction) (flag : Flag) (value : Word) (k : Nat) :
    Prop where
  member : i ∈ doc.instructions
  copies : i.keyword = some .copy
  leads : flag ∈ Flag.leading (Word.all i.argument.text)
  named : flag.name.text = utf8 "from"
  valued : flag.value = some value
  inside : value.start ≤ k ∧ k < value.stop

namespace RefersAt

variable {i : Instruction} {flag : Flag} {value : Word} {k : Nat}

/-- The byte of a covered index was read from the offset that the argument gives for it. -/
theorem reads (refers : doc.RefersAt i flag value k) :
    i.argument.Sound doc.text ∧ i.argument.Reads k (i.argument.source k) := by
  have listed := refers.member
  rw [instructions_eq] at listed
  obtain ⟨g, grouped, rfl⟩ := List.mem_map.mp listed
  have sound := sound_argument grouped
  have bound := (standsIn_value refers.leads refers.valued).2.1
  have inside := refers.inside
  obtain ⟨offset, reads⟩ := sound.exists_reads (show k < _ by omega)
  rw [sound.source_eq reads]
  exact ⟨sound, reads⟩

/-- The search by offset finds the flag on the line where its value starts, and there alone. -/
theorem isSourceAt_iff (refers : doc.RefersAt i flag value k) {other : Flag} {value' : Word}
    (leads : other ∈ Flag.leading (Word.all i.argument.text)) :
    Symbol.IsSourceAt i (i.argument.source k) other value' ↔
      (other = flag ∧ value' = value) ∧
        i.argument.segmentAt? k = i.argument.segmentAt? value.start := by
  obtain ⟨sound, reads⟩ := refers.reads
  constructor
  · intro here
    have bound := (standsIn_value leads here.2.1).2.1
    obtain ⟨inside, segment⟩ :=
      (sound.contains_lineSpan_iff (start_lt_stop_value leads here) bound reads).mp here.2.2
    have same := Flag.eq_of_value_shared leads refers.leads here.2.1 refers.valued inside
      refers.inside
    subst same
    have equal := Option.some.inj (here.2.1.symm.trans refers.valued)
    subst equal
    exact ⟨⟨rfl, rfl⟩, segment⟩
  · rintro ⟨⟨rfl, rfl⟩, segment⟩
    have bound := (standsIn_value refers.leads refers.valued).2.1
    have inside := refers.inside
    refine ⟨refers.named, refers.valued, ?_⟩
    rw [sound.contains_lineSpan_iff (by omega) bound reads]
    exact ⟨inside, segment⟩

theorem shown (refers : doc.RefersAt i flag value k) {p : Position} {o : Nat}
    (found : doc.offsetAt? p = some o) (offset : (o : Int) = i.argument.source k) :
    Symbol.Shown i (i.argument.source k) k ((Analysis.ofDocument doc).symbolAt? p) := by
  obtain ⟨sound, reads⟩ := refers.reads
  have read := sound.logical?_eq_some_iff.mpr reads
  have covers := sound.covers_of_logical? read
  rw [← offset] at read covers ⊢
  rw [(symbolAt?_of_offsetAt? found).2 i refers.member covers]
  exact shown_symbolIn? refers.member read covers

theorem not_isAliasAt (refers : doc.RefersAt i flag value k) (offset : Int) (word : Word) :
    ¬ Symbol.IsAliasAt i offset word := by
  rintro ⟨opens, -⟩
  cases refers.copies.symm.trans opens

/-- On the line where the value starts, the reference to the stage is shown. -/
theorem symbolAt?_first_line (refers : doc.RefersAt i flag value k) {p : Position} {o : Nat}
    (found : doc.offsetAt? p = some o) (offset : (o : Int) = i.argument.source k)
    (segment : i.argument.segmentAt? k = i.argument.segmentAt? value.start) :
    (Analysis.ofDocument doc).symbolAt? p =
      some ⟨.stageReference, value.text, i.argument.lineSpan value.start value.stop⟩ := by
  have here := (refers.isSourceAt_iff refers.leads).mpr ⟨⟨rfl, rfl⟩, segment⟩
  have shown := refers.shown found offset
  generalize (Analysis.ofDocument doc).symbolAt? p = symbol at shown
  cases shown with
  | stageAlias there => exact absurd there (refers.not_isAliasAt _ _)
  | stageReference noAlias copies split before there =>
      have leads := split ▸ List.mem_append_right _ List.mem_cons_self
      obtain ⟨⟨-, same⟩, -⟩ := (refers.isSourceAt_iff leads).mp there
      rw [same]
  | variableReference noAlias noSource =>
      exact absurd here (noSource refers.copies flag refers.leads value)
  | nothing noAlias noSource =>
      exact absurd here (noSource refers.copies flag refers.leads value)

/-- On later lines, what is shown is the variable reference there, if there is one. -/
theorem symbolAt?_later_line (refers : doc.RefersAt i flag value k) {p : Position} {o : Nat}
    (found : doc.offsetAt? p = some o) (offset : (o : Int) = i.argument.source k)
    (segment : i.argument.segmentAt? k ≠ i.argument.segmentAt? value.start) :
    (Analysis.ofDocument doc).symbolAt? p = (Reference.at? i.argument.text k).map fun r =>
      ⟨.variableReference, r.name, i.argument.sourceSpan r.start r.stop⟩ := by
  have shown := refers.shown found offset
  generalize (Analysis.ofDocument doc).symbolAt? p = symbol at shown
  cases shown with
  | stageAlias there => exact absurd there (refers.not_isAliasAt _ _)
  | stageReference noAlias copies split before there =>
      have leads := split ▸ List.mem_append_right _ List.mem_cons_self
      exact absurd ((refers.isSourceAt_iff leads).mp there).2 segment
  | variableReference noAlias noSource listed covers only =>
      rw [Reference.at?_eq_some_iff.mpr ⟨listed, covers⟩]
      rfl
  | nothing noAlias noSource noReference =>
      cases hit : Reference.at? i.argument.text k with
      | none => rfl
      | some r =>
          obtain ⟨listed, covers⟩ := Reference.at?_eq_some_iff.mp hit
          exact absurd covers (noReference r listed)

end RefersAt

/-- Inside the value of a `--from` flag: on the line where the value starts no variable is found,
and the answer is the first stage that has the value as its name, or nothing.  On later lines the
value is not recognised. -/
theorem definition?_source_value (doc : Document) (i : Instruction) (flag : Flag) (value : Word)
    (k : Nat) (refers : doc.RefersAt i flag value k) (p : Position) (o : Nat)
    (found : doc.offsetAt? p = some o) (offset : (o : Int) = i.argument.source k) :
    let a := Analysis.ofDocument doc
    (i.argument.segmentAt? k = i.argument.segmentAt? value.start →
      a.symbolAt? p =
        some ⟨.stageReference, value.text, i.argument.lineSpan value.start value.stop⟩ ∧
      (a.definition? p = none ∧ (∀ stage ∈ a.stages, stage.name ≠ value.text) ∨
        ∃ stage ∈ a.stages, stage.name = value.text ∧
          (∀ other ∈ a.stages, other.name = value.text →
            other = stage ∨ stage.nameSpan.stop < other.nameSpan.start) ∧
          a.definition? p = some (doc.locationOf stage.nameSpan))) ∧
    (i.argument.segmentAt? k ≠ i.argument.segmentAt? value.start →
      a.symbolAt? p = (Reference.at? i.argument.text k).map fun r =>
        ⟨.variableReference, r.name, i.argument.sourceSpan r.start r.stop⟩) := by
  intro a
  refine ⟨?_, refers.symbolAt?_later_line found offset⟩
  intro segment
  have shows := refers.symbolAt?_first_line found offset segment
  refine ⟨shows, ?_⟩
  have answer : a.definition? p = _ := definition?_of_stageReference shows rfl
  rw [answer]
  cases first : Stage.find? (Stage.all doc.instructions) value.text with
  | none => exact Or.inl ⟨rfl, Stage.find?_eq_none_iff.mp first⟩
  | some stage =>
      obtain ⟨listed, name, before⟩ := Stage.find?_eq_some (pairwise_stages doc) first
      exact Or.inr ⟨stage, listed, name, before, rfl⟩

/-- A value that is split after its first byte: the stage of the whole name is found on the first
line, and nothing on the second. -/
theorem definition?_source_value_split :
    (Analysis.ofDocument (ofText []
      (utf8 "FROM x AS ab\nCOPY --from=a\\\nb . ."))).symbolAt? ⟨1, 12⟩ =
        some ⟨.stageReference, utf8 "ab", ⟨25, 26⟩⟩ ∧
    (Analysis.ofDocument (ofText []
      (utf8 "FROM x AS ab\nCOPY --from=a\\\nb . ."))).symbolAt? ⟨2, 0⟩ = none := by
  let i : Instruction :=
    { name := utf8 "COPY"
      keyword := some .copy
      keywordSpan := ⟨13, 17⟩
      argument := ⟨utf8 "--from=ab . .", Byte.backslash,
        [⟨⟨1, ⟨18, 26⟩⟩, 0⟩, ⟨⟨2, ⟨28, 33⟩⟩, 8⟩], 33⟩
      form := .plain
      raw := ⟨13, 33⟩ }
  have refers (k : Nat) (inside : 7 ≤ k ∧ k < 9) :
      (ofText [] (utf8 "FROM x AS ab\nCOPY --from=a\\\nb . .")).RefersAt i
        ⟨⟨utf8 "from", 2, 6⟩, some ⟨utf8 "ab", 7, 9⟩⟩ ⟨utf8 "ab", 7, 9⟩ k :=
    ⟨by decide +kernel, rfl, by decide +kernel, rfl, rfl, inside⟩
  have first := definition?_source_value _ i _ _ 7 (refers 7 (by decide)) ⟨1, 12⟩ 25
    (by decide +kernel) (by decide +kernel)
  have second := definition?_source_value _ i _ _ 8 (refers 8 (by decide)) ⟨2, 0⟩ 28
    (by decide +kernel) (by decide +kernel)
  exact ⟨(first.1 rfl).1, second.2 (by decide +kernel)⟩

/-- A variable reference on the second line of a value is found, although the value is not that of
a variable: `$s` here belongs to the value `a$s`, which is the name of no stage. -/
theorem source_value_expanded_on_later_line :
    (∃ i flag value, (ofText [] (utf8 "ARG s\nCOPY --from=a\\\n$s . .")).RefersAt i flag value 8 ∧
      value.text = utf8 "a$s" ∧ (ofText [] (utf8 "ARG s\nCOPY --from=a\\\n$s . .")).positionAt
        (i.argument.source 8) = ⟨2, 0⟩) ∧
    (Analysis.ofDocument (ofText [] (utf8 "ARG s\nCOPY --from=a\\\n$s . ."))).stages = [] ∧
    (Analysis.ofDocument (ofText []
      (utf8 "ARG s\nCOPY --from=a\\\n$s . ."))).symbolAt? ⟨2, 0⟩ =
        some ⟨.variableReference, utf8 "s", ⟨21, 23⟩⟩ ∧
    (Analysis.ofDocument (ofText []
      (utf8 "ARG s\nCOPY --from=a\\\n$s . ."))).definition? ⟨2, 0⟩ =
        some ⟨[], ⟨0, 4⟩, ⟨0, 5⟩⟩ := by
  let i : Instruction :=
    { name := utf8 "COPY"
      keyword := some .copy
      keywordSpan := ⟨6, 10⟩
      argument := ⟨utf8 "--from=a$s . .", Byte.backslash,
        [⟨⟨1, ⟨11, 19⟩⟩, 0⟩, ⟨⟨2, ⟨21, 27⟩⟩, 8⟩], 27⟩
      form := .plain
      raw := ⟨6, 27⟩ }
  have refers : (ofText [] (utf8 "ARG s\nCOPY --from=a\\\n$s . .")).RefersAt i
      ⟨⟨utf8 "from", 2, 6⟩, some ⟨utf8 "a$s", 7, 10⟩⟩ ⟨utf8 "a$s", 7, 10⟩ 8 :=
    ⟨by decide +kernel, rfl, by decide +kernel, rfl, rfl, by decide⟩
  exact ⟨⟨i, _, _, refers, rfl, by decide +kernel⟩, by decide +kernel, by decide +kernel,
    by decide +kernel⟩

end Document

end Dockerfile
