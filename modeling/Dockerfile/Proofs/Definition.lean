import Dockerfile.Proofs.Cursor
import Dockerfile.Proofs.Variable

/-!
# Which declaration a reference finds

The declarations of a document follow one another in the text, over all instructions and lines.  So
the search for the last declaration of a name before a reference, which stops at the first
declaration that is not before it, finds the nearest of all that precede the reference, and never
one that follows it.
-/

namespace Dockerfile

namespace Variable

/-- In declarations that follow one another, stopping early leaves out none before the offset. -/
theorem lastBefore?_eq {declared : List Variable} (name : Bytes) (offset : Int)
    (ordered : declared.Pairwise fun v w => v.nameSpan.start < w.nameSpan.start) :
    lastBefore? declared name offset = (declared.filter fun v =>
      v.name == name && decide (v.nameSpan.start < offset)).getLast? := by
  have early : declared.Pairwise fun v w => decide (w.nameSpan.start < offset) = true →
      decide (v.nameSpan.start < offset) = true := by
    refine ordered.imp ?_
    intro v w less
    simp only [decide_eq_true_iff]
    omega
  rw [lastBefore?, Tokens.takeWhile_eq_filter early, List.filter_filter]

theorem mem_filter_iff {declared : List Variable} {name : Bytes} {offset : Int} {v : Variable} :
    (v ∈ declared.filter fun v => v.name == name && decide (v.nameSpan.start < offset)) ↔
      v ∈ declared ∧ v.name = name ∧ v.nameSpan.start < offset := by
  rw [List.mem_filter, Bool.and_eq_true, beq_iff_eq, decide_eq_true_iff]

/-- The search finds the declaration with the greatest start among all before the offset. -/
theorem lastBefore?_eq_some {declared : List Variable} {name : Bytes} {offset : Int} {v : Variable}
    (ordered : declared.Pairwise fun v w => v.nameSpan.start < w.nameSpan.start)
    (found : lastBefore? declared name offset = some v) :
    (v ∈ declared ∧ v.name = name ∧ v.nameSpan.start < offset) ∧
      ∀ w ∈ declared, w.name = name → w.nameSpan.start < offset →
        w = v ∨ w.nameSpan.start < v.nameSpan.start := by
  rw [lastBefore?_eq name offset ordered] at found
  refine ⟨mem_filter_iff.mp (List.mem_of_getLast? found), ?_⟩
  intro w member same less
  have inside := mem_filter_iff.mpr ⟨member, same, less⟩
  have sorted := ordered.filter fun v => v.name == name && decide (v.nameSpan.start < offset)
  obtain ⟨front, split⟩ := List.getLast?_eq_some_iff.mp found
  rw [split] at sorted inside
  rcases List.mem_append.mp inside with earlier | last
  · exact Or.inr ((List.pairwise_append.mp sorted).2.2 w earlier v (List.mem_singleton_self v))
  · exact Or.inl (List.mem_singleton.mp last)

theorem isSome_lastBefore? {declared : List Variable} {name : Bytes} {offset : Int}
    (ordered : declared.Pairwise fun v w => v.nameSpan.start < w.nameSpan.start) {v : Variable}
    (member : v ∈ declared) (same : v.name = name) (less : v.nameSpan.start < offset) :
    ∃ w, lastBefore? declared name offset = some w := by
  rw [lastBefore?_eq name offset ordered, ← Option.ne_none_iff_exists', Ne,
    List.getLast?_eq_none_iff]
  exact List.ne_nil_of_mem (mem_filter_iff.mpr ⟨member, same, less⟩)

end Variable

namespace Document

variable {doc : Document} {g : Statement.Group}

theorem length_textOf (member : g ∈ doc.groups) {s : Segment}
    (inside : s ∈ (doc.ofGroup g).argument.segments) :
    s.span.start + (Variable.textOf (doc.ofGroup g).argument s).length = s.span.stop := by
  have sound := sound_argument member
  have placed := sound.inside s inside
  rw [Variable.textOf, sound.bytes s inside, Bytes.length_slice _ (by omega)]
  omega

theorem span_siteOf_within (member : g ∈ doc.groups) {s : Segment}
    (inside : s ∈ (doc.ofGroup g).argument.segments) (keyword : Keyword) {m n : Nat} (order : m ≤ n)
    (bound : n ≤ (Variable.textOf (doc.ofGroup g).argument s).length) :
    let span := (Variable.siteOf keyword (doc.ofGroup g).argument s).span m n
    s.span.start ≤ span.start ∧ span.start ≤ span.stop ∧ span.stop ≤ s.span.stop := by
  have size := length_textOf member inside
  change s.span.start ≤ s.span.start + m ∧ s.span.start + m ≤ s.span.start + n ∧
    s.span.start + n ≤ s.span.stop
  omega

/-- The declarations of an instruction stand in its segments and follow one another. -/
theorem ofInstruction_spec (member : g ∈ doc.groups) :
    (∀ v ∈ Variable.ofInstruction (doc.ofGroup g), ∃ keyword,
      (doc.ofGroup g).keyword = some keyword ∧ keyword.declaresVariables = true ∧
      Variable.StandsIn keyword (doc.ofGroup g).argument (doc.ofGroup g).argument.segments v) ∧
      (Variable.ofInstruction (doc.ofGroup g)).Pairwise Variable.Precedes := by
  unfold Variable.ofInstruction
  split
  · rename_i keyword known
    split
    · rename_i declares
      obtain ⟨stand, ordered⟩ := Variable.readSegments_spec keyword
        (p := Variable.Progress.start) (fun s inside => inside)
        (fun s inside => length_textOf member inside) (pairwise_segments member)
        (fun v held => nomatch held)
      exact ⟨fun v listed => ⟨keyword, known, declares, (stand v listed).1⟩, ordered⟩
    · exact ⟨fun v listed => absurd listed List.not_mem_nil, List.Pairwise.nil⟩
  · exact ⟨fun v listed => absurd listed List.not_mem_nil, List.Pairwise.nil⟩

theorem within_raw (member : g ∈ doc.groups) {v : Variable}
    (listed : v ∈ Variable.ofInstruction (doc.ofGroup g)) :
    (doc.ofGroup g).raw.start ≤ v.nameSpan.start ∧ v.EndsBy (doc.ofGroup g).raw.stop := by
  obtain ⟨keyword, -, -, ⟨s, inside, index, named⟩, t, inside', valued⟩ :=
    (ofInstruction_spec member).1 v listed
  obtain ⟨-, first, last⟩ := fills_of_mem_segments member inside
  obtain ⟨-, -, last'⟩ := fills_of_mem_segments member inside'
  have lies := span_siteOf_within member inside keyword (Nat.le_add_right _ _) named.bound
  rw [← named.span] at lies
  refine ⟨Int.le_trans first lies.1, Int.le_trans lies.2.2 last, ?_⟩
  intro span found
  obtain ⟨-, m, n, rfl, order, bound⟩ := valued span found
  exact Int.le_trans (span_siteOf_within member inside' keyword order bound).2.2 last'

/-- The declarations of a document follow one another. -/
theorem pairwise_declared (doc : Document) :
    (Variable.all doc.instructions).Pairwise Variable.Precedes := by
  rw [Variable.all, instructions_eq, List.flatMap_map]
  refine List.pairwise_flatMap.mpr ⟨fun g member => (ofInstruction_spec member).2, ?_⟩
  have raw := doc.pairwise_raw
  rw [instructions_eq, List.pairwise_map] at raw
  refine List.Pairwise.imp_of_mem ?_ raw
  intro g h first second apart v listed w listed'
  have ends := (within_raw first listed).2
  have starts := (within_raw second listed').1
  exact ends.le (Int.le_trans (Int.le_of_lt apart) starts)

theorem exists_group_of_mem_declared {v : Variable} (member : v ∈ Variable.all doc.instructions) :
    ∃ g ∈ doc.groups, v ∈ Variable.ofInstruction (doc.ofGroup g) := by
  rw [Variable.all, instructions_eq, List.flatMap_map] at member
  exact List.mem_flatMap.mp member

/-- The name of a declaration is what the text has at its span, which starts at a proper offset. -/
theorem name_of_mem_declared {v : Variable} (member : v ∈ Variable.all doc.instructions) :
    (0 ≤ v.nameSpan.start ∧ v.nameSpan.start < v.nameSpan.stop ∧
        v.nameSpan.stop ≤ doc.text.length) ∧
      doc.text.slice v.nameSpan.start.toNat v.nameSpan.stop.toNat = v.name ∧
      doc.IsProper v.nameSpan.start.toNat := by
  obtain ⟨g, grouped, listed⟩ := exists_group_of_mem_declared member
  obtain ⟨keyword, -, -, ⟨s, inside, index, named⟩, -⟩ := (ofInstruction_spec grouped).1 v listed
  have sound := sound_argument grouped
  have placed := sound.inside s inside
  have size := length_textOf grouped inside
  have bytes := named.bytes
  have bound := named.bound
  have positive := List.length_pos_iff.mpr named.filled
  have same : Variable.textOf (doc.ofGroup g).argument s =
      doc.text.slice s.span.start.toNat s.span.stop.toNat := sound.bytes s inside
  have span : v.nameSpan = ⟨s.span.start + (index : Nat),
    s.span.start + (index + v.name.length : Nat)⟩ := named.span
  have start : v.nameSpan.start.toNat = s.span.start.toNat + index := by
    rw [span]
    dsimp only
    omega
  have stop : v.nameSpan.stop.toNat = s.span.start.toNat + (index + v.name.length) := by
    rw [span]
    dsimp only
    omega
  refine ⟨?_, ?_, ?_⟩
  · rw [span]
    dsimp only
    omega
  · rw [same, Bytes.slice_slice (by omega)] at bytes
    rw [start, stop]
    exact bytes.symm
  · rw [start]
    refine isProper_of_segment grouped inside (by omega) ?_
    rw [← same]
    cases index with
    | zero => exact Or.inl rfl
    | succ n =>
        have found := List.getElem?_eq_getElem
          (show n < (Variable.textOf (doc.ofGroup g).argument s).length by omega)
        exact Or.inr (Or.inr (Or.inr ⟨n, _, rfl, found,
          Bytes.ascii_of_isBlank (named.before n _ rfl found)⟩))

theorem pairwise_start_declared (doc : Document) :
    (Variable.all doc.instructions).Pairwise fun v w => v.nameSpan.start < w.nameSpan.start := by
  refine List.Pairwise.imp_of_mem ?_ doc.pairwise_declared
  intro v w member _ precedes
  obtain ⟨⟨-, filled, -⟩, -, -⟩ := name_of_mem_declared member
  have ends := precedes.1
  omega

theorem definition?_of_variableReference {p : Position} {symbol : Symbol}
    (shows : (Analysis.ofDocument doc).symbolAt? p = some symbol)
    (kind : symbol.kind = .variableReference) :
    doc.definition? p = (Variable.lastBefore? (Variable.all doc.instructions) symbol.name
      symbol.span.start).map fun v => doc.locationOf v.nameSpan := by
  rw [definition?, Analysis.definition?, shows]
  change ((Analysis.ofDocument doc).resolve? symbol).bind
    (fun span => some (doc.locationOf span)) = _
  rw [Analysis.resolve?, kind]
  change ((Variable.lastBefore? (Variable.all doc.instructions) symbol.name
    symbol.span.start).map Variable.nameSpan).bind _ = _
  cases Variable.lastBefore? (Variable.all doc.instructions) symbol.name symbol.span.start with
  | none => rfl
  | some v => rfl

end Document

/-- A declaration that a variable reference may refer to: it has the name and starts before. -/
def Symbol.MayReferTo (symbol : Symbol) (v : Variable) : Prop :=
  v.name = symbol.name ∧ v.nameSpan.start < symbol.span.start

namespace Document

/-- The nearest preceding declaration wins, and no reference goes forward. -/
theorem definition?_nearest (uri text : Bytes) (short : text.length < 0x100000000) (p : Position)
    (symbol : Symbol)
    (shows : (Analysis.ofDocument (ofText uri text)).symbolAt? p = some symbol)
    (kind : symbol.kind = .variableReference) :
    let a := Analysis.ofDocument (ofText uri text)
    ((∃ location, a.definition? p = some location) ↔
      ∃ v ∈ a.declared, symbol.MayReferTo v) ∧
    ∀ location, a.definition? p = some location →
      ∃ v ∈ a.declared, symbol.MayReferTo v ∧
        (∀ w ∈ a.declared, symbol.MayReferTo w →
          w = v ∨ w.nameSpan.start < v.nameSpan.start) ∧
        location = a.document.locationOf v.nameSpan ∧
        (0 ≤ v.nameSpan.start ∧ v.nameSpan.start < v.nameSpan.stop ∧
          v.nameSpan.stop ≤ text.length) ∧
        text.slice v.nameSpan.start.toNat v.nameSpan.stop.toNat = symbol.name ∧
        location.range.start.before p = true := by
  intro a
  have ordered := (ofText uri text).pairwise_start_declared
  have answer : a.definition? p = _ := definition?_of_variableReference shows kind
  rw [answer]
  constructor
  · constructor
    · rintro ⟨location, found⟩
      obtain ⟨v, last, -⟩ := Option.map_eq_some_iff.mp found
      obtain ⟨member, refers⟩ := (Variable.lastBefore?_eq_some ordered last).1
      exact ⟨v, member, refers⟩
    · rintro ⟨v, member, same, less⟩
      obtain ⟨w, last⟩ := Variable.isSome_lastBefore? ordered member same less
      exact ⟨_, Option.map_eq_some_iff.mpr ⟨w, last, rfl⟩⟩
  · intro location found
    obtain ⟨v, last, rfl⟩ := Option.map_eq_some_iff.mp found
    obtain ⟨⟨member, same, less⟩, greatest⟩ := Variable.lastBefore?_eq_some ordered last
    obtain ⟨inside, bytes, proper⟩ := name_of_mem_declared member
    refine ⟨v, member, ⟨same, less⟩, ?_, rfl, inside, bytes.trans same, ?_⟩
    · rintro w listed ⟨same', less'⟩
      exact greatest w listed same' less'
    · -- the reference starts at the position's offset or before it
      obtain ⟨o, g, k, offset, grouped, read, shown⟩ := exists_shown shows
      obtain ⟨m, n, span, -, -, low, -⟩ := exists_proper_span grouped read shown rfl
      rw [span] at less
      change v.nameSpan.start < m at less
      have before := positionAt_before short offset proper (by omega)
      rwa [Int.toNat_of_nonneg inside.1] at before

/-- In a text that declares the name twice before the reference and once after it, the second
declaration is found. -/
theorem definition?_nearest_second :
    ((ofText [] (utf8 "ARG A=1\nENV A=2\nRUN $A\nENV A=3")).definition? ⟨2, 5⟩) =
      some ⟨[], ⟨1, 4⟩, ⟨1, 5⟩⟩ ∧ (⟨1, 4⟩ : Position).before ⟨2, 5⟩ = true := by
  have short : (utf8 "ARG A=1\nENV A=2\nRUN $A\nENV A=3").length < 0x100000000 := by decide
  have shows : (Analysis.ofDocument
      (ofText [] (utf8 "ARG A=1\nENV A=2\nRUN $A\nENV A=3"))).symbolAt? ⟨2, 5⟩ =
        some ⟨.variableReference, utf8 "A", ⟨20, 22⟩⟩ := by decide +kernel
  have found : (ofText [] (utf8 "ARG A=1\nENV A=2\nRUN $A\nENV A=3")).definition? ⟨2, 5⟩ =
      some ⟨[], ⟨1, 4⟩, ⟨1, 5⟩⟩ := by decide +kernel
  obtain ⟨-, nearest⟩ := definition?_nearest [] _ short ⟨2, 5⟩ _ shows rfl
  obtain ⟨v, -, -, -, -, -, -, before⟩ := nearest _ found
  exact ⟨found, before⟩

end Document

end Dockerfile
