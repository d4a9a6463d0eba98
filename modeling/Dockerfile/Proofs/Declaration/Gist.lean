import Dockerfile.Proofs.Declaration.Lines

/-!
# What declarations are read by

Which names a line declares depends on the bytes of the line alone, on what the lines before have
left open and on the escape byte.  Where the line stands, and where a name stands that is held back,
shows in the spans only.  Each name is spelled by the bytes at its span.
-/

namespace Dockerfile

namespace Variable

/-- What the reading goes on by: all of its progress but where a name that is held back stands. -/
def Progress.gist (p : Progress) : Bool × Option Quote × Option Bytes × Bool :=
  (p.seen, p.quote, p.pending.map (·.name), p.closed)

def gist (found : List Variable × Progress) :
    List Bytes × Bool × Option Quote × Option Bytes × Bool :=
  (found.1.map (·.name), found.2.gist)

theorem gist_append {found found' : List Variable} {later later' : List Variable × Progress}
    (names : found.map (·.name) = found'.map (·.name)) (same : gist later = gist later') :
    gist (found ++ later.1, later.2) = gist (found' ++ later'.1, later'.2) := by
  obtain ⟨names', final⟩ := Prod.mk.inj same
  refine Prod.ext ?_ final
  dsimp only [gist]
  rw [List.map_append, List.map_append, names, names']

section Gist

variable {site site' : Site} (same : site.escape = site'.escape) {p p' : Progress}
  (alike : p.gist = p'.gist)

omit same in
include alike in
theorem Progress.eq_of_gist : p.seen = p'.seen ∧ p.quote = p'.quote ∧
    p.pending.map (·.name) = p'.pending.map (·.name) ∧ p.closed = p'.closed := by
  simpa only [Progress.gist, Prod.mk.injEq] using alike

include same alike

/-- A step takes as many bytes and declares or holds back the same name, wherever it is made. -/
theorem gist_step (index index' : Nat) (text : Bytes) :
    (step site p index text).size = (step site' p' index' text).size ∧
      (step site p index text).declared.map (·.name) =
        (step site' p' index' text).declared.map (·.name) ∧
      (step site p index text).progress.gist = (step site' p' index' text).progress.gist := by
  obtain ⟨seen, quote, pending, closed⟩ := Progress.eq_of_gist alike
  unfold step
  dsimp only
  rw [same, seen]
  split
  · refine ⟨rfl, ?_, ?_⟩
    · dsimp only
      split <;> rfl
    · simp only [Progress.gist, pending, closed]
  · split
    · exact ⟨rfl, rfl, alike⟩
    · split
      · exact ⟨rfl, rfl, by simp only [Progress.gist, quote, closed]; rfl⟩
      · exact ⟨rfl, rfl, by simp only [Progress.gist, quote, pending]⟩

theorem gist_readNames (index index' skip : Nat) (text : Bytes) :
    gist (readNames site p index skip text) = gist (readNames site' p' index' skip text) := by
  induction text generalizing p p' index index' skip with
  | nil =>
      rw [readNames, readNames]
      exact congrArg (Prod.mk []) alike
  | cons b rest ih =>
      cases skip with
      | succ skip => exact ih alike (index + 1) (index' + 1) skip
      | zero =>
          rw [readNames, readNames]
          split
          · exact ih alike (index + 1) (index' + 1) 0
          · obtain ⟨size, declared, progress⟩ := gist_step same alike index index' (b :: rest)
            have later := ih progress (index + 1) (index' + 1)
              ((step site p index (b :: rest)).size - 1)
            dsimp only
            rw [← size]
            refine gist_append ?_ later
            rw [← Option.toList_map, ← Option.toList_map, declared]

theorem gist_readText (text : Bytes) :
    gist (readText site p text) = gist (readText site' p' text) := by
  obtain ⟨seen, quote, pending, closed⟩ := Progress.eq_of_gist alike
  unfold readText
  rw [quote, same]
  split
  · exact gist_readNames same alike 0 0 0 text
  · refine gist_readNames same ?_ 0 0 _ text
    simp only [Progress.gist, seen, pending, closed]

/-- A line declares the same names wherever it stands. -/
theorem gist_readLine (text : Bytes) :
    gist (readLine site p text) = gist (readLine site' p' text) := by
  have kept : gist ([], p) = gist ([], p') := congrArg (Prod.mk []) alike
  obtain ⟨seen, quote, pending, closed⟩ := p
  obtain ⟨seen', quote', pending', closed'⟩ := p'
  obtain ⟨rfl, rfl, named, rfl⟩ := Progress.eq_of_gist alike
  cases closed with
  | true => exact kept
  | false =>
      cases pending with
      | none =>
          cases pending' with
          | none => exact gist_readText same rfl text
          | some w => cases named
      | some v =>
          cases pending' with
          | none => cases named
          | some w =>
              have named : v.name = w.name := Option.some.inj named
              have plain : Progress.gist ⟨seen, quote, none, false⟩ = _ := rfl
              have released := gist_readText same plain text
              have head : [v].map (·.name) = [w].map (·.name) := congrArg ([·]) named
              simp only [readLine, Bool.false_eq_true, ↓reduceIte]
              split
              · exact gist_append head released
              · split
                · exact kept
                · simp only [gist, Progress.gist, List.map_cons, List.map_nil, named]

end Gist

/-! ## Names are spelled by their spans -/

def spelling (text : Bytes) (v : Variable) : Bytes :=
  text.slice v.nameSpan.start.toNat v.nameSpan.stop.toNat

theorem NamedAt.spelling_eq {text : Bytes} {s : Stretch} (within : s.Within text) {site : Site}
    (starts : site.start = s.span.start) {index : Nat} {v : Variable}
    (named : NamedAt site (Argument.bytesOf text s) index v) : spelling text v = v.name := by
  have bound := named.bound
  rw [Argument.length_bytesOf within] at bound
  obtain ⟨low, order, high⟩ := within
  have first : (s.span.start + (index : Int)).toNat = s.span.start.toNat + index := by omega
  have last : (s.span.start + (index + v.name.length : Nat) : Int).toNat =
      s.span.start.toNat + (index + v.name.length) := by omega
  have bytes := named.bytes
  rw [Argument.bytesOf, Bytes.slice_slice (by omega)] at bytes
  rw [spelling, named.span, Site.span, starts]
  dsimp only
  rw [first, last, ← bytes]

section Spelling

variable {keyword : Keyword} {escape : UInt8} {text : Bytes} {p : Progress}

/-- The names on a line are spelled by the bytes at their spans, if the one held back before is. -/
theorem spelling_readLine {s : Stretch} (within : s.Within text)
    (held : ∀ v ∈ p.pending, spelling text v = v.name) {found : List Variable × Progress}
    (read : readLine ⟨keyword, escape, s.line, s.span.start⟩ p (Argument.bytesOf text s) = found) :
    ∀ v ∈ found.1 ++ found.2.pending.toList, spelling text v = v.name := by
  have here {q : Progress} (calm : q.pending = none) {v : Variable}
      (member : v ∈ (readText ⟨keyword, escape, s.line, s.span.start⟩ q
          (Argument.bytesOf text s)).1 ++ (readText ⟨keyword, escape, s.line, s.span.start⟩ q
            (Argument.bytesOf text s)).2.pending.toList) : spelling text v = v.name := by
    obtain ⟨index, -, named, -⟩ := (gathered_readText calm).stand v member
    exact named.spelling_eq within rfl
  intro v member
  rcases readLine_cases ⟨keyword, escape, s.line, s.span.start⟩ p (Argument.bytesOf text s) with
    line | ⟨calm, line⟩ | ⟨w, waits, line⟩ | ⟨w, waits, line⟩
  · rw [← read, line] at member
    exact held v (Option.mem_toList.mp member)
  · rw [← read, line] at member
    exact here calm member
  · rw [← read, line] at member
    rcases List.mem_cons.mp member with rfl | later
    · exact held v waits
    · exact here (q := { p with pending := none }) rfl later
  · rw [← read, line] at member
    obtain rfl := List.mem_singleton.mp member
    exact held w waits

/-- Every name that is read from stretches is spelled by the bytes at its span. -/
theorem spelling_readStretches {stretches : List Stretch} (within : ∀ s ∈ stretches, s.Within text)
    (held : ∀ v ∈ p.pending, spelling text v = v.name) :
    ∀ v ∈ readStretches keyword escape text p stretches, spelling text v = v.name := by
  induction stretches generalizing p with
  | nil => exact fun v member => held v (Option.mem_toList.mp member)
  | cons s rest ih =>
      obtain ⟨here, later⟩ := List.forall_mem_cons.mp within
      have line := spelling_readLine here held
        (Eq.refl (readLine ⟨keyword, escape, s.line, s.span.start⟩ p (Argument.bytesOf text s)))
      intro v member
      rcases List.mem_append.mp member with now | after
      · exact line v (List.mem_append_left _ now)
      · refine ih later (fun w waits => ?_) v after
        exact line w (List.mem_append_right _ (Option.mem_toList.mpr waits))

end Spelling

end Variable

end Dockerfile
