import Dockerfile.Proofs.Relocation.Statement
import Dockerfile.Proofs.Definition

/-!
# Moved declarations

The declarations on a line are read from the line's bytes, and their spans count from the line's
start.  So they move along with the line, and a name that is held back moves with the line it was
read on.
-/

namespace Dockerfile

def Variable.move (r : Relocation) (v : Variable) : Variable :=
  { v with
    nameSpan := v.nameSpan.move r
    valueSpan := v.valueSpan.map (Span.move r)
    line := r.line v.line }

namespace Variable

@[simp] theorem name_move (r : Relocation) (v : Variable) : (v.move r).name = v.name := rfl

@[simp] theorem nameSpan_move (r : Relocation) (v : Variable) :
    (v.move r).nameSpan = v.nameSpan.move r := rfl

@[simp] theorem line_move (r : Relocation) (v : Variable) :
    (v.move r).line = r.line v.line := rfl

def Progress.move (r : Relocation) (p : Progress) : Progress :=
  { p with pending := p.pending.map (Variable.move r) }

@[simp] theorem Progress.seen_move (r : Relocation) (p : Progress) :
    (p.move r).seen = p.seen := rfl

@[simp] theorem Progress.quote_move (r : Relocation) (p : Progress) :
    (p.move r).quote = p.quote := rfl

@[simp] theorem Progress.pending_move (r : Relocation) (p : Progress) :
    (p.move r).pending = p.pending.map (Variable.move r) := rfl

def moveRead (r : Relocation) (found : List Variable × Progress) : List Variable × Progress :=
  (found.1.map (Variable.move r), found.2.move r)

def Step.move (r : Relocation) (taken : Step) : Step :=
  ⟨taken.declared.map (Variable.move r), taken.size, taken.progress.move r⟩

def Site.move (r : Relocation) (site : Site) : Site :=
  { site with line := r.line site.line, start := r.byte site.start }

@[simp] theorem Site.escape_move (r : Relocation) (site : Site) :
    (site.move r).escape = site.escape := rfl

section Line

variable {r : Relocation} {site : Site} {room : Nat}
  (keeps : r.Keeps ⟨site.start, site.start + room⟩)
include keeps

theorem Site.span_move {start stop : Nat} (first : start ≤ room) (last : stop ≤ room) :
    (site.move r).span start stop = (site.span start stop).move r := by
  have moved := keeps.together start (by dsimp only; omega)
  have moved' := keeps.together stop (by dsimp only; omega)
  simp only [Site.span, Site.move, Span.move, moved, moved']

theorem Site.declare_move {index : Nat} {name : Bytes} (fits : index + name.length ≤ room)
    (valueSpan : Option Span) :
    (site.move r).declare index name (valueSpan.map (Span.move r)) =
      (site.declare index name valueSpan).move r := by
  simp only [Site.declare, Variable.move, Site.span_move keeps (Nat.le_of_add_right_le fits) fits]
  rfl

theorem Site.declare_valued_move {index start stop : Nat} {name : Bytes}
    (fits : index + name.length ≤ room) (first : start ≤ room) (last : stop ≤ room) :
    (site.move r).declare index name (some ((site.move r).span start stop)) =
      (site.declare index name (some (site.span start stop))).move r := by
  rw [Site.span_move keeps first last, ← Site.declare_move keeps fits]
  rfl

/-- A step takes the same bytes and declares the moved variable. -/
theorem step_move (p : Progress) {index : Nat} {text : Bytes} (fits : index + text.length ≤ room) :
    step (site.move r) (p.move r) index text = (step site p index text).move r := by
  have whole := List.takeWhile_append_dropWhile (p := (!endsName ·)) (l := text)
  unfold step
  generalize text.takeWhile (!endsName ·) = name at whole ⊢
  generalize text.dropWhile (!endsName ·) = rest at whole ⊢
  obtain rfl := whole
  rw [List.length_append] at fits
  have bare : (site.move r).declare index name none = (site.declare index name none).move r :=
    Site.declare_move keeps (by omega) none
  dsimp only [Site.escape_move]
  split
  · rename_i equals
    have positive : 0 < rest.length := by
      rw [List.length_pos_iff]
      rintro rfl
      cases equals
    have bound := value_le site.escape none (rest.drop 1)
    rw [List.length_drop] at bound
    rw [Site.declare_valued_move keeps (by omega) (by omega) (by omega)]
    split <;> rfl
  · cases seen : p.seen with
    | true =>
        simp only [Progress.seen_move, seen, bare, ↓reduceIte]
        rfl
    | false =>
        simp only [Progress.seen_move, seen, bare, Bool.false_eq_true, ↓reduceIte]
        split
        · rfl
        · -- the value takes the rest of the line, without the blanks around it
          have bound := Bytes.indent_add_length_trim_le rest
          rw [Site.declare_valued_move keeps (by omega) (by omega) (by omega)]
          rfl

theorem readNames_move (p : Progress) {index : Nat} (skip : Nat) {text : Bytes}
    (fits : index + text.length ≤ room) :
    readNames (site.move r) (p.move r) index skip text =
      moveRead r (readNames site p index skip text) := by
  induction text generalizing p index skip with
  | nil => simp [readNames, moveRead]
  | cons b rest ih =>
      have fits' : index + 1 + rest.length ≤ room := by
        rw [List.length_cons] at fits
        omega
      cases skip with
      | succ skip => exact ih p skip fits'
      | zero =>
          rw [readNames, readNames]
          split
          · exact ih p 0 fits'
          · rw [step_move keeps p fits]
            dsimp only [Step.move]
            rw [ih _ _ fits']
            simp [moveRead, Option.toList_map]

theorem readText_move (p : Progress) {text : Bytes} (fits : text.length ≤ room) :
    readText (site.move r) (p.move r) text = moveRead r (readText site p text) := by
  have fits' : 0 + text.length ≤ room := by omega
  unfold readText
  rw [Progress.quote_move]
  split
  · exact readNames_move keeps p 0 fits'
  · rename_i q unclosed
    exact readNames_move keeps { p with quote := (value site.escape (some q) text).2 } _ fits'

/-- What is read from a line moves along with the line and the name held back. -/
theorem readLine_move (p : Progress) {text : Bytes} (fits : text.length ≤ room) :
    readLine (site.move r) (p.move r) text = moveRead r (readLine site p text) := by
  obtain ⟨seen, quote, pending, closed⟩ := p
  cases closed with
  | true => rfl
  | false =>
      cases pending with
      | none => exact readText_move keeps ⟨seen, quote, none, false⟩ fits
      | some v =>
          have released : readText (site.move r) ⟨seen, quote, none, false⟩ text =
              moveRead r (readText site ⟨seen, quote, none, false⟩ text) :=
            readText_move keeps ⟨seen, quote, none, false⟩ fits
          have bound := Bytes.indent_add_length_trim_le text
          simp only [readLine, Progress.move, Option.map_some, Bool.false_eq_true, ↓reduceIte,
            released, Site.span_move keeps (Nat.le_trans (Nat.le_of_add_right_le bound) fits)
              (Nat.le_trans bound fits)]
          split
          · rfl
          · split <;> rfl

end Line

section Segments

variable {r : Relocation} {a : Argument}

theorem siteOf_move (keyword : Keyword) (s : Segment) :
    siteOf keyword (a.move r) (s.move r) = (siteOf keyword a s).move r := rfl

theorem textOf_move {s : Segment} (keeps : r.Keeps s.span) :
    textOf (a.move r) (s.move r) = textOf a s := by
  simp [textOf, Segment.logicalStop_move keeps]

theorem readSegments_move (keyword : Keyword) (p : Progress) {segments : List Segment}
    (keeps : ∀ s ∈ segments, r.Keeps s.span)
    (sizes : ∀ s ∈ segments, s.span.start + (textOf a s).length = s.span.stop) :
    readSegments keyword (a.move r) (p.move r) (segments.map (Segment.move r)) =
      (readSegments keyword a p segments).map (Variable.move r) := by
  induction segments generalizing p with
  | nil => simp [readSegments, Option.toList_map]
  | cons s rest ih =>
      have here : r.Keeps ⟨s.span.start, s.span.start + (textOf a s).length⟩ := by
        rw [sizes s List.mem_cons_self]
        exact keeps s List.mem_cons_self
      have line : readLine ((siteOf keyword a s).move r) (p.move r) (textOf a s) =
          moveRead r (readLine (siteOf keyword a s) p (textOf a s)) :=
        readLine_move here p (Nat.le_refl _)
      have later := ih (readLine (siteOf keyword a s) p (textOf a s)).2
        (fun t member => keeps t (List.mem_cons_of_mem _ member))
        (fun t member => sizes t (List.mem_cons_of_mem _ member))
      rw [← textOf_move (keeps s List.mem_cons_self), ← siteOf_move] at line
      change (readLine (siteOf keyword (a.move r) (s.move r)) (p.move r)
          (textOf (a.move r) (s.move r))).1 ++ readSegments keyword (a.move r)
            (readLine (siteOf keyword (a.move r) (s.move r)) (p.move r)
              (textOf (a.move r) (s.move r))).2 (rest.map (Segment.move r)) =
        ((readLine (siteOf keyword a s) p (textOf a s)).1 ++ readSegments keyword a
          (readLine (siteOf keyword a s) p (textOf a s)).2 rest).map (Variable.move r)
      rw [line, textOf_move (keeps s List.mem_cons_self), List.map_append, ← later]
      rfl

end Segments

end Variable

namespace Relocation.Takes

variable {r : Relocation} {doc doc' : Document} (takes : r.Takes doc doc')
include takes

theorem ofInstruction_eq {g : Statement.Group} (member : g ∈ doc.groups) :
    Variable.ofInstruction ((doc.ofGroup g).move r) =
      (Variable.ofInstruction (doc.ofGroup g)).map (Variable.move r) := by
  unfold Variable.ofInstruction
  rw [Instruction.keyword_move]
  cases (doc.ofGroup g).keyword with
  | none => rfl
  | some keyword =>
      dsimp only
      split
      · exact Variable.readSegments_move keyword Variable.Progress.start
          (takes.keeps_segments member) fun s inside => Document.length_textOf member inside
      · rfl

/-- The declarations are the same at new places. -/
theorem declared_eq :
    Variable.all doc'.instructions = (Variable.all doc.instructions).map (Variable.move r) := by
  simp only [Variable.all, takes.instructions_eq, Document.instructions_eq, List.flatMap_map,
    List.map_flatMap]
  exact List.flatMap_congr fun g member => takes.ofInstruction_eq member

end Relocation.Takes

end Dockerfile
