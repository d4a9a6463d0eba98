import Dockerfile.Proofs.Definition
import Dockerfile.Proofs.Statement.Grouping

/-!
# Declarations by their lines

The variables of an instruction are read from the segments of its argument, and the text of a
segment is cut from the logical text.  Both come from the lines: a declaration is read line by line,
each from its usable part, the first after the keyword.
-/

namespace Dockerfile

namespace Variable

theorem readLine_nil (site : Site) (p : Progress) : readLine site p [] = ([], p) := by
  obtain ⟨seen, quote, pending, closed⟩ := p
  cases closed with
  | true => rfl
  | false =>
      cases pending with
      | none => cases quote <;> rfl
      | some v => rfl

def readLines (keyword : Keyword) (escape : UInt8) : (p : Progress) → List Line → List Variable
  | p, [] => p.pending.toList
  | p, line :: rest =>
      let found := readLine ⟨keyword, escape, line.number, line.start⟩ p (line.usable escape)
      found.1 ++ readLines keyword escape found.2 rest

def readStretches (keyword : Keyword) (escape : UInt8) (text : Bytes) :
    (p : Progress) → List Stretch → List Variable
  | p, [] => p.pending.toList
  | p, s :: rest =>
      let found := readLine ⟨keyword, escape, s.line, s.span.start⟩ p (Argument.bytesOf text s)
      found.1 ++ readStretches keyword escape text found.2 rest

theorem readSegments_eq (keyword : Keyword) {a : Argument} {text : Bytes} {segments : List Segment}
    (bytes : ∀ s ∈ segments, textOf a s = Argument.bytesOf text s.toStretch) (p : Progress) :
    readSegments keyword a p segments =
      readStretches keyword a.escape text p (segments.map Segment.toStretch) := by
  induction segments generalizing p with
  | nil => rfl
  | cons s rest ih =>
      have here := bytes s List.mem_cons_self
      have later := ih fun t member => bytes t (List.mem_cons_of_mem _ member)
      rw [textOf] at here
      rw [readSegments, List.map_cons, readStretches, here]
      dsimp only
      rw [later]

section Lines

variable (keyword : Keyword) {escape : UInt8} {text : Bytes}

/-- The end of a line's usable part is read as one text, if there is anything to read. -/
theorem readStretches_stretch (p : Progress) {line : Line} (stands : line.StandsIn text)
    {index : Nat} (inside : index ≤ (line.usable escape).length) (rest : List Stretch) :
    readStretches keyword escape text p (Statement.stretch line.number (line.start + index)
        (line.start + (line.usable escape).length) ++ rest) =
      (readLine ⟨keyword, escape, line.number, (line.start + index : Nat)⟩ p
          ((line.usable escape).drop index)).1 ++
        readStretches keyword escape text (readLine ⟨keyword, escape, line.number,
          (line.start + index : Nat)⟩ p ((line.usable escape).drop index)).2 rest := by
  have bytes := Instruction.flatMap_bytesOf_stretch stands escape inside
  unfold Statement.stretch at bytes ⊢
  split
  · rename_i filled
    rw [if_pos filled, List.flatMap_singleton] at bytes
    rw [List.singleton_append, readStretches, bytes]
  · rename_i empty
    rw [List.drop_eq_nil_of_le (by omega), readLine_nil]
    rfl

theorem readStretches_whole (p : Progress) {lines : List Line}
    (stand : ∀ line ∈ lines, line.StandsIn text) :
    readStretches keyword escape text p (lines.flatMap (Statement.whole escape)) =
      readLines keyword escape p lines := by
  induction lines generalizing p with
  | nil => rfl
  | cons line rest ih =>
      have here := readStretches_stretch keyword p (stand line List.mem_cons_self)
        (Nat.zero_le (line.usable escape).length)
      rw [Nat.add_zero, List.drop_zero] at here
      rw [List.flatMap_cons, Statement.whole, here, readLines,
        ih _ fun other member => stand other (List.mem_cons_of_mem _ member)]

end Lines

end Variable

namespace Document

variable {doc : Document} {g : Statement.Group} {keyword : Keyword} (member : g ∈ doc.groups)
  (known : (doc.ofGroup g).keyword = some keyword) (declares : keyword.declaresVariables = true)
include member known declares

/-- What an instruction declares is read off the stretches of its segments. -/
theorem ofInstruction_eq_readStretches :
    Variable.ofInstruction (doc.ofGroup g) = Variable.readStretches keyword doc.escape doc.text
      .start ((doc.ofGroup g).argument.segments.map Segment.toStretch) := by
  rw [Variable.ofInstruction, known]
  dsimp only
  rw [if_pos declares, Variable.readSegments_eq keyword (sound_argument member).bytes]
  rfl

/-- What an instruction declares is read off the lines of its group. -/
theorem ofInstruction_ofGroup :
    let site : Variable.Site := ⟨keyword, doc.escape, g.first.number,
      (g.first.start + g.first.argumentStart doc.escape : Nat)⟩
    let found := Variable.readLine site Variable.Progress.start
      ((g.first.usable doc.escape).drop (g.first.argumentStart doc.escape))
    Variable.ofInstruction (doc.ofGroup g) =
      found.1 ++ Variable.readLines keyword doc.escape found.2 g.rest := by
  have counts := (mem_countingLines member List.mem_cons_self).2
  have stands : ∀ line ∈ g.lines, line.StandsIn doc.text := fun line inside =>
    standsIn_text (mem_countingLines member inside).1
  have stretches : (doc.ofGroup g).argument.segments.map Segment.toStretch =
      (Statement.ofGroup doc.escape g).stretches := Argument.map_toStretch_place 0 _
  rw [ofInstruction_eq_readStretches member known declares, stretches,
    Statement.ofGroup_eq doc.escape counts,
    Variable.readStretches_stretch keyword _ (stands _ List.mem_cons_self)
      (Line.argumentStart_le doc.escape counts),
    Variable.readStretches_whole keyword _
      fun line inside => stands line (List.mem_cons_of_mem _ inside)]

end Document

end Dockerfile
