import Dockerfile.Proofs.Text.Distance
import Dockerfile.Suggestion
import Dockerfile.Text.Encoding
import Mathlib.Data.List.Basic

/-!
# What is suggested

The suggestions for a name are gathered in two passes over the candidates: the first takes those
that the name matches, sorted by distance, the second those that match the name.  A candidate that
was taken before is not taken again, so a name that is declared twice, or that matches both ways, is
suggested once, in the place of its first taking.

Equally near candidates come in the order that the sort leaves them in.  What is proved of the
suggestions holds whichever order that is.
-/

namespace Dockerfile

/-! ## Keeping first occurrences -/

namespace FirstOccurrence

variable {α : Type} [BEq α]

theorem filter_sublist (keep : α → Bool) (l : List α) : (l.filter keep).eraseDups.Sublist l := by
  induction l generalizing keep with
  | nil => exact List.Sublist.slnil
  | cons a l ih =>
      rw [List.filter_cons]
      split
      · rw [List.eraseDups_cons, List.filter_filter]
        exact (ih _).cons_cons a
      · exact (ih keep).cons a

variable [LawfulBEq α]

theorem pairwise_idxOf_filter (keep : α → Bool) (l : List α) :
    (l.filter keep).eraseDups.Pairwise fun a b => l.idxOf a < l.idxOf b := by
  induction l generalizing keep with
  | nil => exact List.Pairwise.nil
  | cons a l ih =>
      -- past an element that is not kept, every place moves by one
      have later (keep : α → Bool) (other : ∀ b, keep b = true → b ≠ a) :
          (l.filter keep).eraseDups.Pairwise fun b c => (a :: l).idxOf b < (a :: l).idxOf c := by
        refine (ih keep).imp_of_mem fun {b c} first second less => ?_
        have first := (List.mem_filter.mp (List.mem_eraseDups.mp first)).2
        have second := (List.mem_filter.mp (List.mem_eraseDups.mp second)).2
        rw [List.idxOf_cons_ne l (other b first).symm, List.idxOf_cons_ne l (other c second).symm]
        exact Nat.succ_lt_succ less
      cases kept : keep a with
      | false =>
          rw [List.filter_cons_of_neg (by simp [kept])]
          refine later keep fun b passes same => ?_
          rw [same, kept] at passes
          cases passes
      | true =>
          rw [List.filter_cons_of_pos kept, List.eraseDups_cons, List.filter_filter]
          have other (b : α) (passes : (!b == a && keep b) = true) : b ≠ a := by
            simpa using (Bool.and_eq_true_iff.mp passes).1
          refine List.Pairwise.cons (fun b member => ?_) (later _ other)
          have passes := (List.mem_filter.mp (List.mem_eraseDups.mp member)).2
          rw [List.idxOf_cons_self, List.idxOf_cons_ne l (other b passes).symm]
          exact Nat.succ_pos _

theorem nodup (l : List α) : l.eraseDups.Nodup := by
  have ordered := pairwise_idxOf_filter (fun _ => true) l
  rw [List.filter_eq_self.mpr fun _ _ => rfl] at ordered
  refine ordered.imp fun less same => ?_
  rw [same] at less
  exact Nat.lt_irrefl _ less

end FirstOccurrence

/-! ## Folding a short text -/

namespace Folding

/-- The text is read and written in one block, and it has no replacement character, which counts as
one byte read. -/
structure FitsBlock (text : Bytes) : Prop where
  read : text.length ≤ blockSize
  written : (Bytes.ofChars (text.chars.map lowerChar)).length ≤ blockSize
  plain : Piece.scalar Piece.replacement ∉ text.pieces

theorem width_toChar {piece : Piece} (plain : piece ≠ .scalar Piece.replacement) :
    width piece.toChar = piece.size := by
  cases piece with
  | scalar c => exact if_neg fun same => plain (congrArg Piece.scalar same)
  | stray b => exact if_pos rfl

theorem Pass.taken_fill {room : Nat} {pieces : List Piece}
    (fits : (Bytes.ofChars ((pieces.map Piece.toChar).map lowerChar)).length ≤ room)
    (plain : Piece.scalar Piece.replacement ∉ pieces) :
    (fill room (pieces.map Piece.toChar)).taken = (Bytes.ofPieces pieces).length := by
  induction pieces generalizing room with
  | nil => rfl
  | cons piece pieces ih =>
      rw [List.mem_cons, not_or] at plain
      change (String.utf8EncodeChar (lowerChar piece.toChar) ++
        Bytes.ofChars ((pieces.map Piece.toChar).map lowerChar)).length ≤ room at fits
      rw [List.length_append] at fits
      rw [List.map_cons, fill]
      dsimp only
      rw [if_neg (by omega), ih (by omega) plain.2, width_toChar (Ne.symm plain.1),
        ← piece.length_encode, ← List.length_append]
      rfl

end Folding

open Folding in
/-- A text that fits into a block is folded by lowering each of its characters. -/
theorem Bytes.fold_of_fitsBlock {text : Bytes} (fits : FitsBlock text) :
    text.fold = ofChars (text.chars.map lowerChar) := by
  have none (total : Nat) (written : Bytes) : apart total written [] = written := by
    rw [apart.eq_def]
  have none' (room : Nat) (written : Bytes) : shared room written [] = written := by
    rw [shared.eq_def]
  cases same : text with
  | nil => exact none _ _
  | cons b rest =>
      rw [← same]
      have whole : text.take blockSize = text := List.take_of_length_le fits.read
      have taken : (Pass.first blockSize text).taken = text.length := by
        rw [Pass.first, whole]
        exact (Pass.taken_fill fits.written fits.plain).trans
          (congrArg List.length (ofPieces_pieces text))
      have written : (Pass.first blockSize text).written = ofChars (text.chars.map lowerChar) := by
        rw [Pass.first, whole]
        exact Pass.written_fill_of_fits fits.written
      -- nothing is left after the first pass, whichever way the text would go on
      rw [fold, apart.eq_def, same]
      dsimp only
      rw [← same, taken, written, List.drop_length, none, none', none', List.nil_append, ite_self,
        ite_self]

namespace Suggestion

/-- For texts that fit into a block, one matches another if its characters in lower case occur in
the other's in their order, and the other is no shorter in lower case. -/
theorem isMatch_iff_of_fitsBlock {name other : Bytes} (short : Folding.FitsBlock name)
    (short' : Folding.FitsBlock other) :
    isMatch name other = true ↔
      (Bytes.ofChars (name.chars.map lowerChar)).length ≤
          (Bytes.ofChars (other.chars.map lowerChar)).length ∧
        (name.chars.map lowerChar).Sublist (other.chars.map lowerChar) := by
  rw [isMatch, Bytes.fold_of_fitsBlock short, Bytes.fold_of_fitsBlock short', Bytes.chars_ofChars,
    Bytes.chars_ofChars, Bool.and_eq_true_iff, decide_eq_true_iff, List.isSublist_iff_sublist]

/-! ## The two passes -/

/-- The suggestions for a name if the candidates that it matches come in a given order. -/
def merged (name : Bytes) (ranked candidates : List Bytes) : List Bytes :=
  ((ranked ++ candidates.filter (isMatch · name)).filter (· != name)).eraseDups

/-- The candidates that the name matches, each as often as it occurs, nearest first. -/
structure IsRanking (name : Bytes) (candidates ranked : List Bytes) : Prop where
  perm : ranked.Perm (candidates.filter (isMatch name))
  sorted : ranked.Pairwise fun a b => distance name a ≤ distance name b

/-- What the suggestions for a name are: the candidates other than it that match in either
direction, each once; first those that the name matches, nearest first, then the others, in the
order in which they first occur. -/
structure Gathers (name : Bytes) (candidates found : List Bytes) : Prop where
  distinct : found.Nodup
  other : name ∉ found
  members (c : Bytes) : c ∈ found ↔
    c ∈ candidates ∧ c ≠ name ∧ (isMatch name c = true ∨ isMatch c name = true)
  ordered : ∃ near far, found = near ++ far ∧
    (∀ c, c ∈ near ↔ c ∈ candidates ∧ c ≠ name ∧ isMatch name c = true) ∧
    (∀ c, c ∈ far ↔
      c ∈ candidates ∧ c ≠ name ∧ isMatch name c = false ∧ isMatch c name = true) ∧
    near.Pairwise (fun a b => distance name a ≤ distance name b) ∧
    far.Pairwise fun a b => candidates.idxOf a < candidates.idxOf b

variable {name : Bytes} {candidates ranked : List Bytes}

theorem isRanking_nearest (name : Bytes) (candidates : List Bytes) :
    IsRanking name candidates (nearest name candidates) where
  perm := List.mergeSort_perm _ _
  sorted := by
    have sorted : (nearest name candidates).Pairwise fun a b =>
        decide (distance name a ≤ distance name b) = true := by
      refine List.pairwise_mergeSort (fun a b c first second => ?_) (fun a b => ?_) _
      · rw [decide_eq_true_iff] at first second ⊢
        exact Nat.le_trans first second
      · rw [Bool.or_eq_true, decide_eq_true_iff, decide_eq_true_iff]
        exact Nat.le_total _ _
    exact sorted.imp of_decide_eq_true

theorem closest_eq (named : name ≠ []) :
    closest name candidates = merged name (nearest name candidates) candidates := by
  rw [closest, if_neg (by simpa using named), merged]

/-- The list of the first pass, and what the second pass adds to it. -/
theorem merged_eq (name : Bytes) (ranked candidates : List Bytes) :
    merged name ranked candidates = (ranked.filter (· != name)).eraseDups ++
      (candidates.filter fun c =>
        !(ranked.filter (· != name)).elem c && c != name && isMatch c name).eraseDups := by
  rw [merged, List.filter_append, List.eraseDups_append, List.removeAll, List.filter_filter,
    List.filter_filter]

theorem mem_ranked_iff (ranking : IsRanking name candidates ranked) (c : Bytes) :
    c ∈ ranked.filter (· != name) ↔ c ∈ candidates ∧ c ≠ name ∧ isMatch name c = true := by
  rw [List.mem_filter, ranking.perm.mem_iff, List.mem_filter, bne_iff_ne]
  tauto

theorem gathers_merged (ranking : IsRanking name candidates ranked) :
    Gathers name candidates (merged name ranked candidates) where
  distinct := FirstOccurrence.nodup _
  other := by
    intro found
    have kept := (List.mem_filter.mp (List.mem_eraseDups.mp found)).2
    exact bne_iff_ne.mp kept rfl
  members c := by
    rw [merged, List.mem_eraseDups, List.mem_filter, List.mem_append, ranking.perm.mem_iff,
      List.mem_filter, List.mem_filter, bne_iff_ne]
    tauto
  ordered := by
    refine ⟨_, _, merged_eq name ranked candidates, fun c => ?_, fun c => ?_, ?_, ?_⟩
    · rw [List.mem_eraseDups, mem_ranked_iff ranking]
    · have first := mem_ranked_iff ranking c
      rw [List.mem_eraseDups, List.mem_filter, Bool.and_eq_true_iff, Bool.and_eq_true_iff,
        Bool.not_eq_true', bne_iff_ne, ← Bool.not_eq_true, List.elem_iff, first, ← Bool.not_eq_true]
      tauto
    · exact ranking.sorted.sublist (FirstOccurrence.filter_sublist _ ranked)
    · exact FirstOccurrence.pairwise_idxOf_filter _ candidates

/-- The suggestions for a name are the candidates other than it that match in either direction, each
once: first those that the name matches, nearest first, then the others, in the order of their first
occurrence.  This holds however a sort leaves equally near candidates.  The distance is the least
number of edits, and for texts that fit into a block matching is about their characters in lower
case. -/
theorem closest_exact (name : Bytes) (candidates : List Bytes) (named : name ≠ []) :
    Gathers name candidates (closest name candidates) ∧
      (∀ ranked, IsRanking name candidates ranked →
        Gathers name candidates (merged name ranked candidates)) ∧
      (∀ c, IsLeast {n | Distance.Edits n name.chars c.chars} (distance name c)) ∧
      ∀ source target, Folding.FitsBlock source → Folding.FitsBlock target →
        (isMatch source target = true ↔
          (Bytes.ofChars (source.chars.map lowerChar)).length ≤
              (Bytes.ofChars (target.chars.map lowerChar)).length ∧
            (source.chars.map lowerChar).Sublist (target.chars.map lowerChar)) := by
  refine ⟨?_, fun ranked ranking => gathers_merged ranking,
    fun c => isLeast_editDistance name.chars c.chars,
    fun source target => isMatch_iff_of_fitsBlock⟩
  rw [closest_eq named]
  exact gathers_merged (isRanking_nearest name candidates)

/-- The name itself is left out, and what stands twice or matches both ways comes once. -/
theorem closest_exact_app :
    utf8 "app" ≠ [] ∧
      (closest (utf8 "app") (["P", "mapper", "app", "APP", "apple", "P", "ap"].map utf8)).Perm
        (["apple", "mapper", "APP", "P", "ap"].map utf8) ∧
      distance (utf8 "app") (utf8 "apple") = 2 ∧
      Folding.FitsBlock (utf8 "app") ∧ Folding.FitsBlock (utf8 "APP") := by
  have named : utf8 "app" ≠ [] := by decide
  obtain ⟨gathered, -⟩ := closest_exact (utf8 "app")
    (["P", "mapper", "app", "APP", "apple", "P", "ap"].map utf8) named
  refine ⟨named, (List.perm_ext_iff_of_nodup gathered.distinct (by decide)).mpr fun c => ?_,
    by decide +kernel, ⟨by decide, by decide +kernel, by decide +kernel⟩,
    ⟨by decide, by decide +kernel, by decide +kernel⟩⟩
  have taken : ∀ c ∈ ["P", "mapper", "app", "APP", "apple", "P", "ap"].map utf8,
      c ∈ ["apple", "mapper", "APP", "P", "ap"].map utf8 ↔
        c ≠ utf8 "app" ∧ (isMatch (utf8 "app") c = true ∨ isMatch c (utf8 "app") = true) := by
    decide +kernel
  have listed : ["apple", "mapper", "APP", "P", "ap"].map utf8 ⊆
      ["P", "mapper", "app", "APP", "apple", "P", "ap"].map utf8 := by
    decide
  rw [gathered.members]
  exact ⟨fun found => (taken c found.1).mpr found.2,
    fun found => ⟨listed found, (taken c (listed found)).mp found⟩⟩

end Suggestion

end Dockerfile
