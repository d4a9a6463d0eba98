import Dockerfile.Text.Bytes

/-!
# Left-to-right token scanning

A token reader looks at an index and at the text from there on, and answers either with a token
and the number of elements it takes, or with nothing, and then one element is passed over.
`tokens` runs a reader over a whole list; it recurses on the list itself, counting down the
elements that the last token has already taken.
-/

namespace Dockerfile

namespace Tokens

variable {α β : Type}

/-- Scan from `index` after passing over `skip` elements that belong to the last token. -/
def scan (read : Nat → List α → Option (β × Nat)) : (index skip : Nat) → List α → List β
  | _, _, [] => []
  | index, skip + 1, _ :: rest => scan read (index + 1) skip rest
  | index, 0, a :: rest =>
      match read index (a :: rest) with
      | none => scan read (index + 1) 0 rest
      | some (token, size) => token :: scan read (index + 1) (size - 1) rest

@[simp]
theorem scan_nil (read : Nat → List α → Option (β × Nat)) (index skip : Nat) :
    scan read index skip [] = [] := by
  cases skip <;> rfl

theorem scan_skip (read : Nat → List α → Option (β × Nat)) (index skip : Nat) (text : List α) :
    scan read index skip text = scan read (index + skip) 0 (text.drop skip) := by
  induction skip generalizing index text with
  | zero => simp
  | succ skip ih =>
      cases text with
      | nil => simp
      | cons a rest =>
          have shifted := ih (index + 1) rest
          simpa [scan, Nat.add_assoc, Nat.add_comm 1 skip] using shifted

theorem scan_none (read : Nat → List α → Option (β × Nat)) {index : Nat} {a : α} {rest : List α}
    (passed : read index (a :: rest) = none) :
    scan read index 0 (a :: rest) = scan read (index + 1) 0 rest := by
  rw [scan, passed]

theorem scan_some (read : Nat → List α → Option (β × Nat)) {index size : Nat} {a : α}
    {rest : List α} {token : β} (found : read index (a :: rest) = some (token, size + 1)) :
    scan read index 0 (a :: rest) =
      token :: scan read (index + (size + 1)) 0 (rest.drop size) := by
  rw [scan, found]
  dsimp only
  rw [Nat.add_sub_cancel, scan_skip, Nat.add_assoc, Nat.add_comm 1 size]

end Tokens

def tokens {α β : Type} (read : Nat → List α → Option (β × Nat)) (text : List α) : List β :=
  Tokens.scan read 0 0 text

end Dockerfile
