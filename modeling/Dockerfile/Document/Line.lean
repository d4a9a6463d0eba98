import Dockerfile.Document.Span

/-!
# Physical lines

A text is cut after every line feed.  The content of a line is what stands before its line feed,
and a carriage return at its end belongs to the terminator as well, also on the last line.
-/

namespace Dockerfile

structure Line where
  number : Nat
  start : Nat
  content : Bytes
  deriving DecidableEq, Repr

namespace Line

def stop (line : Line) : Nat :=
  line.start + line.content.length

def span (line : Line) : Span :=
  ⟨line.start, line.stop⟩

def prepend (b : UInt8) : List Bytes → List Bytes
  | [] => [[b]]
  | first :: rest => if b == Byte.lineFeed then [] :: first :: rest else (b :: first) :: rest

/-- What stands between the line feeds of a text; always at least one piece. -/
def cut (text : Bytes) : List Bytes :=
  text.foldr prepend [[]]

theorem cut_ne_nil (text : Bytes) : cut text ≠ [] := by
  cases text with
  | nil => exact List.cons_ne_nil _ _
  | cons b rest =>
      change prepend b (cut rest) ≠ []
      unfold prepend
      split
      · exact List.cons_ne_nil _ _
      · split <;> exact List.cons_ne_nil _ _

theorem cut_lineFeed (text : Bytes) : cut (Byte.lineFeed :: text) = [] :: cut text := by
  change prepend Byte.lineFeed (cut text) = [] :: cut text
  cases pieces : cut text with
  | nil => exact absurd pieces (cut_ne_nil text)
  | cons first rest => rfl

theorem cut_of_ne {b : UInt8} {text first : Bytes} {rest : List Bytes} (other : b ≠ Byte.lineFeed)
    (pieces : cut text = first :: rest) : cut (b :: text) = (b :: first) :: rest := by
  change prepend b (cut text) = (b :: first) :: rest
  rw [pieces]
  exact if_neg (by simpa using other)

/-- There is one piece more than there are line feeds. -/
theorem length_cut (text : Bytes) : (cut text).length = text.count Byte.lineFeed + 1 := by
  induction text with
  | nil => rfl
  | cons b text ih =>
      by_cases feed : b = Byte.lineFeed
      · rw [feed, cut_lineFeed, List.length_cons, ih, List.count_cons_self]
      · cases pieces : cut text with
        | nil => exact absurd pieces (cut_ne_nil text)
        | cons first rest =>
            rw [cut_of_ne feed pieces, List.count_cons_of_ne feed, ← ih, pieces]
            rfl

theorem join_cut (text : Bytes) : Bytes.join [Byte.lineFeed] (cut text) = text := by
  induction text with
  | nil => rfl
  | cons b text ih =>
      cases pieces : cut text with
      | nil => exact absurd pieces (cut_ne_nil text)
      | cons first rest =>
          rw [pieces] at ih
          by_cases feed : b = Byte.lineFeed
          · rw [feed, cut_lineFeed, pieces, Bytes.join_cons_cons, ih]
            rfl
          · rw [cut_of_ne feed pieces, Bytes.join_cons_head, ih]

/-- A line as cut at its line feed, without a carriage return at its end. -/
def chomp (raw : Bytes) : Bytes :=
  if raw.getLast? = some Byte.carriageReturn then raw.dropLast else raw

/-- Number and place the lines of a text, given where the first of them stands. -/
def place : (number start : Nat) → List Bytes → List Line
  | _, _, [] => []
  | number, start, raw :: rest =>
      ⟨number, start, chomp raw⟩ :: place (number + 1) (start + raw.length + 1) rest

theorem length_place (number start : Nat) (pieces : List Bytes) :
    (place number start pieces).length = pieces.length := by
  induction pieces generalizing number start with
  | nil => rfl
  | cons raw rest ih => exact congrArg Nat.succ (ih _ _)

def split (text : Bytes) : List Line :=
  place 0 0 (cut text)

theorem length_split (text : Bytes) : (split text).length = text.count Byte.lineFeed + 1 := by
  rw [split, length_place, length_cut]

end Line

end Dockerfile
