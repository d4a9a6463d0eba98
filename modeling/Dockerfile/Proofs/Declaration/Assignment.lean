import Dockerfile.Proofs.Variable

/-!
# Written assignments

An assignment is written as a name, an equals sign and a value in quotes.  In double quotes the
escape byte protects every double quote and itself; in single quotes a value stands as it is.  What
is written this way is read back as one declaration, whatever the value holds, and the reading goes
on behind it as if nothing were open.
-/

namespace Dockerfile

namespace Quote

/-- A byte as it is written between two quotes. -/
def protect (escape : UInt8) (q : Quote) (b : UInt8) : Bytes :=
  if q = .double ∧ (b = Byte.doubleQuote ∨ b = escape) then [escape, b] else [b]

def write (escape : UInt8) (q : Quote) (text : Bytes) : Bytes :=
  q.byte :: (text.flatMap (q.protect escape) ++ [q.byte])

theorem write_eq_concat (escape : UInt8) (q : Quote) (text : Bytes) :
    q.write escape text = (q.byte :: text.flatMap (q.protect escape)) ++ [q.byte] := rfl

end Quote

namespace Variable

section Value

variable {escape : UInt8}

theorem value_cons {state : Option Quote} {b : UInt8} (rest : Bytes)
    (plain : b ≠ escape ∨ state = some .single) : value escape state (b :: rest) =
      match Quote.next state b with
      | none => (0, none)
      | some next => ((value escape next rest).1 + 1, (value escape next rest).2) := by
  cases rest with
  | nil =>
      unfold value
      cases Quote.next state b <;> rfl
  | cons c rest =>
      have unescaped : ¬ (b == escape && state != some .single) = true := by
        rcases plain with other | single <;> simp_all
      cases next : Quote.next state b <;> simp [value, unescaped, next]

theorem value_escape {state : Option Quote} (c : UInt8) (rest : Bytes)
    (open' : state ≠ some .single) : value escape state (escape :: c :: rest) =
      ((value escape state rest).1 + 2, (value escape state rest).2) := by
  rw [value, if_pos (by simpa using open')]

/-- Outside quotes a value ends before a blank or at the end of the text. -/
theorem value_of_ends (solid : Byte.isBlank escape = false) {rest : Bytes}
    (ends : ∀ b, rest.head? = some b → Byte.isBlank b = true) :
    value escape none rest = (0, none) := by
  cases rest with
  | nil => rfl
  | cons b rest =>
      have blank := ends b rfl
      have other : b ≠ escape := by
        rintro rfl
        cases solid.symm.trans blank
      rw [value_cons rest (Or.inl other)]
      simp [Quote.next, blank]

variable (solid : Byte.isBlank escape = false) (apart : ∀ q : Quote, q.byte ≠ escape)
include solid apart

/-- What stands between two quotes is taken up to the second. -/
theorem value_protect {q : Quote} {text rest : Bytes}
    (quotable : q = .single → Byte.singleQuote ∉ text)
    (ends : ∀ b, rest.head? = some b → Byte.isBlank b = true) :
    value escape (some q) (text.flatMap (q.protect escape) ++ q.byte :: rest) =
      ((text.flatMap (q.protect escape)).length + 1, none) := by
  induction text with
  | nil =>
      simp [value_cons rest (Or.inl (apart q)), Quote.next, value_of_ends solid ends]
  | cons b text ih =>
      have later := ih fun single member => quotable single (List.mem_cons_of_mem _ member)
      by_cases special : q = .double ∧ (b = Byte.doubleQuote ∨ b = escape)
      · have pair : q.protect escape b = [escape, b] := if_pos special
        rw [List.flatMap_cons, pair, List.append_assoc, List.cons_append, List.singleton_append,
          value_escape _ _ (by simp [special.1]), later]
        simp
      · have single : q.protect escape b = [b] := if_neg special
        have other : b ≠ q.byte := by
          cases q with
          | single => exact fun same => quotable rfl (same ▸ List.mem_cons_self)
          | double => exact fun same => special ⟨rfl, Or.inl same⟩
        have plain : b ≠ escape ∨ some q = some Quote.single := by
          cases q with
          | single => exact Or.inr rfl
          | double => exact Or.inl fun same => special ⟨rfl, Or.inr same⟩
        rw [List.flatMap_cons, single, List.append_assoc, List.singleton_append,
          value_cons _ plain]
        simp [Quote.next, other, later]

theorem value_write {q : Quote} {text rest : Bytes}
    (quotable : q = .single → Byte.singleQuote ∉ text)
    (ends : ∀ b, rest.head? = some b → Byte.isBlank b = true) :
    value escape none (q.write escape text ++ rest) = ((q.write escape text).length, none) := by
  have solid' : Byte.isBlank q.byte = false := by cases q <;> rfl
  have inner := value_protect solid apart quotable ends
  rw [Quote.write, List.cons_append, List.append_assoc, List.singleton_append,
    value_cons _ (Or.inl (apart q))]
  simp [Quote.next, solid', Quote.ofByte?_byte, inner]

end Value

end Variable

/-- A name and a value, and the quotes to write the value in.  The name has no byte that ends a name
and does not start a comment; the value stands on one line. -/
structure Assignment where
  name : Bytes
  value : Bytes
  quote : Quote
  filled : name ≠ []
  unbroken : ∀ b ∈ name, Byte.isBlank b = false ∧ b ≠ Byte.equals ∧ b ≠ Byte.lineFeed
  uncommented : name.head? ≠ some Byte.hash
  oneLine : Byte.lineFeed ∉ value
  quotable : quote = .single → Byte.singleQuote ∉ value

namespace Assignment

variable (a : Assignment) (escape : UInt8)

def quoted : Bytes :=
  a.quote.write escape a.value

def text : Bytes :=
  a.name ++ Byte.equals :: a.quoted escape

theorem length_text :
    (a.text escape).length = a.name.length + 1 + (a.quoted escape).length := by
  simp [text, Nat.add_assoc, Nat.add_comm]

def declared (site : Variable.Site) (index : Nat) : Variable :=
  site.declare index a.name (some (site.span (index + a.name.length + 1)
    (index + a.name.length + 1 + (a.quoted site.escape).length)))

theorem endsName_name : ∀ b ∈ a.name, (!Variable.endsName b) = true := by
  intro b member
  obtain ⟨solid, other, -⟩ := a.unbroken b member
  simp [Variable.endsName, solid, other]

theorem exists_text_eq_cons :
    ∃ b rest, a.text escape = b :: rest ∧ Byte.isBlank b = false ∧ b ≠ Byte.hash := by
  cases shape : a.name with
  | nil => exact absurd shape a.filled
  | cons b name =>
      have opens := a.uncommented
      rw [shape] at opens
      refine ⟨b, name ++ Byte.equals :: a.quoted escape, ?_, ?_, ?_⟩
      · rw [text, shape, List.cons_append]
      · exact (a.unbroken b (by rw [shape]; exact List.mem_cons_self)).1
      · simpa using opens

theorem exists_text_eq_concat : ∃ body, a.text escape = body ++ [a.quote.byte] := by
  refine ⟨a.name ++ Byte.equals :: a.quote.byte :: a.value.flatMap (a.quote.protect escape), ?_⟩
  rw [text, quoted, Quote.write_eq_concat]
  simp

theorem lineFeed_not_mem_text (other : escape ≠ Byte.lineFeed) :
    Byte.lineFeed ∉ a.text escape := by
  have quote : a.quote.byte ≠ Byte.lineFeed := by cases a.quote <;> decide
  have body : Byte.lineFeed ∉ a.value.flatMap (a.quote.protect escape) := by
    intro member
    obtain ⟨b, inside, here⟩ := List.mem_flatMap.mp member
    have same : Byte.lineFeed = b := by
      unfold Quote.protect at here
      split at here <;> simpa [other.symm] using here
    exact a.oneLine (same ▸ inside)
  have name : Byte.lineFeed ∉ a.name := fun member => (a.unbroken _ member).2.2 rfl
  have equals : Byte.lineFeed ≠ Byte.equals := by decide
  simp [text, quoted, Quote.write, name, body, equals, quote.symm]

end Assignment

namespace Variable

def Progress.between (seen : Bool) : Progress := ⟨seen, none, none, false⟩

theorem readLine_between (site : Site) (seen : Bool) (text : Bytes) :
    readLine site (.between seen) text = readNames site (.between seen) 0 0 text := rfl

section Reading

variable {site : Site} {rest : Bytes} (index : Nat)

theorem readNames_blanks (p : Progress) {blanks : Bytes} (blank : Bytes.AllBlank blanks) :
    readNames site p index 0 (blanks ++ rest) =
      readNames site p (index + blanks.length) 0 rest := by
  induction blanks generalizing index with
  | nil => rfl
  | cons b blanks ih =>
      have later := ih (index + 1) fun c member => blank c (List.mem_cons_of_mem _ member)
      rw [List.cons_append, readNames, if_pos (blank b List.mem_cons_self), later,
        List.length_cons, Nat.add_right_comm, Nat.add_assoc]

variable (solid : Byte.isBlank site.escape = false) (apart : ∀ q : Quote, q.byte ≠ site.escape)
  (ends : ∀ b, rest.head? = some b → Byte.isBlank b = true)
include solid apart ends

/-- One step takes an assignment, and nothing is open behind it. -/
theorem step_assignment (a : Assignment) (seen : Bool) :
    step site (Progress.between seen) index (a.text site.escape ++ rest) =
      ⟨some (a.declared site index), (a.text site.escape).length, Progress.between true⟩ := by
  have split : a.text site.escape ++ rest =
      a.name ++ (Byte.equals :: (a.quoted site.escape ++ rest)) := by
    simp [Assignment.text]
  have stops : ∀ b, (Byte.equals :: (a.quoted site.escape ++ rest)).head? = some b →
      (!endsName b) = false := by
    rintro b found
    obtain rfl := Option.some.inj found
    rfl
  have name := Bytes.takeWhile_append_eq a.endsName_name stops
  have tail : (a.name ++ (Byte.equals :: (a.quoted site.escape ++ rest))).dropWhile
      (!endsName ·) = Byte.equals :: (a.quoted site.escape ++ rest) := by
    rw [← Bytes.drop_length_takeWhile, name, List.drop_left]
  have read : value site.escape none (a.quoted site.escape ++ rest) =
      ((a.quoted site.escape).length, none) := value_write solid apart a.quotable ends
  rw [step, split, name, tail]
  simp [read, a.filled, Progress.between, Assignment.declared, Assignment.length_text]

/-- An assignment is read as its declaration. -/
theorem readNames_assignment (a : Assignment) (seen : Bool) :
    readNames site (Progress.between seen) index 0 (a.text site.escape ++ rest) =
      let more := readNames site (Progress.between true) (index + (a.text site.escape).length) 0
        rest
      (a.declared site index :: more.1, more.2) := by
  obtain ⟨b, tail, shape, solid', -⟩ := a.exists_text_eq_cons site.escape
  have taken := step_assignment index solid apart ends a seen
  have next : index + (a.text site.escape).length =
      index + 1 + ((a.text site.escape).length - 1) := by
    rw [shape, List.length_cons]
    omega
  have rest' : (tail ++ rest).drop ((a.text site.escape).length - 1) = rest := by
    rw [shape, List.length_cons, Nat.add_sub_cancel, List.drop_left]
  generalize (a.text site.escape).length = size at taken next rest' ⊢
  rw [shape, List.cons_append] at taken
  rw [shape, List.cons_append, readNames, if_neg (by rw [solid']; decide), taken]
  dsimp only
  rw [readNames_skip, rest', next]
  rfl

end Reading

end Variable

end Dockerfile
