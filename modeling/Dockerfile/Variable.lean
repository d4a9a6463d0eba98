import Dockerfile.Instruction
import Dockerfile.Quote

/-!
# Variable declarations

`ARG` and `ENV` declare variables, as `name=value` or, for the first name alone, as a name followed
by blanks and a value that takes the rest of the line.  A continued declaration is read line by
line: a quoted value may go on over several lines, and a first name at the end of its line takes
the next line that holds anything as its value, unless that line has an equals sign.
-/

namespace Dockerfile

structure Variable where
  name : Bytes
  keyword : Keyword
  nameSpan : Span
  valueSpan : Option Span
  line : Int
  deriving DecidableEq, Repr

namespace Variable

/-- How many bytes a value takes up to the next blank outside quotes, and the quote that is open
after the last of them.  Outside single quotes an escape byte takes the byte after it along. -/
def value (escape : UInt8) : Option Quote → Bytes → Nat × Option Quote
  | state, [] => (0, state)
  | state, [b] =>
      match Quote.next state b with
      | none => (0, none)
      | some state => (1, state)
  | state, b :: c :: rest =>
      if b == escape && state != some .single then
        let (size, state) := value escape state rest
        (size + 2, state)
      else
        match Quote.next state b with
        | none => (0, none)
        | some state =>
            let (size, state) := value escape state (c :: rest)
            (size + 1, state)

theorem value_le (escape : UInt8) (state : Option Quote) (text : Bytes) :
    (value escape state text).1 ≤ text.length := by
  fun_induction value escape state text with
  | case1 state => exact Nat.le_refl _
  | case2 state b ends => exact Nat.zero_le _
  | case3 state b next goes => exact Nat.le_refl _
  | case4 state b c rest escaped size final taken ih =>
      rw [taken] at ih
      exact Nat.succ_le_succ (Nat.succ_le_succ ih)
  | case5 state b c rest plain ends => exact Nat.zero_le _
  | case6 state b c rest plain next goes size final taken ih =>
      rw [taken] at ih
      exact Nat.succ_le_succ ih

/-- Where the reading of a declaration stands between two names: whether a name has been read, the
quote that is open at the end of a line, a first name that may still get a value, and whether a
value has taken the rest. -/
structure Progress where
  seen : Bool
  quote : Option Quote
  pending : Option Variable
  closed : Bool
  deriving DecidableEq, Repr

def Progress.start : Progress := ⟨false, none, none, false⟩

/-- What the names on one line have in common. -/
structure Site where
  keyword : Keyword
  escape : UInt8
  line : Int
  start : Int
  deriving DecidableEq, Repr

namespace Site

def span (site : Site) (start stop : Nat) : Span :=
  ⟨site.start + start, site.start + stop⟩

def declare (site : Site) (index : Nat) (name : Bytes) (valueSpan : Option Span) : Variable where
  name := name
  keyword := site.keyword
  nameSpan := site.span index (index + name.length)
  valueSpan := valueSpan
  line := site.line

end Site

/-- One reading step: the variable it declares, the bytes it takes, and where it leads. -/
structure Step where
  declared : Option Variable
  size : Nat
  progress : Progress

def endsName (b : UInt8) : Bool :=
  Byte.isBlank b || b == Byte.equals

/-- Read what starts at an index with a byte that is no blank. -/
def step (site : Site) (p : Progress) (index : Nat) (text : Bytes) : Step :=
  let name := text.takeWhile (!endsName ·)
  let rest := text.dropWhile (!endsName ·)
  let start := index + name.length
  if rest.head? == some Byte.equals then
    let (size, quote) := value site.escape none (rest.drop 1)
    let declared :=
      if name.isEmpty then none
      else some (site.declare index name (some (site.span (start + 1) (start + 1 + size))))
    ⟨declared, name.length + 1 + size, { p with seen := p.seen || !name.isEmpty, quote := quote }⟩
  else if p.seen then ⟨some (site.declare index name none), name.length, p⟩
  else
    let indent := Bytes.indent rest
    let legacy := Bytes.trim rest
    if legacy.isEmpty then
      ⟨none, name.length, { p with seen := true, pending := some (site.declare index name none) }⟩
    else
      let valueSpan := site.span (start + indent) (start + indent + legacy.length)
      ⟨some (site.declare index name (some valueSpan)), text.length,
        { p with seen := true, closed := true }⟩

/-- Read the names on a line from an index on, after passing over `skip` bytes. -/
def readNames (site : Site) :
    (p : Progress) → (index skip : Nat) → Bytes → List Variable × Progress
  | p, _, _, [] => ([], p)
  | p, index, skip + 1, _ :: rest => readNames site p (index + 1) skip rest
  | p, index, 0, b :: rest =>
      if Byte.isBlank b then readNames site p (index + 1) 0 rest
      else
        let taken := step site p index (b :: rest)
        let (more, p) := readNames site taken.progress (index + 1) (taken.size - 1) rest
        (taken.declared.toList ++ more, p)

/-- Read the names on a line, after what remains of a quoted value. -/
def readText (site : Site) (p : Progress) (text : Bytes) : List Variable × Progress :=
  match p.quote with
  | none => readNames site p 0 0 text
  | some q =>
      let (size, quote) := value site.escape (some q) text
      readNames site { p with quote := quote } 0 size text

def readLine (site : Site) (p : Progress) (text : Bytes) : List Variable × Progress :=
  if p.closed then ([], p)
  else
    match p.pending with
    | none => readText site p text
    | some v =>
        if text.contains Byte.equals then
          let (more, p) := readText site { p with pending := none } text
          (v :: more, p)
        else if text.trim.isEmpty then ([], p)
        else
          let valueSpan := site.span text.indent (text.indent + text.trim.length)
          ([{ v with valueSpan := some valueSpan }], { p with pending := none, closed := true })

def readSegments (keyword : Keyword) (argument : Argument) :
    (p : Progress) → List Segment → List Variable
  | p, [] => p.pending.toList
  | p, s :: rest =>
      let site : Site := ⟨keyword, argument.escape, s.line, s.span.start⟩
      let text := argument.text.slice s.logical s.logicalStop.toNat
      let (more, p) := readLine site p text
      more ++ readSegments keyword argument p rest

def ofInstruction (i : Instruction) : List Variable :=
  match i.keyword with
  | some keyword =>
      if keyword.declaresVariables then
        readSegments keyword i.argument Progress.start i.argument.segments
      else []
  | none => []

def all (instructions : List Instruction) : List Variable :=
  instructions.flatMap ofInstruction

/-- The last declaration of a name that starts before an offset. -/
def lastBefore? (declared : List Variable) (name : Bytes) (offset : Int) : Option Variable :=
  ((declared.takeWhile (·.nameSpan.start < offset)).filter (·.name == name)).getLast?

end Variable

end Dockerfile
