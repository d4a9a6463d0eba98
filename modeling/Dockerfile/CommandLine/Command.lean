import Dockerfile.CommandLine.Flags
import Dockerfile.Document.PositionText
import Dockerfile.Fault
import Dockerfile.Text.Case
import Dockerfile.Text.Distance

/-!
# Commands

Which command the arguments name and what it is asked to do.  The command is the first argument
that is neither a flag nor a flag's value.  An unknown command comes before any mistake in the
flags, the flags before the number of arguments, and that before the position.
-/

namespace Dockerfile

namespace CommandLine

inductive Command where
  | definition
  | instructions
  | symbols
  | serve
  | completion
  | help
  deriving DecidableEq, Repr

namespace Command

def spelling : Command → Bytes
  | .definition => utf8 "definition"
  | .instructions => utf8 "instructions"
  | .symbols => utf8 "symbols"
  | .serve => utf8 "serve"
  | .completion => utf8 "completion"
  | .help => utf8 "help"

def all : List Command :=
  [.definition, .instructions, .symbols, .serve, .help, .completion]

/-- The commands that are offered when another one is not known. -/
def offered : List Command :=
  all.filter (· ≠ .help)

def ofWord? (word : Bytes) : Option Command :=
  all.find? (·.spelling == word)

end Command

def program : Bytes := utf8 "dockerdef"

def programVersion : Bytes := utf8 "dev"

def commonFlags : List FlagName := [.file, .debug, .json, .help]

def programFlags : List FlagName := commonFlags ++ [.version]

/-- While the command is looked for, the argument after this one counts as its value: a flag
without an equals sign that is not one of the switches every command has. -/
def takesNext (argument : Bytes) : Bool :=
  !argument.contains Byte.equals &&
    if (utf8 "--").isPrefixOf argument then
      argument != utf8 "--debug" && argument != utf8 "--json"
    else argument.head? == some Byte.minus && argument.length == 2

def words : List Bytes → List Bytes
  | [] => []
  | argument :: rest =>
      if argument == utf8 "--" then []
      else if takesNext argument then
        match rest with
        | _ :: next :: rest => words (next :: rest)
        | _ => []
      else if argument.isEmpty || argument.head? == some Byte.minus then words rest
      else argument :: words rest

/-- The arguments without the first one that names the command. -/
def withoutCommand (command : Bytes) : List Bytes → List Bytes
  | [] => []
  | argument :: rest =>
      if argument == utf8 "--" then argument :: rest
      else if takesNext argument then
        match rest with
        | value :: rest => argument :: value :: withoutCommand command rest
        | [] => [argument]
      else if argument == command && argument.head? != some Byte.minus then rest
      else argument :: withoutCommand command rest

/-- The commands whose name starts with a word or is at most two edits away from it, case ignored. -/
def similar (word : Bytes) : List Command :=
  Command.offered.filter fun command =>
    editDistance word.toLower command.spelling ≤ 2 || word.toLower.isPrefixOf command.spelling

def offer (word : Bytes) : Bytes :=
  match similar word with
  | [] => []
  | commands =>
      utf8 "\n\nDid you mean this?\n" ++
        commands.flatMap fun command => Byte.tab :: command.spelling ++ [Byte.lineFeed]

def unknownCommand (word : Bytes) : Fault :=
  .plain (utf8 "unknown command " ++ word.quoted ++ utf8 " for " ++ program.quoted ++ offer word)

def extraArgument (word : Bytes) (command : Command) : Fault :=
  .plain (utf8 "unknown command " ++ word.quoted ++ utf8 " for " ++
    Bytes.quoted (program ++ Byte.space :: command.spelling))

def wrongCount (count : Nat) : Fault :=
  .plain (utf8 "accepts 1 arg(s), received " ++ decimal count)

inductive Question where
  | definition (p : Position)
  | instructions
  | symbols
  deriving DecidableEq, Repr

inductive Request where
  | usage
  | version
  | serve (s : Settings)
  | ask (question : Question) (s : Settings)

def withoutOperands (command : Command) (operands : List Bytes) (request : Request) :
    Except Fault Request :=
  match operands with
  | [] => .ok request
  | word :: _ => .error (extraArgument word command)

def requestOf (command : Command) (s : Settings) (operands : List Bytes) : Except Fault Request :=
  if s.help then .ok .usage
  else
    match command with
    | .definition =>
        match operands with
        | [raw] =>
            match PositionText.parse raw with
            | .ok p => .ok (.ask (.definition p) s)
            | .error e => .error (.invalidPosition raw e.reason)
        | _ => .error (wrongCount operands.length)
    | .instructions => withoutOperands command operands (.ask .instructions s)
    | .symbols => withoutOperands command operands (.ask .symbols s)
    | .serve => withoutOperands command operands (.serve s)
    | .completion | .help => .ok .usage

def readFlags (flags : List FlagName) (arguments : List Bytes) :
    Except Fault (Settings × List Bytes) :=
  (takeArguments flags .initial arguments).mapError fun e => .plain e.message

def request (arguments : List Bytes) : Except Fault Request :=
  match words arguments with
  | [] => do
      let (s, _) ← readFlags programFlags arguments
      return if !s.help && s.version then .version else .usage
  | word :: _ =>
      match Command.ofWord? word with
      | none => .error (unknownCommand word)
      | some command => do
          let (s, operands) ← readFlags commonFlags (withoutCommand word arguments)
          requestOf command s operands

end CommandLine

end Dockerfile
