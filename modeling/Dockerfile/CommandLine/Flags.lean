import Dockerfile.Text.Quoted

/-!
# Command line flags

Flags may stand anywhere among the arguments, up to an argument `--`.  A flag has a long name and
sometimes a letter; letters may be written together after one hyphen.  A switch takes a value only
after an equals sign; the other flags take the rest of their argument or the next one.  A flag that
is given twice has the last value.
-/

namespace Dockerfile

namespace CommandLine

inductive FlagName where
  | file
  | debug
  | json
  | help
  | version
  deriving DecidableEq, Repr

namespace FlagName

def spelling : FlagName → Bytes
  | .file => utf8 "file"
  | .debug => utf8 "debug"
  | .json => utf8 "json"
  | .help => utf8 "help"
  | .version => utf8 "version"

def letter? : FlagName → Option UInt8
  | .file => some 0x66
  | .help => some 0x68
  | .version => some 0x76
  | .debug | .json => none

def isSwitch : FlagName → Bool
  | .file => false
  | .debug | .json | .help | .version => true

def title (flag : FlagName) : Bytes :=
  match flag.letter? with
  | some letter => [Byte.minus, letter] ++ utf8 ", --" ++ flag.spelling
  | none => utf8 "--" ++ flag.spelling

end FlagName

structure Settings where
  file : Bytes
  debug : Bool
  json : Bool
  help : Bool
  version : Bool
  deriving DecidableEq, Repr

def Settings.initial : Settings :=
  ⟨utf8 "Dockerfile", false, false, false, false⟩

inductive FlagError where
  | badForm (argument : Bytes)
  | unknownName (name : Bytes)
  | unknownLetter (letter : UInt8) (letters : Bytes)
  | missingValue (name : Bytes)
  | missingLetterValue (letter : UInt8) (letters : Bytes)
  | badSwitch (value : Bytes) (flag : FlagName)
  deriving DecidableEq, Repr

/-- The character that a byte is shown as: a byte outside ASCII is shown as the first byte of the
encoding of the character of that number. -/
def shownLetter (b : UInt8) : Char :=
  match String.utf8EncodeChar (Char.ofNat b.toNat) with
  | first :: _ => Char.ofNat first.toNat
  | [] => Char.ofNat b.toNat

def quotedLetter (b : UInt8) : Bytes :=
  let c := shownLetter b
  let body :=
    if c.toNat == 0x27 then [Byte.backslash, Byte.singleQuote]
    else if c.toNat == 0x22 then [Byte.doubleQuote]
    else Quoted.piece (.scalar c)
  Byte.singleQuote :: body ++ [Byte.singleQuote]

def FlagError.message : FlagError → Bytes
  | .badForm argument => utf8 "bad flag syntax: " ++ argument
  | .unknownName name => utf8 "unknown flag: --" ++ name
  | .unknownLetter letter letters =>
      utf8 "unknown shorthand flag: " ++ quotedLetter letter ++ utf8 " in -" ++ letters
  | .missingValue name => utf8 "flag needs an argument: --" ++ name
  | .missingLetterValue letter letters =>
      utf8 "flag needs an argument: " ++ quotedLetter letter ++ utf8 " in -" ++ letters
  | .badSwitch value flag =>
      utf8 "invalid argument " ++ value.quoted ++ utf8 " for " ++ flag.title.quoted ++
        utf8 " flag: strconv.ParseBool: parsing " ++ value.quoted ++ utf8 ": invalid syntax"

def truth? (value : Bytes) : Option Bool :=
  if ["1", "t", "T", "true", "TRUE", "True"].any (utf8 · == value) then some true
  else if ["0", "f", "F", "false", "FALSE", "False"].any (utf8 · == value) then some false
  else none

namespace Settings

def turn (s : Settings) (flag : FlagName) (on : Bool) : Settings :=
  match flag with
  | .file => s
  | .debug => { s with debug := on }
  | .json => { s with json := on }
  | .help => { s with help := on }
  | .version => { s with version := on }

def set (s : Settings) (flag : FlagName) (value : Bytes) : Except FlagError Settings :=
  if flag.isSwitch then
    match truth? value with
    | some on => .ok (s.turn flag on)
    | none => .error (.badSwitch value flag)
  else .ok { s with file := value }

end Settings

/-- Where the reading of one argument ends: all is said, or a flag needs the next argument as its
value, without which it is an error. -/
inductive Taken where
  | done (s : Settings)
  | wants (s : Settings) (flag : FlagName) (missing : FlagError)

def takeLetters (flags : List FlagName) (s : Settings) : Bytes → Except FlagError Taken
  | [] => .ok (.done s)
  | letter :: rest =>
      if (utf8 "test.").isPrefixOf (letter :: rest) then .ok (.done s)
      else
        match flags.find? (·.letter? == some letter) with
        | none => .error (.unknownLetter letter (letter :: rest))
        | some flag =>
            if rest.head? == some Byte.equals && 1 < rest.length then
              (s.set flag (rest.drop 1)).map .done
            else if flag.isSwitch then takeLetters flags (s.turn flag true) rest
            else if rest.isEmpty then
              .ok (.wants s flag (.missingLetterValue letter [letter]))
            else (s.set flag rest).map .done

def takeName (flags : List FlagName) (s : Settings) (body : Bytes) : Except FlagError Taken :=
  if body.head? == some Byte.minus || body.head? == some Byte.equals then
    .error (.badForm (utf8 "--" ++ body))
  else
    let name := body.takeWhile (· != Byte.equals)
    match flags.find? (·.spelling == name) with
    | none => .error (.unknownName name)
    | some flag =>
        match body.dropWhile (· != Byte.equals) with
        | _ :: value => (s.set flag value).map .done
        | [] =>
            if flag.isSwitch then .ok (.done (s.turn flag true))
            else .ok (.wants s flag (.missingValue name))

/-- Read an argument that starts with a hyphen; without the hyphen it is not empty. -/
def takeFlag (flags : List FlagName) (s : Settings) : Bytes → Except FlagError Taken
  | b :: rest => if b == Byte.minus then takeName flags s rest else takeLetters flags s (b :: rest)
  | [] => .ok (.done s)

def isFlag (argument : Bytes) : Bool :=
  argument.head? == some Byte.minus && 1 < argument.length

def takeArguments (flags : List FlagName) :
    Settings → List Bytes → Except FlagError (Settings × List Bytes)
  | s, [] => .ok (s, [])
  | s, argument :: rest =>
      if argument == utf8 "--" then .ok (s, rest)
      else if isFlag argument then
        match takeFlag flags s (argument.drop 1) with
        | .error e => .error e
        | .ok (.done s) => takeArguments flags s rest
        | .ok (.wants s flag missing) =>
            match rest with
            | [] => .error missing
            | value :: rest =>
                match s.set flag value with
                | .error e => .error e
                | .ok s => takeArguments flags s rest
      else (takeArguments flags s rest).map fun (s, operands) => (s, argument :: operands)

end CommandLine

end Dockerfile
