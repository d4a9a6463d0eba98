import Dockerfile.CommandLine.Command
import Dockerfile.CommandLine.Path
import Dockerfile.CommandLine.Report
import Dockerfile.Session.Session

/-!
# Runs of the program

A run reads a document from where the settings say, answers the question, and leaves behind a
status and what it has written.  Log lines come before the lines that tell a fault.
-/

namespace Dockerfile

namespace CommandLine

structure Outcome where
  status : Nat
  out : Bytes
  err : Bytes
  deriving DecidableEq, Repr

namespace Outcome

def success (out : Bytes) : Outcome := ⟨0, out, []⟩

def faultLines (fault : Fault) : Bytes :=
  let hint := Fault.hint fault
  utf8 "Error: " ++ fault.text ++ [Byte.lineFeed] ++
    if hint.isEmpty then [] else hint ++ [Byte.lineFeed]

def failure (out : Bytes) (fault : Fault) : Outcome :=
  ⟨Fault.exitStatus fault, out, faultLines fault⟩

def withLog (outcome : Outcome) (lines : List Bytes) : Outcome :=
  { outcome with err := (lines.flatMap (· ++ [Byte.lineFeed])) ++ outcome.err }

end Outcome

def answer (question : Question) (asJson : Bool) (a : Analysis) : Outcome :=
  match question with
  | .instructions => .success (Report.instructions a asJson)
  | .symbols => .success (Report.symbols a asJson)
  | .definition p =>
      match a.definition? p with
      | some l => .success (Report.location l asJson)
      | none => .failure (if asJson then utf8 "null\n" else []) (Report.undefined a p)

def inspect (question : Question) (s : Settings) (detailed : Bool) (doc : Document) : Outcome :=
  (answer question s.json (Analysis.ofDocument doc)).withLog
    (Event.log (s.debug || detailed) doc.events)

inductive Source where
  | standardInput
  | file (path : Bytes)
  deriving DecidableEq, Repr

/-- The file that is asked for; a hyphen is the standard input, and what is piped into it goes
before the file of the default name. -/
def Settings.source (s : Settings) (isPiped : Bool) : Source :=
  if s.file == utf8 "-" || (s.file == Settings.initial.file && isPiped) then .standardInput
  else .file s.file

def Source.document (source : Source) (directory : List Bytes) (content : Bytes) : Document :=
  match source with
  | .standardInput => .ofText (utf8 "stdin") content
  | .file path => .ofText (Path.uri directory path) content

def Source.fault (source : Source) (failure : Path.Failure) : Fault :=
  match source with
  | .standardInput => .inputRead (utf8 "stdin") (some (.plain (failure.text (utf8 "/dev/stdin"))))
  | .file path =>
      let cause := Fault.plain (failure.text path)
      if failure = .missing then .fileNotFound path cause else .inputRead path (some cause)

def versionLine : Bytes :=
  program ++ utf8 " version " ++ programVersion ++ [Byte.lineFeed]

def usageText : Bytes :=
  utf8 "Usage:\n" ++
    Command.offered.flatMap fun command =>
      utf8 "  " ++ program ++ Byte.space :: command.spelling ++ [Byte.lineFeed]

/-- The standard input of a run: a terminal that gives nothing, piped bytes, or something that
cannot be read. -/
inductive StandardInput where
  | terminal
  | piped (content : Bytes)
  | unreadable (reason : Bytes)

namespace StandardInput

def isPiped : StandardInput → Bool
  | .terminal => false
  | .piped _ | .unreadable _ => true

def read : StandardInput → Except Path.Failure Bytes
  | .terminal => .ok []
  | .piped content => .ok content
  | .unreadable reason => .error (.other reason)

end StandardInput

structure Surroundings where
  input : StandardInput
  directory : List Bytes
  tree : FileTree
  detailed : Bool

def Surroundings.read (around : Surroundings) : Source → Except Path.Failure Bytes
  | .standardInput => around.input.read
  | .file path => around.tree.read around.directory path

def run (around : Surroundings) (arguments : List Bytes) : Outcome :=
  match request arguments with
  | .error fault => .failure [] fault
  | .ok .usage => .success usageText
  | .ok .version => .success versionLine
  | .ok (.serve s) =>
      (Outcome.success []).withLog (Event.log (s.debug || around.detailed) [Session.opening])
  | .ok (.ask question s) =>
      let source := s.source around.input.isPiped
      match around.read source with
      | .error failure => .failure [] (source.fault failure)
      | .ok content => inspect question s around.detailed (source.document around.directory content)

end CommandLine

end Dockerfile
