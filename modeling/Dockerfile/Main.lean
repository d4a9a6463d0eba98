import Dockerfile.CommandLine.Run
import Dockerfile.Session.Frame

/-!
# The program

The outer layer: it reads the arguments, the files and the standard input, and writes what the
library answers.
-/

namespace Dockerfile

namespace Program

def write (stream : IO.FS.Stream) (bytes : Bytes) : IO Unit := do
  stream.write ⟨bytes.toArray⟩
  stream.flush

def writeLines (stream : IO.FS.Stream) (lines : List Bytes) : IO Unit :=
  write stream (lines.flatMap (· ++ [Byte.lineFeed]))

partial def readAll (stream : IO.FS.Stream) (taken : ByteArray) : IO ByteArray := do
  let chunk ← stream.read 65536
  if chunk.isEmpty then return taken else readAll stream (taken ++ chunk)

/-- Read a number of bytes, or fewer if the stream ends. -/
partial def readExactly (stream : IO.FS.Stream) (count : Nat) (taken : ByteArray) :
    IO ByteArray := do
  if count ≤ taken.size then return taken
  let chunk ← stream.read (USize.ofNat (count - taken.size))
  if chunk.isEmpty then return taken else readExactly stream count (taken ++ chunk)

/-- Read header lines up to the empty one; the answer is the number of bytes announced, or none at
the end of the stream. -/
partial def readHeader (stream : IO.FS.Stream) (announced : Nat) : IO (Option Nat) := do
  let line ← stream.getLine
  if line.isEmpty then return none
  if Frame.endsHeader (utf8 line) then return some announced
  readHeader stream ((Frame.announced? (utf8 line)).getD announced)

def failureOf (path : Bytes) : IO.Error → Path.Failure
  | .noFileOrDirectory .. => .missing
  | .inappropriateType .. => .isDirectory
  | .invalidArgument .. => .invalid
  | e => .other (utf8 "open " ++ path ++ utf8 ": " ++ utf8 (toString e))

def readFile (path : Bytes) : IO (Except Path.Failure Bytes) := do
  let name := String.ofList path.chars
  try
    return .ok (← IO.FS.readBinFile name).toList
  catch e =>
    return .error (failureOf path e)

def readSource : CommandLine.Source → IO (Except Path.Failure Bytes)
  | .standardInput => do
      try
        return .ok (← readAll (← IO.getStdin) .empty).toList
      catch e =>
        return .error (.other (utf8 (toString e)))
  | .file path => readFile path

partial def serve (input output errors : IO.FS.Stream) (detailed : Bool) (s : Session) :
    IO Unit := do
  let some count ← readHeader input 0 | return
  let body ← readExactly input count .empty
  match (Json.read? body.toList).bind Message.ofJson? with
  | none => serve input output errors detailed s
  | some message =>
      if Session.isExit message then return
      let (s, reply, events) := s.handle message
      writeLines errors (Event.log detailed events)
      match message.id with
      | some id => write output (Frame.write (reply.toJson id))
      | none => pure ()
      serve input output errors detailed s

def finish (outcome : CommandLine.Outcome) : IO UInt32 := do
  write (← IO.getStderr) outcome.err
  write (← IO.getStdout) outcome.out
  return UInt32.ofNat outcome.status

end Program

end Dockerfile

open Dockerfile in
def main (arguments : List String) : IO UInt32 := do
  let detailed := !((← IO.getEnv "DOCKERDEF_DEBUG").getD "").isEmpty
  match CommandLine.request (arguments.map utf8) with
  | .error fault => Program.finish (.failure [] fault)
  | .ok .usage => Program.finish (.success CommandLine.usageText)
  | .ok .version => Program.finish (.success CommandLine.versionLine)
  | .ok (.serve s) =>
      let detailed := s.debug || detailed
      let errors ← IO.getStderr
      Program.writeLines errors (Event.log detailed [Session.opening])
      Program.serve (← IO.getStdin) (← IO.getStdout) errors detailed .start
      return 0
  | .ok (.ask question s) =>
      let source := s.source (!(← (← IO.getStdin).isTty))
      match ← Program.readSource source with
      | .error failure => Program.finish (.failure [] (source.fault failure))
      | .ok content =>
          let directory := Path.absolute [] (utf8 (← IO.currentDir).toString)
          Program.finish
            (CommandLine.inspect question s detailed (source.document directory content))
