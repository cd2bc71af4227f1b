import Ckl.Command
import Std.Time.Zoned

/-!
# The program

The outer layer. Arguments, the input, the clock and files come in, and a transcript goes out; what
happens between is `Command.perform`. A command is performed with the files that are known so far. When
it needs another one, that file is looked up and the command is performed again: nothing it has done
before can be seen outside.
-/

namespace Ckl.Program

/-- What stands at a path. -/
def lookUp (path : String) : IO Lookup := do
  try
    return .file (← IO.FS.readBinFile path)
  catch problem =>
    match problem with
    | .noFileOrDirectory .. => return .missing
    | .inappropriateType _ 21 _ => return .directory
    | .inappropriateType .. => return .blocked
    | _ => throw problem

/-- The moment that the clock shows. -/
def currentMoment : IO Calendar.Moment := do
  let now ← Std.Time.PlainDateTime.now
  let day := Calendar.dayNumber? now.date.year now.date.month.val.toNat now.date.day.val.toNat
  return { day := day.getD Calendar.firstDay, time := ⟨now.time.toSeconds.val.toNat, false⟩ }

/-- The bytes of a stream up to its end. -/
partial def readAll (stream : IO.FS.Stream) (content : ByteArray) : IO ByteArray := do
  let part ← stream.read 65536
  if part.isEmpty then return content else readAll stream (content ++ part)

/-- Performs a command, and looks up the files it needs. -/
partial def performWith (command : Command) (input : List InputLine) (now : Calendar.Moment)
    (known : List (String × Lookup)) : IO Transcript := do
  let files : Files := fun path => (known.lookup path).getD .unknown
  match command.perform { files, input, now } with
  | .ok transcript => return transcript
  | .error (.awaiting path) => performWith command input now ((path, ← lookUp path) :: known)
  | .error _ => throw (IO.userError "evaluation has been given up")

/-- The transcript of some arguments. -/
def transcriptOf (arguments : List String) : IO Transcript := do
  match Command.ofArguments arguments with
  | none => return Command.misused
  | some command =>
    let content ← if command.readsInput then readAll (← IO.getStdin) .empty else pure .empty
    performWith command (inputLines content) (← currentMoment) []

end Ckl.Program

/-- Performs the command that the arguments ask for. -/
def main (arguments : List String) : IO UInt32 := do
  let transcript ← Ckl.Program.transcriptOf arguments
  (← IO.getStdout).putStr transcript.output
  (← IO.getStderr).putStr transcript.errors
  return transcript.code.toUInt32
