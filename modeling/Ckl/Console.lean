import Ckl.Session
import Ckl.Text.Blank
import Ckl.Text.Grapheme

/-!
# The console

Statements are read line by line and evaluated in one session. A statement that is not complete yet is
kept, and the next line is appended to it; values go to the output and failures to the error stream. The
console ends at the end of its input, where an incomplete statement is dropped, or at a command to quit.
Programs read from the same input; once one of them has, the rest of the input belongs to it.
-/

namespace Ckl

/-- What a command leaves behind. -/
structure Transcript where
  code : Nat
  output : String
  errors : String
  deriving DecidableEq, Repr

/-- A text with the end of a line. -/
def lineOf (text : String) : String := text ++ "\n"

/-- A console at work. -/
structure Console where
  session : Session
  /-- The incomplete statement that has been read so far. -/
  pending : String := ""
  errors : String := ""

namespace Console

/-- The character that takes back the grapheme before it. -/
def backspace : String := "\x08"

/-- A line as it is meant: each backspace takes back a grapheme. -/
def applyBackspaces (line : String) : String :=
  let kept := (Text.graphemes line).foldl
    (fun kept part => if part = backspace then kept.drop 1 else part :: kept) []
  String.join kept.reverse

/-- Whether a line is a command to quit. -/
def isQuit (line : String) : Bool :=
  let word := String.ofList (Text.trimBlanks line.toList)
  word == ":quit" || word == ":exit"

/-- Whether a line has only blanks. -/
def isBlankLine (line : String) : Bool := line.toList.all Text.isBlank

/-- What is left behind at the end. -/
def close (console : Console) (code : Nat) : Transcript :=
  { code, output := console.session.output, errors := console.errors }

/-- Reports a failure. -/
def report (console : Console) (failure : Failure) : Console :=
  { console with errors := console.errors ++ lineOf failure.report }

/-- Evaluates the statement read so far, with `rest` as the input of programs. -/
def evaluatePending (console : Console) (rest : List InputLine) : Except Stop Console :=
  let session :=
    { console.session with store := console.session.store.setLines standardInput rest }
  let (result, session) := session.evalSource console.pending
  match result with
  | .ok value =>
    .ok { console with session := session.print (lineOf (session.store.text value)), pending := "" }
  | .error (.failed failure) =>
    if failure.isIncomplete then .ok { console with session }
    else .ok ({ console with session, pending := "" }.report failure)
  | .error stop => .error stop

/-- Whether programs have read some of the input. -/
def inputTaken (console : Console) (rest : List InputLine) : Bool :=
  (console.session.store.lines standardInput).length < rest.length

/-- Reads lines up to the end. Without an answer only if evaluation has none. -/
def run (console : Console) : List InputLine → Except Stop Transcript
  | [] => .ok (console.close 0)
  | .error problem :: _ => .ok ((console.report (.unreadable problem)).close 1)
  | .ok line :: rest =>
    let line := applyBackspaces line
    if console.pending.isEmpty && isQuit line then .ok (console.close 0)
    else if console.pending.isEmpty && isBlankLine line then run console rest
    else
      match evaluatePending { console with pending := console.pending ++ lineOf line } rest with
      | .ok console => if console.inputTaken rest then .ok (console.close 0) else run console rest
      | .error stop => .error stop

end Console

end Ckl
