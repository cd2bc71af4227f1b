import Ckl.Console
import Ckl.Files

/-!
# Commands

The commands of the program: to run a script, to evaluate a text, to check which names a script leaves
undefined, and to hold a console. A command reads files and an input, and leaves a transcript behind.
-/

namespace Ckl

/-- A command, with directories to search for modules. -/
inductive Command where
  | run (script : String) (directories : List String)
  | eval (source : String)
  | check (script : String)
  | console (directories : List String)
  deriving DecidableEq, Repr

namespace Command

/-! ## Arguments -/

/-- Arguments divided into those of a command and the directories given by options. -/
def splitOptions : List String → Option (List String × List String)
  | [] => some ([], [])
  | "--" :: rest => some (rest, [])
  | [argument] => withOption argument none ([], [])
  | argument :: next :: rest =>
    if argument = "-I" ∨ argument = "--include" then
      (splitOptions rest).bind (withOption argument (some next))
    else (splitOptions (next :: rest)).bind (withOption argument none)
where
  /-- The division with an argument in front, and with the value behind it if it is an option. -/
  withOption (argument : String) (value : Option String) (parts : List String × List String) :
      Option (List String × List String) :=
    if argument = "-I" ∨ argument = "--include" then
      value.map fun directory => (parts.1, directory :: parts.2)
    else if argument.startsWith "--include=" then
      some (parts.1, (argument.drop 10).toString :: parts.2)
    else if argument.startsWith "-I=" then some (parts.1, (argument.drop 3).toString :: parts.2)
    else if argument.startsWith "-I" then some (parts.1, (argument.drop 2).toString :: parts.2)
    else if argument.startsWith "-" && argument != "-" then none
    else some (argument :: parts.1, parts.2)

/-- The command that arguments ask for. -/
def ofArguments : List String → Option Command
  | [] => some (.console [])
  | word :: arguments =>
    match word, splitOptions arguments with
    | "run", some ([script], directories) => some (.run script directories)
    | "eval", some ([source], []) => some (.eval source)
    | "check", some ([script], []) => some (.check script)
    | "repl", some ([], directories) => some (.console directories)
    | _, _ => none

/-- How the program is used. -/
def usage : String :=
  "usage: run SCRIPT [-I DIRECTORY]... | eval SOURCE | check SCRIPT | repl [-I DIRECTORY]...\n"

/-- The transcript of arguments that ask for nothing. -/
def misused : Transcript := { code := 2, output := "", errors := usage }

/-- Whether programs that a command runs can read the input. -/
def readsInput : Command → Bool
  | .check _ => false
  | _ => true

/-! ## Performance -/

/-- What commands find around them. -/
structure Surroundings where
  files : Files
  input : List InputLine
  now : Calendar.Moment

/-- The file that texts without a file are taken to be in. -/
def mainFile : String := "\x7bmain\x7d"

/-- The transcript of a failure. -/
def failed (output : String) (failure : Failure) : Transcript :=
  { code := 1, output, errors := lineOf failure.report }

/-- Reads a script and goes on with its text. -/
def withScript (files : Files) (script : String) (use : String → Except Stop Transcript) :
    Except Stop Transcript :=
  match files.read? script with
  | some (.ok source) => use source
  | some (.error problem) => .ok (failed "" (.unreadable problem))
  | none => .error (.awaiting script)

/-- The transcript of a session that evaluates one script. -/
def transcript (outcome : Except Stop Value × Session) (shown : Session → Value → String) :
    Except Stop Transcript :=
  let session := outcome.2
  match outcome.1 with
  | .ok value => .ok { code := 0, output := session.output ++ shown session value, errors := "" }
  | .error (.failed failure) => .ok (failed session.output failure)
  | .error stop => .error stop

/-- Runs a script. Modules are searched in its directory first. -/
def runScript (around : Surroundings) (script : String) (directories : List String) :
    Except Stop Transcript :=
  withScript around.files script fun source =>
    let resolve := around.files.resolve (Files.parent script :: directories)
    let session := Session.start script resolve around.input around.now
    transcript (session.evalSource source) fun _ _ => ""

/-- Evaluates a text, without modules, and prints its value. -/
def evalText (around : Surroundings) (source : String) : Except Stop Transcript :=
  let session := Session.start mainFile (fun _ => .missing) around.input around.now
  transcript (session.evalSource source) fun session value => lineOf (session.store.text value)

/-- What is said about a script that leaves some names undefined. -/
def checkReport (script : String) : List String → Transcript
  | [] => { code := 0, output := lineOf (script ++ ": ok"), errors := "" }
  | names =>
    { code := 1
      output := String.join (names.map fun name =>
        lineOf (script ++ ": " ++ (RuntimeError.undefinedName name).message))
      errors := "" }

/-- Checks which names a script leaves undefined. -/
def checkScript (files : Files) (script : String) : Except Stop Transcript :=
  withScript files script fun source =>
    match Source.readScript script source with
    | .ok node => .ok (checkReport script (undefinedNames node))
    | .error fault => .ok (failed "" (Failure.ofFault fault))

/-- Holds a console. Modules are searched in the current directory first. -/
def holdConsole (around : Surroundings) (directories : List String) : Except Stop Transcript :=
  let resolve := around.files.resolve ("." :: directories)
  let session := Session.start mainFile resolve [] around.now
  Console.run { session } around.input

/-- Performs a command. -/
def perform (around : Surroundings) : Command → Except Stop Transcript
  | .run script directories => runScript around script directories
  | .eval source => evalText around source
  | .check script => checkScript around.files script
  | .console directories => holdConsole around directories

end Command

end Ckl
