import Ckl.Eval

/-!
# Sessions

A session is an interpreter at work: the store, the outermost frame, which binds the built-in functions
and holds the modules, and inside it the frame of the user, in which scripts are evaluated one after the
other. Sessions share nothing.
-/

namespace Ckl

open Source (Position Node)

/-- The bound with which sessions evaluate. -/
def evaluationBound : Nat := Nat.pow 10 15

/-- The output stream that a session begins with. -/
def standardOutput : Ref .output := ⟨0⟩

/-- The input stream that a session begins with. -/
def standardInput : Ref .input := ⟨0⟩

/-- The names that are bound before any script: the built-in functions, whose values refer to them in
order, the null value and two streams. -/
def baseBindings : Bindings Value :=
  Bindings.empty.putAll
    ((Builtin.all.zipIdx.map fun builtin => (builtin.1.name, Value.func ⟨builtin.2⟩)) ++
      [("NULL", .null), (Builtin.outputName, .output standardOutput),
        (Builtin.inputName, .input standardInput)])

/-- An interpreter at work. -/
structure Session where
  store : Store
  base : FrameRef
  user : FrameRef
  /-- The file that scripts are taken to be in. -/
  file : String

namespace Session

/-- The frame of the built-in functions. -/
def baseFrame (resolve : String → Resolution) : Frame :=
  { bindings := baseBindings, registry := some { resolve } }

/-- The store that a session begins with. -/
def baseStore (resolve : String → Resolution) (input : List InputLine) (now : Calendar.Moment) :
    Store where
  now := now
  functions := (Builtin.all.map Function.builtin).toArray
  inputs := #[input]
  outputs := #[""]
  frames := #[baseFrame resolve, { outer := [⟨0⟩] }]

/-- A session that begins. -/
def start (file : String) (resolve : String → Resolution) (input : List InputLine)
    (now : Calendar.Moment) : Session :=
  { store := baseStore resolve input now, base := ⟨0⟩, user := ⟨1⟩, file }

/-- Does some work in a session. -/
def perform {α : Type} (session : Session) (work : Run α) : Except Stop α × Session :=
  match work session.store with
  | .ok value store => (.ok value, { session with store })
  | .error stop store => (.error stop, { session with store })

/-- Evaluates a syntax tree in the frame of the user. -/
def evalNode (session : Session) (node : Node) : Except Stop Value × Session :=
  session.perform (finish node.position (evaluate evaluationBound node session.user))

/-- Evaluates a script that is taken to be in the given file. -/
def evalNamed (session : Session) (file source : String) : Except Stop Value × Session :=
  match Source.readScript file source with
  | .ok node => session.evalNode node
  | .error fault => (.error (.failed (Failure.ofFault fault)), session)

/-- Evaluates a script. -/
def evalSource (session : Session) (source : String) : Except Stop Value × Session :=
  session.evalNamed session.file source

/-- Binds a name in the frame of the user. -/
def define (session : Session) (name : String) (value : Value) : Session :=
  { session with store := session.store.define session.user name value }

/-- Binds the name of a function of the host, so that modules see it too. -/
def register (session : Session) (function : HostFunction) : Session :=
  let (value, store) := session.store.placeFunction (.host function)
  { session with store := store.define session.base function.name value }

/-- The names that the frame of the user binds, in order. -/
def bindings (session : Session) : Bindings Value := (session.store.frame session.user).bindings

/-- What has been written to the standard output. -/
def output (session : Session) : String := session.store.written standardOutput

/-- Writes to the standard output. -/
def print (session : Session) (text : String) : Session :=
  { session with store := session.store.write standardOutput text }

/-- The session with nothing written to its standard output. -/
def clearOutput (session : Session) : Session :=
  { session with
    store := { session.store with
      outputs := session.store.outputs.modify standardOutput.index fun _ => "" } }

end Session

/-- The free names of a script that nothing binds beforehand. -/
def undefinedNames (node : Node) : List String :=
  node.freeNames.filter fun name => !baseBindings.binds name

end Ckl
