import Ckl.Scope
import Ckl.Value.Access

/-!
# Runs

A run works on a store and ends with a result, with a failure, or without an answer: when its bound on
the depth of evaluation is exhausted, or when it needs a file that has not been looked up. What a run
has done to the store remains when it fails.
-/

namespace Ckl

open Source (Position Node)

/-- Why a run ends without a result. -/
inductive Stop where
  | failed (failure : Failure)
  /-- The bound on the depth of evaluation is reached: there is no answer. -/
  | exhausted
  /-- The file at a path is needed and has not been looked up yet: there is no answer. -/
  | awaiting (path : String)
  deriving Repr

/-- Work on a store. -/
abbrev Run := EStateM Stop Store

namespace Run

variable {α : Type}

/-- Ends without an answer. -/
def exhausted : Run α := throw .exhausted

/-- Ends with a failure. -/
def stop (failure : Failure) : Run α := throw (.failed failure)

/-- Ends with an error at a place. -/
def fail (error : RuntimeError) (position : Position) : Run α :=
  stop (Failure.runtime error position)

/-- The result of an operation, whose error is placed. -/
def check (position : Position) : Checked α → Run α
  | .ok value => pure value
  | .error error => fail error position

/-- What the store tells. -/
def read (question : Store → α) : Run α := modifyGet fun store => (question store, store)

/-- Stores a fresh value. -/
def place (fresh : Fresh) : Run Value := modifyGet fun store => store.place fresh

/-- Stores a list. -/
def placeList (items : List Value) : Run Value := place (.list items.toArray)

/-- Stores a list of two elements for each pair. -/
def placePairs (pairs : List (Value × Value)) : Run (List Value) :=
  pairs.mapM fun pair => placeList [pair.1, pair.2]

/-- The fresh value of an operation on the store, whose error is placed. -/
def compute (position : Position) (operation : Store → Checked Fresh) : Run Value := do
  place (← check position (← read operation))

/-- Does some work and tells how it ended, unless there is no answer. -/
def attempt (work : Run α) : Run (Except Failure α) := fun store =>
  match work store with
  | .ok value store => .ok (.ok value) store
  | .error (.failed failure) store => .ok (.error failure) store
  | .error stop store => .error stop store

/-- Ends as some work has ended. -/
def conclude : Except Failure α → Run α
  | .ok value => pure value
  | .error failure => stop failure

/-- What a name means in a frame. -/
def lookup (frame : FrameRef) (name : String) (position : Position) : Run Value := do
  match ← read (·.lookup? frame name) with
  | some value => return value
  | none => fail (.undefinedName name) position

/-- Gives a name that is known another value. -/
def assign (frame : FrameRef) (name : String) (value : Value) (position : Position) : Run Unit := do
  match ← read (·.owner? frame name) with
  | some owner => modify (·.define owner name value)
  | none => fail (.undefinedName name) position

/-- Binds a name in a frame. -/
def define (frame : FrameRef) (name : String) (value : Value) : Run Unit :=
  modify (·.define frame name value)

/-- Removes a name from a frame, and binds it again if it had a value before. -/
def restore (frame : FrameRef) (name : String) (before : Option Value) : Run Unit := do
  modify (·.undefine frame name)
  match before with
  | some value => define frame name value
  | none => pure ()

/-- A new frame inside another one. -/
def enter (frame : FrameRef) (bindings : Bindings Value) : Run FrameRef :=
  modifyGet fun store => store.enter frame bindings

/-- The next line of a stream, which is taken even if it is no text. -/
def readLine (input : Ref .input) : Run (Option String) := do
  match ← read (·.lines input) with
  | [] => return none
  | line :: rest =>
    modify (·.setLines input rest)
    match line with
    | .ok text => return some text
    | .error problem => stop (.unreadable problem)

end Run

end Ckl
