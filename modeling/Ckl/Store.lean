import Ckl.Bindings
import Ckl.Builtin
import Ckl.Collection.Table
import Ckl.Failure
import Ckl.Source.Node

/-!
# The store

What references refer to: the contents of collections, objects, functions and streams, the frames in
which names are bound, and the modules that have been loaded. Storage is only ever added, so a
reference once made stays good.

Frames form a tree. A frame lists the frames around it, the nearest one first, so a name is looked up
along a list that is part of the frame.
-/

namespace Ckl

open Source (Position Node Lambda)
open Collection (Table KeySet)

/-- A reference to a frame. -/
structure FrameRef where
  index : Nat
  deriving DecidableEq, Repr, Inhabited

/-- A function that a host adds. It computes a value from its arguments and may look into lists, but it
changes nothing. -/
structure HostFunction where
  name : String
  parameters : List String
  rest : Option String
  run : (items : Ref .list → List Value) → (arguments : Bindings Value) → Position →
    Except Failure Value

/-- What a function value refers to. -/
inductive Function where
  | builtin (builtin : Builtin)
  | host (function : HostFunction)
  /-- A function of a script with the frame in which it was made. -/
  | lambda (definition : Lambda Node) (frame : FrameRef)

instance : Inhabited Function := ⟨.builtin .type⟩

namespace Function

/-- The name of a function; a function of a script that has none is called by the word for it. -/
def name : Function → String
  | .builtin b => b.name
  | .host h => h.name
  | .lambda definition _ => definition.name.getD "lambda"

/-- The parameters of a function. -/
def parameters : Function → List String
  | .builtin b => b.parameters
  | .host h => h.parameters
  | .lambda definition _ => definition.parameters.map (·.name)

/-- The parameter that takes surplus arguments. -/
def rest : Function → Option String
  | .builtin _ => none
  | .host h => h.rest
  | .lambda definition _ => definition.rest

end Function

/-- A line of an input stream, without its end; it may be no text. -/
abbrev InputLine := Except ReadProblem String

/-- What a search for the file of a module finds. -/
inductive Resolution where
  | found (text : String)
  | missing
  | unreadable (problem : ReadProblem)
  /-- The file at a path has not been looked up yet. -/
  | unknown (path : String)
  deriving Repr

/-- The modules of an interpreter: where they are found, which ones are loaded, each with its frame,
and which ones are being loaded, the outermost one first. -/
structure Registry where
  resolve : String → Resolution
  loaded : Bindings FrameRef := Bindings.empty
  loading : List String := []

/-- Names bound to values, with the frames around it; the outermost frame may have modules. -/
structure Frame where
  outer : List FrameRef := []
  bindings : Bindings Value := Bindings.empty
  registry : Option Registry := none

instance : Inhabited Frame := ⟨{}⟩

/-- The storages of all references, and the moment that counts as now. -/
structure Store where
  /-- The clock stands still: all that a session does counts as done at the moment when it begins, to the
  second, so that `date()` is the same in every call. -/
  now : Calendar.Moment
  lists : Array (Array Value) := #[]
  sets : Array (KeySet Value) := #[]
  maps : Array (Table Value Value) := #[]
  objects : Array (Bindings Value) := #[]
  functions : Array Function := #[]
  inputs : Array (List InputLine) := #[]
  outputs : Array String := #[]
  nodes : Array Node := #[]
  frames : Array Frame := #[]

/-- A value that is yet to be stored. -/
inductive Fresh where
  | value (value : Value)
  | list (items : Array Value)
  | set (keys : KeySet Value)
  | map (entries : Table Value Value)
  | object (members : Bindings Value)

namespace Store

/-! ## Contents -/

/-- The items of a list. -/
def items (store : Store) (ref : Ref .list) : Array Value := store.lists[ref.index]?.getD #[]

/-- The table of a set. -/
def keySet (store : Store) (ref : Ref .set) : KeySet Value := store.sets[ref.index]?.getD Table.empty

/-- The table of a map. -/
def table (store : Store) (ref : Ref .map) : Table Value Value :=
  store.maps[ref.index]?.getD Table.empty

/-- The members of an object. -/
def members (store : Store) (ref : Ref .object) : Bindings Value :=
  store.objects[ref.index]?.getD Bindings.empty

/-- The function of a function value. -/
def function (store : Store) (ref : Ref .func) : Function := store.functions[ref.index]?.getD default

/-- The lines that are left of an input stream. -/
def lines (store : Store) (ref : Ref .input) : List InputLine := store.inputs[ref.index]?.getD []

/-- What has been written to an output stream. -/
def written (store : Store) (ref : Ref .output) : String := store.outputs[ref.index]?.getD ""

/-- The syntax tree of a node value. -/
def tree (store : Store) (ref : Ref .node) : Node := store.nodes[ref.index]?.getD default

/-- The frame of a reference. -/
def frame (store : Store) (ref : FrameRef) : Frame := store.frames[ref.index]?.getD default

/-- How many storages hold other values. -/
def containerCount (store : Store) : Nat :=
  store.lists.size + store.sets.size + store.maps.size + store.objects.size

/-! ## New storage -/

/-- Stores a fresh value. -/
def place (store : Store) : Fresh → Value × Store
  | .value value => (value, store)
  | .list items => (.list ⟨store.lists.size⟩, { store with lists := store.lists.push items })
  | .set keys => (.set ⟨store.sets.size⟩, { store with sets := store.sets.push keys })
  | .map entries => (.map ⟨store.maps.size⟩, { store with maps := store.maps.push entries })
  | .object members =>
    (.object ⟨store.objects.size⟩, { store with objects := store.objects.push members })

/-- Stores a function. -/
def placeFunction (store : Store) (function : Function) : Value × Store :=
  (.func ⟨store.functions.size⟩, { store with functions := store.functions.push function })

/-- Stores an input stream. -/
def placeInput (store : Store) (lines : List InputLine) : Value × Store :=
  (.input ⟨store.inputs.size⟩, { store with inputs := store.inputs.push lines })

/-- Stores an output stream to which nothing has been written. -/
def placeOutput (store : Store) : Value × Store :=
  (.output ⟨store.outputs.size⟩, { store with outputs := store.outputs.push "" })

/-- Stores a syntax tree. -/
def placeNode (store : Store) (node : Node) : Value × Store :=
  (.node ⟨store.nodes.size⟩, { store with nodes := store.nodes.push node })

/-- Stores a frame. -/
def placeFrame (store : Store) (frame : Frame) : FrameRef × Store :=
  (⟨store.frames.size⟩, { store with frames := store.frames.push frame })

/-! ## Changes -/

/-- Changes the items of a list. -/
def changeItems (store : Store) (ref : Ref .list) (change : Array Value → Array Value) : Store :=
  { store with lists := store.lists.modify ref.index change }

/-- Changes the table of a set. -/
def changeKeySet (store : Store) (ref : Ref .set) (change : KeySet Value → KeySet Value) : Store :=
  { store with sets := store.sets.modify ref.index change }

/-- Changes the table of a map. -/
def changeTable (store : Store) (ref : Ref .map)
    (change : Table Value Value → Table Value Value) : Store :=
  { store with maps := store.maps.modify ref.index change }

/-- Changes the members of an object. -/
def changeMembers (store : Store) (ref : Ref .object)
    (change : Bindings Value → Bindings Value) : Store :=
  { store with objects := store.objects.modify ref.index change }

/-- Replaces the lines that are left of an input stream. -/
def setLines (store : Store) (ref : Ref .input) (lines : List InputLine) : Store :=
  { store with inputs := store.inputs.modify ref.index fun _ => lines }

/-- Writes to an output stream. -/
def write (store : Store) (ref : Ref .output) (text : String) : Store :=
  { store with outputs := store.outputs.modify ref.index (· ++ text) }

/-- Changes the bindings of a frame. -/
def changeBindings (store : Store) (ref : FrameRef)
    (change : Bindings Value → Bindings Value) : Store :=
  { store with
    frames := store.frames.modify ref.index fun frame =>
      { frame with bindings := change frame.bindings } }

/-- Changes the modules of a frame that has some. -/
def changeRegistry (store : Store) (ref : FrameRef) (change : Registry → Registry) : Store :=
  { store with
    frames := store.frames.modify ref.index fun frame =>
      { frame with registry := frame.registry.map change } }

end Store

end Ckl
