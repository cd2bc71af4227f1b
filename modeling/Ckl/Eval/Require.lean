import Ckl.Eval.Exit
import Ckl.Source.ModuleName
import Ckl.Source.Script

/-!
# Modules

A module is a script that is evaluated once, in a frame inside the outermost one; `require` binds the
public names of that frame. While a module is being loaded it is on the list of such modules, and to
require it again is an error. A module that has been loaded is known by its identifier from then on.
-/

namespace Ckl

open Source (Position Node ImportStyle)

/-- Begins the names that a module keeps to itself. -/
def privateMark : Char := '_'

/-- Whether a name is visible outside its module. -/
def isPublic (name : String) : Bool := name.toList.head? != some privateMark

/-- The specifier of the module that a `require` names: a text, the text that a name means, or else the
name itself. -/
def moduleSpecifier (module : Node) (frame : FrameRef) : Run String :=
  match module.form with
  | .literal (.string path) => return path
  | .name name => do
    match ← Run.read (·.lookup? frame name) with
    | some (.string path) => return path
    | _ => return name
  | _ => Run.fail .malformedSpecifier module.position

/-- The text of the file of a module. -/
def moduleSource (registry : Registry) (file : String) (position : Position) : Run String :=
  match registry.resolve file with
  | .found text => return text
  | .missing => Run.fail (.moduleNotFound file) position
  | .unreadable problem => Run.stop (.unreadable problem)
  | .unknown path => throw (.awaiting path)

/-- The frame of a module, which is loaded if that has not been done yet. -/
def loadModule (evaluator : Evaluator) (root : FrameRef) (registry : Registry)
    (identifier file : String) (position : Position) : Run FrameRef := do
  match registry.loaded.get? identifier with
  | some frame => return frame
  | none =>
    let source ← moduleSource registry file position
    match Source.readScript file source with
    | .error fault => Run.stop (Failure.ofFault fault)
    | .ok node =>
      let frame ← Run.enter root Bindings.empty
      let _ ← finish node.position (evaluator.node node frame)
      modify (·.changeRegistry root fun registry =>
        { registry with loaded := registry.loaded.put identifier frame })
      return frame

/-- The modules from the one with an identifier on, and that one again, if it is being loaded. -/
def cycleAt? (identifier : String) (loading : List String) : Option (List String) :=
  (loading.findIdx? (· == identifier)).map fun start => loading.drop start ++ [identifier]

/-- Notes that a module is being loaded. -/
def beginLoading (root : FrameRef) (identifier : String) : Run Unit :=
  modify (·.changeRegistry root fun registry =>
    { registry with loading := registry.loading ++ [identifier] })

/-- Notes that the module whose loading began last is not being loaded any more. -/
def endLoading (root : FrameRef) : Run Unit :=
  modify (·.changeRegistry root fun registry =>
    { registry with loading := registry.loading.dropLast })

/-- The frame of the module with an identifier, which is on the list of modules being loaded
meanwhile. -/
def enterModule (evaluator : Evaluator) (frame : FrameRef) (identifier file : String)
    (position : Position) : Run FrameRef := do
  let root ← Run.read (·.root frame)
  match (← Run.read (·.frame root)).registry with
  | none => Run.fail .noModules position
  | some registry =>
    match cycleAt? identifier registry.loading with
    | some cycle => Run.fail (.circularModules cycle) position
    | none =>
      beginLoading root identifier
      let outcome ← Run.attempt (loadModule evaluator root registry identifier file position)
      endLoading root
      Run.conclude outcome

/-- Binds listed names of a module one after the other, each under its alias. -/
def importNames (frame : FrameRef) (identifier : String) (names : Bindings Value)
    (position : Position) : List (String × String) → Run Unit
  | [] => return ()
  | (name, localName) :: rest => do
    match names.get? name with
    | some value => Run.define frame localName value
    | none => Run.fail (.noPublicName identifier name) position
    importNames frame identifier names position rest

/-- Binds the public names of a module. -/
def bindModule (frame : FrameRef) (identifier : String) (names : Bindings Value)
    (position : Position) : ImportStyle → Run Value
  | .unqualified => do
    modify (·.defineAll frame names.entries)
    return .null
  | .listed listed => do
    importNames frame identifier names position listed
    return .null
  | .qualified localName => do
    let namespaceObject ← Run.place (.object names)
    Run.define frame (localName.getD identifier) namespaceObject
    return namespaceObject

/-- Requires a module. -/
def requireModule (evaluator : Evaluator) (module : Node) (style : ImportStyle) (frame : FrameRef)
    (position : Position) : Run Value := do
  let specifier ← moduleSpecifier module frame
  let identifier := Source.Module.identifier specifier
  let file := Source.Module.fileName specifier
  let moduleFrame ← enterModule evaluator frame identifier file position
  let names ← Run.read fun store => (store.frame moduleFrame).bindings.restrict isPublic
  bindModule frame identifier names position style

end Ckl
