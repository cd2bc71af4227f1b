import Ckl.Source.Node
import Ckl.Source.ModuleName

/-!
# Free names

The names that a tree refers to but does not bind. A definition binds its name from there on, and
inside a block for all statements of the block; parameters and loop variables bind theirs in their
bodies, and a handler binds the name of the caught error. The analysis goes through the tree in the
order of evaluation and carries the names that are free and those that are bound so far.
-/

namespace Ckl.Source

/-- The name under which a handler finds the error that it caught. -/
def lastErrorName : String := "last_error"

/-- The names found so far. -/
structure NameScan where
  free : List String := []
  bound : List String := []
  deriving Repr

namespace NameScan

/-- The scan after a reference to a name; `around` are the names that a block binds. -/
def refer (around : List String) (name : String) (scan : NameScan) : NameScan :=
  if scan.bound.contains name || around.contains name || scan.free.contains name then scan
  else { scan with free := name :: scan.free }

/-- The scan after references to several names. -/
def referAll (around names : List String) (scan : NameScan) : NameScan :=
  names.foldl (fun scan name => scan.refer around name) scan

/-- The scan after names have been bound. -/
def bind (names : List String) (scan : NameScan) : NameScan :=
  { scan with bound := names ++ scan.bound }

/-- The free names of an inner scan, with the names that were bound outside it. -/
def leave (scan inner : NameScan) : NameScan := { scan with free := inner.free }

end NameScan

/-- The names that a statement of a block defines for the whole block. -/
def Node.definedNames : Node → List String
  | .mk _ (.define name _) => [name]
  | .mk _ (.defineAll names _) => names
  | _ => []

/-- The names that the statements of a block define. -/
def definedNames (body : List Node) : List String := body.flatMap Node.definedNames

/-- The names that a `require` binds, as far as the text tells. -/
def requiredNames (module : Node) : ImportStyle → List String
  | .qualified (some localName) => [localName]
  | .qualified none =>
    match module.form with
    | .name name => [Module.identifier name]
    | .literal (.string path) => [Module.identifier path]
    | _ => []
  | .listed names => names.map Prod.snd
  | .unqualified => []

mutual

/-- The scan after a node. -/
def Node.scanNames (around : List String) : Node → NameScan → NameScan
  | .mk _ form, scan => form.scanNames around scan
termination_by structural node => node

/-- The scan after a form. -/
def Form.scanNames (around : List String) : Form → NameScan → NameScan
  | .literal _, scan | .breakLoop, scan | .continueLoop, scan => scan
  | .name name, scan => scan.refer around name
  | .spread inner, scan | .not inner, scan | .raise inner, scan => inner.scanNames around scan
  | .list items, scan | .set items, scan => scanNamesEach around items scan
  | .map items, scan => scanNamesMapItems around items scan
  | .object members, scan => scanNamesMembers around members scan
  | .comprehension parts, scan => scanNamesComprehension around parts scan
  | .block body handlers cleanup, scan =>
    let around := definedNames body ++ around
    let scan := scanNamesEach around cleanup (scanNamesEach around body scan)
    scanNamesHandlers around handlers scan (scan.bind [lastErrorName])
  | .choice branches otherwise, scan =>
    scanNamesOption around otherwise (scanNamesBranches around branches scan)
  | .and left right, scan | .or left right, scan | .contained left right, scan
  | .index left right, scan | .loopWhile left right, scan =>
    right.scanNames around (left.scanNames around scan)
  | .call callee arguments, scan =>
    scanNamesArguments around arguments (callee.scanNames around scan)
  | .assignIndex target key value, scan =>
    value.scanNames around (key.scanNames around (target.scanNames around scan))
  | .invoke target _ arguments, scan =>
    scanNamesArguments around arguments (target.scanNames around scan)
  | .assign name value, scan => (value.scanNames around scan).refer around name
  | .assignAll names value, scan => (value.scanNames around scan).referAll around names
  | .define name value, scan => (value.scanNames around scan).bind [name]
  | .defineAll names value, scan => (value.scanNames around scan).bind names
  | .function lambda, scan => scanNamesLambda around lambda scan
  | .loop parts, scan => scanNamesLoop around parts scan
  | .giveBack value, scan => scanNamesOption around value scan
  | .require module style, scan => scan.bind (requiredNames module style)
termination_by structural form => form

/-- Scans nodes one after the other. -/
def scanNamesEach (around : List String) : List Node → NameScan → NameScan
  | [], scan => scan
  | node :: nodes, scan => scanNamesEach around nodes (node.scanNames around scan)
termination_by structural nodes => nodes

/-- Scans a node that may be missing. -/
def scanNamesOption (around : List String) : Option Node → NameScan → NameScan
  | none, scan => scan
  | some node, scan => node.scanNames around scan
termination_by structural node => node

/-- Scans an item of a map. -/
def scanNamesMapItem (around : List String) : MapItem Node → NameScan → NameScan
  | .entry key value, scan => value.scanNames around (key.scanNames around scan)
  | .spread inner, scan => inner.scanNames around scan
termination_by structural item => item

/-- Scans the items of a map. -/
def scanNamesMapItems (around : List String) : List (MapItem Node) → NameScan → NameScan
  | [], scan => scan
  | item :: items, scan => scanNamesMapItems around items (scanNamesMapItem around item scan)
termination_by structural items => items

/-- Scans the members of an object. -/
def scanNamesMembers (around : List String) : List (Member Node) → NameScan → NameScan
  | [], scan => scan
  | ⟨_, value⟩ :: members, scan => scanNamesMembers around members (value.scanNames around scan)
termination_by structural members => members

/-- Scans the branches of a choice. -/
def scanNamesBranches (around : List String) : List (Branch Node) → NameScan → NameScan
  | [], scan => scan
  | ⟨condition, body⟩ :: branches, scan =>
    scanNamesBranches around branches (body.scanNames around (condition.scanNames around scan))
termination_by structural branches => branches

/-- Scans the arguments of a call. -/
def scanNamesArguments (around : List String) : List (Argument Node) → NameScan → NameScan
  | [], scan => scan
  | ⟨_, value⟩ :: arguments, scan =>
    scanNamesArguments around arguments (value.scanNames around scan)
termination_by structural arguments => arguments

/-- Scans a comprehension, whose variable is bound inside. -/
def scanNamesComprehension (around : List String) : Comprehension Node → NameScan → NameScan
  | ⟨_, element, value, binder, source, condition⟩, scan =>
    let scan := source.scanNames around scan
    let inner := element.scanNames around (scan.bind [binder])
    scan.leave (scanNamesOption around condition (scanNamesOption around value inner))
termination_by structural parts => parts

/-- The scan after the handlers of a block. The filters see the names outside the handlers, the bodies
share a scope that is inside them. -/
def scanNamesHandlers (around : List String) :
    List (Handler Node) → NameScan → NameScan → NameScan
  | [], scan, inner => scan.leave inner
  | ⟨filter, body⟩ :: handlers, scan, inner =>
    let scan := scanNamesOption around filter (scan.leave inner)
    scanNamesHandlers around handlers scan (scanNamesEach around body (inner.leave scan))
termination_by structural handlers => handlers

/-- The scan after the values that parameters fall back to. -/
def scanNamesFallbacks (around : List String) : List (Parameter Node) → NameScan → NameScan
  | [], scan => scan
  | ⟨_, fallback⟩ :: parameters, scan =>
    scanNamesFallbacks around parameters (scanNamesOption around fallback scan)
termination_by structural parameters => parameters

/-- Scans a function, whose parameters are bound inside. -/
def scanNamesLambda (around : List String) : Lambda Node → NameScan → NameScan
  | ⟨_, parameters, rest, body⟩, scan =>
    let inner := scan.bind (parameters.map (·.name) ++ rest.toList)
    scan.leave (body.scanNames around (scanNamesFallbacks around parameters inner))
termination_by structural lambda => lambda

/-- Scans a loop, whose names are bound in its body. -/
def scanNamesLoop (around : List String) : Loop Node → NameScan → NameScan
  | ⟨names, _, _, source, body⟩, scan =>
    let scan := source.scanNames around scan
    scan.leave (body.scanNames around (scan.bind names))
termination_by structural parts => parts

end

/-- The free names of a tree, in order of their characters. -/
def Node.freeNames (node : Node) : List String :=
  (node.scanNames [] {}).free.mergeSort (fun a b => decide (a ≤ b))

end Ckl.Source
