import Ckl.Source.Position

/-!
# Syntax trees

A script as a tree of nodes, each with its place in the text. Operators, comparisons and predicates
have no form of their own: they are calls of the functions that compute them. `and`, `or`, `not` and
`in` are forms, because they do not evaluate like calls or have no function.
-/

namespace Ckl.Source

/-- A value that is written out. -/
inductive Literal where
  | boolean (value : Bool)
  | int (value : Int64)
  | decimal (value : Float)
  | string (value : String)
  | pattern (source : String)
  deriving Repr

/-- An argument of a call, with the name of its parameter if it is given by name. -/
structure Argument (ν : Type) where
  name : Option String
  value : ν
  deriving Repr

/-- A parameter of a function, with what it stands for when no argument is given. -/
structure Parameter (ν : Type) where
  name : String
  fallback : Option ν
  deriving Repr

/-- A function as it is written: its parameters, the parameter for surplus arguments, and its body. -/
structure Lambda (ν : Type) where
  name : Option String
  parameters : List (Parameter ν)
  rest : Option String
  body : ν
  deriving Repr

/-- A member of an object that is written out. -/
structure Member (ν : Type) where
  name : String
  value : ν
  deriving Repr

/-- An item of a map that is written out. -/
inductive MapItem (ν : Type) where
  | entry (key value : ν)
  /-- All entries of another map. -/
  | spread (inner : ν)
  deriving Repr

/-- A condition with what is evaluated when it holds. -/
structure Branch (ν : Type) where
  condition : ν
  body : ν
  deriving Repr

/-- What a block does about an error: any error, or those raised with a certain value. -/
structure Handler (ν : Type) where
  filter : Option ν
  body : List ν
  deriving Repr

/-- The collections that a comprehension can build. -/
inductive CollectionKind where
  | list
  | set
  | map
  deriving DecidableEq, Repr

/-- A collection built by evaluating an element, and for maps a value, for each item of a source that
meets the condition. -/
structure Comprehension (ν : Type) where
  kind : CollectionKind
  element : ν
  value : Option ν
  binder : String
  source : ν
  condition : Option ν
  deriving Repr

/-- What a loop takes from its source. -/
inductive Selection where
  | items
  | keys
  | values
  | entries
  deriving DecidableEq, Repr

/-- A loop over a source. Several names, or names in brackets, take the parts of each item. -/
structure Loop (ν : Type) where
  names : List String
  destructures : Bool
  selection : Selection
  source : ν
  body : ν
  deriving Repr

/-- How the names of a module are bound. -/
inductive ImportStyle where
  /-- All public names under one name, that of the module unless another is given. -/
  | qualified (localName : Option String)
  /-- All public names as they are. -/
  | unqualified
  /-- The listed names, each under an alias. -/
  | listed (names : List (String × String))
  deriving DecidableEq, Repr

mutual

/-- A node: its place and its form. -/
inductive Node where
  | mk (position : Position) (form : Form)

/-- The forms of nodes. -/
inductive Form where
  | literal (value : Literal)
  | name (name : String)
  /-- The items of a collection among other items. -/
  | spread (inner : Node)
  | list (items : List Node)
  | set (items : List Node)
  | map (items : List (MapItem Node))
  | object (members : List (Member Node))
  | comprehension (parts : Comprehension Node)
  | block (body : List Node) (handlers : List (Handler Node)) (cleanup : List Node)
  | choice (branches : List (Branch Node)) (otherwise : Option Node)
  | and (left right : Node)
  | or (left right : Node)
  | not (operand : Node)
  | contained (element container : Node)
  | call (callee : Node) (arguments : List (Argument Node))
  | index (target key : Node)
  | assignIndex (target key value : Node)
  /-- A call of the function that a member of the target holds. -/
  | invoke (target : Node) (member : String) (arguments : List (Argument Node))
  | assign (name : String) (value : Node)
  | assignAll (names : List String) (value : Node)
  | define (name : String) (value : Node)
  | defineAll (names : List String) (value : Node)
  | function (lambda : Lambda Node)
  | loop (parts : Loop Node)
  | loopWhile (condition body : Node)
  | breakLoop
  | continueLoop
  | giveBack (value : Option Node)
  | raise (payload : Node)
  | require (module : Node) (style : ImportStyle)

end

namespace Node

/-- The place of a node. -/
def position : Node → Position
  | .mk position _ => position

/-- The form of a node. -/
def form : Node → Form
  | .mk _ form => form

end Node

instance : Inhabited Form := ⟨.breakLoop⟩

instance : Inhabited Node := ⟨.mk default default⟩

end Ckl.Source
