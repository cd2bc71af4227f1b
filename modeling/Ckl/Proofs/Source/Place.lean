import Ckl.Source.Node
import Mathlib.Data.List.Forall2

/-!
# Trees up to places

`Node.relocate` moves every place of a tree. Trees are equal up to places if they have the same shape:
they agree once all their places are moved to one.
-/

namespace Ckl.Source

section

variable (move : Position → Position)

mutual

/-- The tree with all its places moved. -/
def Node.relocate : Node → Node
  | .mk position form => .mk (move position) form.relocate
termination_by structural node => node

/-- The form with all places in it moved. -/
def Form.relocate : Form → Form
  | .literal value => .literal value
  | .name name => .name name
  | .spread inner => .spread inner.relocate
  | .list items => .list (relocateEach items)
  | .set items => .set (relocateEach items)
  | .map items => .map (relocateMapItems items)
  | .object members => .object (relocateMembers members)
  | .comprehension parts => .comprehension (relocateComprehension parts)
  | .block body handlers cleanup =>
    .block (relocateEach body) (relocateHandlers handlers) (relocateEach cleanup)
  | .choice branches otherwise => .choice (relocateBranches branches) (relocateOption otherwise)
  | .and left right => .and left.relocate right.relocate
  | .or left right => .or left.relocate right.relocate
  | .not operand => .not operand.relocate
  | .contained element container => .contained element.relocate container.relocate
  | .call callee arguments => .call callee.relocate (relocateArguments arguments)
  | .index target key => .index target.relocate key.relocate
  | .assignIndex target key value => .assignIndex target.relocate key.relocate value.relocate
  | .invoke target member arguments => .invoke target.relocate member (relocateArguments arguments)
  | .assign name value => .assign name value.relocate
  | .assignAll names value => .assignAll names value.relocate
  | .define name value => .define name value.relocate
  | .defineAll names value => .defineAll names value.relocate
  | .function lambda => .function (relocateLambda lambda)
  | .loop parts => .loop (relocateLoop parts)
  | .loopWhile condition body => .loopWhile condition.relocate body.relocate
  | .breakLoop => .breakLoop
  | .continueLoop => .continueLoop
  | .giveBack value => .giveBack (relocateOption value)
  | .raise payload => .raise payload.relocate
  | .require module style => .require module.relocate style
termination_by structural form => form

def relocateEach : List Node → List Node
  | [] => []
  | node :: nodes => node.relocate :: relocateEach nodes
termination_by structural nodes => nodes

def relocateOption : Option Node → Option Node
  | none => none
  | some node => some node.relocate
termination_by structural node => node

def relocateMapItem : MapItem Node → MapItem Node
  | .entry key value => .entry key.relocate value.relocate
  | .spread inner => .spread inner.relocate
termination_by structural item => item

def relocateMapItems : List (MapItem Node) → List (MapItem Node)
  | [] => []
  | item :: items => relocateMapItem item :: relocateMapItems items
termination_by structural items => items

def relocateMembers : List (Member Node) → List (Member Node)
  | [] => []
  | ⟨name, value⟩ :: members => ⟨name, value.relocate⟩ :: relocateMembers members
termination_by structural members => members

def relocateComprehension : Comprehension Node → Comprehension Node
  | ⟨kind, element, value, binder, source, condition⟩ =>
    ⟨kind, element.relocate, relocateOption value, binder, source.relocate, relocateOption condition⟩
termination_by structural parts => parts

def relocateBranches : List (Branch Node) → List (Branch Node)
  | [] => []
  | ⟨condition, body⟩ :: branches =>
    ⟨condition.relocate, body.relocate⟩ :: relocateBranches branches
termination_by structural branches => branches

def relocateHandlers : List (Handler Node) → List (Handler Node)
  | [] => []
  | ⟨filter, body⟩ :: handlers =>
    ⟨relocateOption filter, relocateEach body⟩ :: relocateHandlers handlers
termination_by structural handlers => handlers

def relocateArguments : List (Argument Node) → List (Argument Node)
  | [] => []
  | ⟨name, value⟩ :: arguments => ⟨name, value.relocate⟩ :: relocateArguments arguments
termination_by structural arguments => arguments

def relocateParameters : List (Parameter Node) → List (Parameter Node)
  | [] => []
  | ⟨name, fallback⟩ :: parameters =>
    ⟨name, relocateOption fallback⟩ :: relocateParameters parameters
termination_by structural parameters => parameters

def relocateLambda : Lambda Node → Lambda Node
  | ⟨name, parameters, rest, body⟩ => ⟨name, relocateParameters parameters, rest, body.relocate⟩
termination_by structural lambda => lambda

def relocateLoop : Loop Node → Loop Node
  | ⟨names, destructures, selection, source, body⟩ =>
    ⟨names, destructures, selection, source.relocate, body.relocate⟩
termination_by structural parts => parts

end

/-- Nodes are moved one by one. -/
theorem relocateEach_eq_map (nodes : List Node) :
    relocateEach move nodes = nodes.map (Node.relocate move) := by
  induction nodes with
  | nil => rfl
  | cons node nodes ih => exact congrArg _ ih

/-- The entries of a map are moved by their keys and values. -/
theorem relocateMapItems_entries (entries : List (Node × Node)) :
    relocateMapItems move (entries.map fun entry => .entry entry.1 entry.2) =
      (entries.map fun entry => (entry.1.relocate move, entry.2.relocate move)).map
        fun entry => .entry entry.1 entry.2 := by
  induction entries with
  | nil => rfl
  | cons entry entries ih => exact congrArg _ ih

/-- Members are moved by their values. -/
theorem relocateMembers_eq_map (members : List (Member Node)) :
    relocateMembers move members =
      members.map fun member => ⟨member.name, member.value.relocate move⟩ := by
  induction members with
  | nil => rfl
  | cons member members ih => exact congrArg _ ih

end

/-- The tree without its places. -/
def Node.shape (node : Node) : Node := node.relocate fun _ => default

/-- The same tree up to places. -/
def Node.Same (node found : Node) : Prop := found.shape = node.shape

/-- The item holds the same trees up to places. -/
def SameEntry (entry : Node × Node) (found : MapItem Node) : Prop :=
  ∃ key value, found = .entry key value ∧ entry.1.Same key ∧ entry.2.Same value

/-- The member has the same name, and the same value up to places. -/
def Member.Same (member found : Member Node) : Prop :=
  found.name = member.name ∧ member.value.Same found.value

/-! ## Trees with the same parts -/

/-- Items are the same up to places exactly if they are so one by one. -/
theorem same_items_iff {items found : List Node} :
    relocateEach (fun _ => default) found = relocateEach (fun _ => default) items ↔
      List.Forall₂ Node.Same items found := by
  constructor
  · intro h
    induction found generalizing items with
    | nil =>
      cases items with
      | nil => exact .nil
      | cons => cases h
    | cons node found ih =>
      cases items with
      | nil => cases h
      | cons item items => exact .cons (List.cons.inj h).1 (ih (List.cons.inj h).2)
  · intro h
    induction h with
    | nil => rfl
    | cons hsame _ ih => exact congrArg₂ List.cons hsame ih

/-- Entries are the same up to places exactly if their keys and values are. -/
theorem same_entries_iff {entries : List (Node × Node)} {found : List (MapItem Node)} :
    relocateMapItems (fun _ => default) found =
        relocateMapItems (fun _ => default) (entries.map fun entry => .entry entry.1 entry.2) ↔
      List.Forall₂ SameEntry entries found := by
  constructor
  · intro h
    induction found generalizing entries with
    | nil =>
      cases entries with
      | nil => exact .nil
      | cons => cases h
    | cons item found ih =>
      cases entries with
      | nil => cases h
      | cons entry entries =>
        obtain ⟨hitem, hrest⟩ := List.cons.inj h
        refine .cons ?_ (ih hrest)
        cases item with
        | entry key value =>
          obtain ⟨hkey, hvalue⟩ := MapItem.entry.inj hitem
          exact ⟨key, value, rfl, hkey, hvalue⟩
        | spread => cases hitem
  · intro h
    induction h with
    | nil => rfl
    | cons hsame _ ih =>
      obtain ⟨key, value, rfl, hkey, hvalue⟩ := hsame
      exact congrArg₂ List.cons (congrArg₂ MapItem.entry hkey hvalue) ih

/-- Members are the same up to places exactly if their names are and their values up to places. -/
theorem same_members_iff {members found : List (Member Node)} :
    relocateMembers (fun _ => default) found = relocateMembers (fun _ => default) members ↔
      List.Forall₂ Member.Same members found := by
  constructor
  · intro h
    induction found generalizing members with
    | nil =>
      cases members with
      | nil => exact .nil
      | cons => cases h
    | cons member found ih =>
      cases members with
      | nil => cases h
      | cons =>
        obtain ⟨hmember, hrest⟩ := List.cons.inj h
        exact .cons (Member.mk.inj hmember) (ih hrest)
  · intro h
    induction h with
    | nil => rfl
    | cons hsame _ ih => exact congrArg₂ List.cons (congrArg₂ Member.mk hsame.1 hsame.2) ih

/-! ## What has the shape of a form -/

section Forms

variable {position : Position} {found : Node}

/-- What is the same as a literal is that literal at some place. -/
theorem Node.Same.literal {value : Literal} (h : (Node.mk position (.literal value)).Same found) :
    ∃ place, found = .mk place (.literal value) := by
  obtain ⟨place, form⟩ := found
  have hform := (Node.mk.inj h).2
  cases form <;> cases hform
  exact ⟨place, rfl⟩

/-- What is the same as a name is that name at some place. -/
theorem Node.Same.name {name : String} (h : (Node.mk position (.name name)).Same found) :
    ∃ place, found = .mk place (.name name) := by
  obtain ⟨place, form⟩ := found
  have hform := (Node.mk.inj h).2
  cases form <;> cases hform
  exact ⟨place, rfl⟩

/-- What is the same as a list is a list of the same items. -/
theorem Node.Same.list {items : List Node} (h : (Node.mk position (.list items)).Same found) :
    ∃ place nodes, found = .mk place (.list nodes) ∧ List.Forall₂ Node.Same items nodes := by
  obtain ⟨place, form⟩ := found
  have hform := (Node.mk.inj h).2
  cases form with
  | list nodes => exact ⟨place, nodes, rfl, same_items_iff.mp (Form.list.inj hform)⟩
  | _ => cases hform

/-- What is the same as a set is a set of the same items. -/
theorem Node.Same.set {items : List Node} (h : (Node.mk position (.set items)).Same found) :
    ∃ place nodes, found = .mk place (.set nodes) ∧ List.Forall₂ Node.Same items nodes := by
  obtain ⟨place, form⟩ := found
  have hform := (Node.mk.inj h).2
  cases form with
  | set nodes => exact ⟨place, nodes, rfl, same_items_iff.mp (Form.set.inj hform)⟩
  | _ => cases hform

/-- What is the same as a map is a map of the same entries. -/
theorem Node.Same.map {entries : List (Node × Node)}
    (h : (Node.mk position (.map (entries.map fun entry => .entry entry.1 entry.2))).Same found) :
    ∃ place nodes, found = .mk place (.map nodes) ∧ List.Forall₂ SameEntry entries nodes := by
  obtain ⟨place, form⟩ := found
  have hform := (Node.mk.inj h).2
  cases form with
  | map nodes => exact ⟨place, nodes, rfl, same_entries_iff.mp (Form.map.inj hform)⟩
  | _ => cases hform

/-- What is the same as an object is an object of the same members. -/
theorem Node.Same.object {members : List (Member Node)}
    (h : (Node.mk position (.object members)).Same found) :
    ∃ place nodes, found = .mk place (.object nodes) ∧ List.Forall₂ Member.Same members nodes := by
  obtain ⟨place, form⟩ := found
  have hform := (Node.mk.inj h).2
  cases form with
  | object nodes => exact ⟨place, nodes, rfl, same_members_iff.mp (Form.object.inj hform)⟩
  | _ => cases hform

end Forms

end Ckl.Source
