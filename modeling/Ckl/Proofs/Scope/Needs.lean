import Ckl.Proofs.Run.Realm
import Ckl.Source.Node.FreeNames

/-!
# Needed names

To evaluate a tree that neither defines names nor requires modules some names are needed: those that it
refers to where nothing has bound them yet. What a parameter falls back to is evaluated when the parameters
before it are bound, but not the later ones.

The analysis of free names takes all parameters to be bound there. So it finds the needed names, except for
those that a parameter falls back to before the parameter of this name is bound (`Node.Forward`).
-/

namespace Ckl.Source

/-- The nodes directly inside a form that are evaluated in frames of their own. -/
def Form.within : Form → List Node
  | .comprehension parts => parts.inner
  | .function definition => definition.parameters.filterMap (·.fallback) ++ [definition.body]
  | _ => []

/-- The names that are bound in the frames of these nodes. -/
def Form.binders : Form → List String
  | .comprehension parts => [parts.binder]
  | .function definition => definition.names
  | _ => []

/-- A parameter falls back to the value, and the name is not bound by the parameters before it, but by this
one or a later one. -/
def Lambda.Early (definition : Lambda Node) (name : String) (value : Node) : Prop :=
  ∃ before parameter after, definition.parameters = before ++ parameter :: after ∧
    parameter.fallback = some value ∧ name ∉ before.map (·.name) ∧ name ∉ definition.rest ∧
      name ∈ (parameter :: after).map (·.name)

/-- The names that a form refers to itself. -/
def Form.refers : Form → List String
  | .name word | .assign word _ => [word]
  | .assignAll words _ => words
  | _ => []

/-- Something holds of all nodes of a tree. -/
inductive Node.All (good : Node → Prop) : Node → Prop
  | mk {node : Node} (h : good node)
    (hinside : ∀ part ∈ node.form.here ++ node.form.within, All good part) : All good node

/-- Whether a form binds no names and gives them no other meaning for a while. -/
def Form.isPure : Form → Bool
  | .define _ _ | .defineAll _ _ | .loop _ | .require _ _ => false
  | .block _ handlers _ => handlers.isEmpty
  | _ => true

/-- There are no definitions in the tree, no `for`, no handlers and no `require`. -/
def Node.Pure (node : Node) : Prop := node.All fun inner => inner.form.isPure = true

namespace Node

variable {name : String} {good : Node → Prop} {node part : Node}

/-- What holds throughout a node holds of the node itself. -/
theorem All.own (h : node.All good) : good node := by
  cases h with
  | mk hown _ => exact hown

/-- What holds throughout a node holds throughout every part of it. -/
theorem All.inside (h : node.All good) : ∀ part ∈ node.form.here ++ node.form.within, part.All good := by
  cases h with
  | mk _ hinside => exact hinside

theorem All.here (h : node.All good) (hpart : part ∈ node.form.here) : part.All good :=
  h.inside part (List.mem_append_left _ hpart)

theorem All.within (h : node.All good) (hpart : part ∈ node.form.within) : part.All good :=
  h.inside part (List.mem_append_right _ hpart)

/-- Whether something holds of all nodes of a tree that is not deeper than the bound. -/
def allUpTo (good : Node → Bool) : (bound : Nat) → Node → Bool
  | 0, _ => false
  | bound + 1, node =>
    good node && (node.form.here ++ node.form.within).all (allUpTo good bound)

/-- The bounded check, once passed, gives the property throughout. -/
theorem all_of_allUpTo {good : Node → Bool} {bound : Nat} {node : Node}
    (h : node.allUpTo good bound = true) : node.All fun inner => good inner = true := by
  induction bound generalizing node with
  | zero => cases h
  | succ bound ih =>
    obtain ⟨hgood, hinside⟩ := Bool.and_eq_true_iff.mp h
    exact .mk hgood fun part hpart => ih (List.all_eq_true.mp hinside part hpart)

/-- The name has to have a meaning where the tree is evaluated. -/
inductive Needs (name : String) : Node → Prop
  | refer {node : Node} (h : name ∈ node.form.refers) : Needs name node
  | here {node part : Node} (hpart : part ∈ node.form.here) (h : Needs name part) : Needs name node
  | within {node part : Node} (hpart : part ∈ node.form.within) (hnew : name ∉ node.form.binders)
    (h : Needs name part) : Needs name node
  | early {node value : Node} {definition : Lambda Node} (hform : node.form = .function definition)
    (hearly : definition.Early name value) (h : Needs name value) : Needs name node

/-- What a tree needs does not depend on its place. -/
theorem Needs.of_form {other : Node} (h : node.Needs name) (hform : other.form = node.form) :
    other.Needs name := by
  cases h with
  | refer h => exact .refer (hform ▸ h)
  | here hpart h => exact .here (hform ▸ hpart) h
  | within hpart hnew h => exact .within (hform ▸ hpart) (hform ▸ hnew) h
  | early hfunction hearly h => exact .early (hform.trans hfunction) hearly h

/-- The name is needed where a parameter falls back to a value, and only this parameter or a later one
binds it. -/
inductive Forward (name : String) : Node → Prop
  | early {node value : Node} {definition : Lambda Node} (hform : node.form = .function definition)
    (hearly : definition.Early name value) (h : Needs name value) : Forward name node
  | here {node part : Node} (hpart : part ∈ node.form.here) (h : Forward name part) : Forward name node
  | within {node part : Node} (hpart : part ∈ node.form.within) (hnew : name ∉ node.form.binders)
    (h : Forward name part) : Forward name node

end Node

/-! ## The analysis of pure trees -/

namespace NameScan

/-- Nothing more is bound, and what was free is free. -/
structure Grows (scan after : NameScan) : Prop where
  bound : after.bound = scan.bound
  free : scan.free ⊆ after.free

variable {scan after : NameScan} {name : String}

theorem Grows.refl (scan : NameScan) : scan.Grows scan := ⟨rfl, List.Subset.refl _⟩

/-- One pass after another only adds names. -/
theorem Grows.trans {middle : NameScan} (h : scan.Grows middle) (hafter : middle.Grows after) :
    scan.Grows after :=
  ⟨hafter.bound.trans h.bound, List.Subset.trans h.free hafter.free⟩

/-- A reference only adds to what is known. -/
theorem grows_refer (around : List String) (name : String) (scan : NameScan) :
    scan.Grows (scan.refer around name) := by
  unfold refer
  split
  · exact .refl scan
  · exact ⟨rfl, List.subset_cons_self _ _⟩

/-- A name that is not bound becomes free by a reference to it. -/
theorem mem_free_refer (h : name ∉ scan.bound) : name ∈ (scan.refer [] name).free := by
  unfold refer
  split
  · next hknown => simpa [h] using hknown
  · exact List.mem_cons_self

/-- References to several names only add to what is known. -/
theorem grows_referAll (around names : List String) (scan : NameScan) :
    scan.Grows (scan.referAll around names) := by
  induction names generalizing scan with
  | nil => exact .refl scan
  | cons other names ih => exact (grows_refer around other scan).trans (ih _)

/-- Each of several names referred to becomes free unless it is bound. -/
theorem mem_free_referAll {names : List String} (hmem : name ∈ names) (h : name ∉ scan.bound) :
    name ∈ (scan.referAll [] names).free := by
  induction names generalizing scan with
  | nil => cases hmem
  | cons other names ih =>
    rcases List.mem_cons.mp hmem with rfl | hmem
    · exact (grows_referAll [] names _).free (mem_free_refer h)
    · exact ih hmem (by rwa [(grows_refer [] other scan).bound])

end NameScan

section Each

variable {nodes : List Node} {scan : NameScan} {name : String} (around : List String)

/-- The nodes of two lists are gone through one list after the other. -/
theorem scanNamesEach_append (first second : List Node) (scan : NameScan) :
    scanNamesEach around (first ++ second) scan =
      scanNamesEach around second (scanNamesEach around first scan) := by
  induction first generalizing scan with
  | nil => rfl
  | cons node first ih => exact ih _

/-- An optional node is gone through like the list of at most one node. -/
theorem scanNamesOption_eq (node : Option Node) (scan : NameScan) :
    scanNamesOption around node scan = scanNamesEach around node.toList scan := by
  cases node <;> rfl

/-- The items of a map are gone through like their keys and values in order. -/
theorem scanNamesMapItems_eq (items : List (MapItem Node)) (scan : NameScan) :
    scanNamesMapItems around items scan = scanNamesEach around (items.flatMap MapItem.nodes) scan := by
  induction items generalizing scan with
  | nil => rfl
  | cons item items ih => cases item <;> exact ih _

/-- The members of an object are gone through like their values in order. -/
theorem scanNamesMembers_eq (members : List (Member Node)) (scan : NameScan) :
    scanNamesMembers around members scan = scanNamesEach around (members.map (·.value)) scan := by
  induction members generalizing scan with
  | nil => rfl
  | cons member members ih => exact ih _

/-- The arguments of a call are gone through like their values in order. -/
theorem scanNamesArguments_eq (arguments : List (Argument Node)) (scan : NameScan) :
    scanNamesArguments around arguments scan =
      scanNamesEach around (arguments.map (·.value)) scan := by
  induction arguments generalizing scan with
  | nil => rfl
  | cons argument arguments ih => exact ih _

/-- The branches are gone through like their conditions and bodies in order. -/
theorem scanNamesBranches_eq (branches : List (Branch Node)) (scan : NameScan) :
    scanNamesBranches around branches scan =
      scanNamesEach around (branches.flatMap fun branch => [branch.condition, branch.body]) scan := by
  induction branches generalizing scan with
  | nil => rfl
  | cons branch branches ih => exact ih _

/-- The fallbacks are gone through like the list of those that are there. -/
theorem scanNamesFallbacks_eq (parameters : List (Parameter Node)) (scan : NameScan) :
    scanNamesFallbacks around parameters scan =
      scanNamesEach around (parameters.filterMap (·.fallback)) scan := by
  induction parameters generalizing scan with
  | nil => rfl
  | cons parameter parameters ih =>
    obtain ⟨name, _ | fallback⟩ := parameter <;> exact ih _

/-- A pass over a list only adds names if the pass over each of its nodes does. -/
theorem grows_scanNamesEach (h : ∀ node ∈ nodes, ∀ scan, NameScan.Grows scan (node.scanNames [] scan))
    (scan : NameScan) : scan.Grows (scanNamesEach [] nodes scan) := by
  induction nodes generalizing scan with
  | nil => exact .refl scan
  | cons node nodes ih =>
    exact (h node List.mem_cons_self scan).trans
      (ih (fun other hother => h other (List.mem_cons_of_mem _ hother)) _)

/-- A free name of one node is a free name of the list it stands in, as long as it is not bound before. -/
theorem mem_free_scanNamesEach
    (hgrows : ∀ node ∈ nodes, ∀ scan, NameScan.Grows scan (node.scanNames [] scan)) {part : Node}
    (hpart : part ∈ nodes) (h : ∀ scan, name ∉ scan.bound → name ∈ (part.scanNames [] scan).free)
    (hbound : name ∉ scan.bound) : name ∈ (scanNamesEach [] nodes scan).free := by
  induction nodes generalizing scan with
  | nil => cases hpart
  | cons node nodes ih =>
    have hrest : ∀ other ∈ nodes, ∀ scan, NameScan.Grows scan (other.scanNames [] scan) :=
      fun other hother => hgrows other (List.mem_cons_of_mem _ hother)
    rcases List.mem_cons.mp hpart with rfl | hpart
    · exact (grows_scanNamesEach hrest _).free (h scan hbound)
    · exact ih hrest hpart (by rwa [(hgrows node List.mem_cons_self scan).bound])

end Each

/-- A body without definitions defines no names. -/
theorem definedNames_of_pure {body : List Node} (h : ∀ node ∈ body, node.form.isPure = true) :
    definedNames body = [] := by
  rw [definedNames, List.flatMap_eq_nil_iff]
  intro node hnode
  have hpure := h node hnode
  obtain ⟨position, form⟩ := node
  cases form with
  | define | defineAll => cases hpure
  | _ => rfl

/-- The scan of a form that binds nothing, has all its nodes in one frame and is no block. -/
theorem Form.scanNames_flat {form : Form} (around : List String) (hpure : form.isPure = true)
    (hflat : form.within = []) (hblock : ∀ body handlers cleanup, form ≠ .block body handlers cleanup)
    (scan : NameScan) :
    form.scanNames around scan =
      (scanNamesEach around form.here scan).referAll around form.refers := by
  cases form with
  | comprehension parts => simp [Form.within, Comprehension.inner] at hflat
  | function definition => simp [Form.within] at hflat
  | define | defineAll | loop | require => cases hpure
  | block body handlers cleanup => exact absurd rfl (hblock body handlers cleanup)
  | choice branches otherwise =>
    simp only [Form.scanNames, Form.here, Form.parts, scanNamesBranches_eq, scanNamesOption_eq,
      scanNamesEach_append]
    rfl
  | call callee arguments => exact scanNamesArguments_eq around arguments _
  | invoke target member arguments => exact scanNamesArguments_eq around arguments _
  | map items => exact scanNamesMapItems_eq around items scan
  | object members => exact scanNamesMembers_eq around members scan
  | giveBack value => exact scanNamesOption_eq around value scan
  | _ => rfl

/-- The scan of a pure form that is evaluated in one frame. -/
theorem Form.scanNames_here {form : Form} (hpure : form.isPure = true)
    (hhere : ∀ part ∈ form.here, part.form.isPure = true) (hflat : form.within = [])
    (scan : NameScan) :
    form.scanNames [] scan = (scanNamesEach [] form.here scan).referAll [] form.refers := by
  cases form with
  | block body handlers cleanup =>
    obtain rfl := List.isEmpty_iff.mp hpure
    have hdefined : definedNames body = [] :=
      definedNames_of_pure fun node hnode => hhere node (by simp [Form.here, Form.parts, hnode])
    simp only [Form.scanNames, hdefined, Form.here, Form.parts, List.flatMap_nil, List.append_nil,
      scanNamesEach_append]
    rfl
  | _ => exact Form.scanNames_flat [] hpure hflat (by simp) scan

/-- The scan of a form with nodes in frames of their own: it goes through all of them with the names bound. -/
theorem Form.scanNames_within {form : Form} (h : form.within ≠ []) :
    ∃ inside : List Node, (∀ part, part ∈ inside ↔ part ∈ form.within) ∧ ∀ scan,
      form.scanNames [] scan = (scanNamesEach [] form.here scan).leave
        (scanNamesEach [] inside ((scanNamesEach [] form.here scan).bind form.binders)) := by
  cases form with
  | comprehension parts =>
    obtain ⟨kind, element, value, binder, source, condition⟩ := parts
    refine ⟨element :: value.toList ++ condition.toList, fun part => ?_, fun scan => ?_⟩
    · simp only [Form.within, Comprehension.inner, List.mem_append, List.mem_cons]
      tauto
    · simp only [Form.scanNames, scanNamesComprehension, scanNamesOption_eq, List.cons_append,
        scanNamesEach, scanNamesEach_append, Form.here, Form.binders]
  | function definition =>
    obtain ⟨name, parameters, rest, body⟩ := definition
    refine ⟨_, fun part => Iff.rfl, fun scan => ?_⟩
    simp only [Form.scanNames, scanNamesLambda, scanNamesFallbacks_eq, Form.within, scanNamesEach_append,
      scanNamesEach, Form.here, Form.parts, Form.binders, Lambda.names]
  | _ => exact absurd rfl h

namespace Node

variable {name : String} {node : Node}

/-- The parts evaluated in the same frame are free of definitions as the whole is. -/
theorem Pure.here_isPure (h : node.Pure) : ∀ part ∈ node.form.here, part.form.isPure = true :=
  fun _ hpart => (h.here hpart).own

/-- The pass over a node is the pass over its form. -/
theorem scanNames_eq (around : List String) (scan : NameScan) :
    node.scanNames around scan = node.form.scanNames around scan := by
  cases node
  rfl

/-- The scan of a pure tree binds nothing. -/
theorem Pure.grows (h : node.Pure) (scan : NameScan) : scan.Grows (node.scanNames [] scan) := by
  induction h generalizing scan with
  | @mk node hpure hinside ih =>
    have hhere := grows_scanNamesEach fun part hpart => ih part (List.mem_append_left _ hpart)
    rw [scanNames_eq]
    by_cases hflat : node.form.within = []
    · rw [Form.scanNames_here hpure
        (fun part hpart => (hinside part (List.mem_append_left _ hpart)).own) hflat]
      exact (hhere scan).trans (NameScan.grows_referAll _ _ _)
    · obtain ⟨inside, hinner, hscan⟩ := Form.scanNames_within hflat
      have hwithin := grows_scanNamesEach fun part (hpart : part ∈ inside) =>
        ih part (List.mem_append_right _ ((hinner part).mp hpart))
      rw [hscan]
      have hinside := hwithin ((scanNamesEach [] node.form.here scan).bind node.form.binders)
      exact ⟨(hhere scan).bound, List.Subset.trans (hhere scan).free hinside.free⟩

/-- **What a pure tree needs is found free**, apart from what the values of parameters need too early. -/
theorem Pure.mem_free_or_forward (hpure : node.Pure) (h : node.Needs name) :
    (∀ scan : NameScan, name ∉ scan.bound → name ∈ (node.scanNames [] scan).free) ∨
      node.Forward name := by
  -- passes over pure nodes bind nothing that lasts, so what is found free stays so
  have hhere : ∀ {node : Node}, node.Pure → ∀ part ∈ node.form.here, ∀ scan,
      NameScan.Grows scan (part.scanNames [] scan) := fun hpure _ hpart => Pure.grows (hpure.here hpart)
  have hwithin : ∀ {node : Node} {inside : List Node}, node.Pure →
      (∀ part, part ∈ inside ↔ part ∈ node.form.within) → ∀ part ∈ inside, ∀ scan,
      NameScan.Grows scan (part.scanNames [] scan) :=
    fun hpure hinner part hpart => Pure.grows (hpure.within ((hinner part).mp hpart))
  induction h with
  | @refer node hrefer =>
    refine .inl fun scan hbound => ?_
    have hflat : node.form.within = [] := by
      revert hrefer
      cases node.form <;> first | exact fun _ => rfl | exact nofun
    rw [scanNames_eq, Form.scanNames_here hpure.own (Pure.here_isPure hpure) hflat]
    refine NameScan.mem_free_referAll hrefer ?_
    rwa [(grows_scanNamesEach (hhere hpure) scan).bound]
  | @here node part hpart _ ih =>
    refine (ih (hpure.here hpart)).imp (fun hfree scan hbound => ?_) (.here hpart)
    have hfound := mem_free_scanNamesEach (hhere hpure) hpart hfree hbound
    rw [scanNames_eq]
    by_cases hflat : node.form.within = []
    · rw [Form.scanNames_here hpure.own (Pure.here_isPure hpure) hflat]
      exact (NameScan.grows_referAll _ _ _).free hfound
    · obtain ⟨inside, hinner, hscan⟩ := Form.scanNames_within hflat
      rw [hscan]
      exact (grows_scanNamesEach (hwithin hpure hinner) _).free hfound
  | @within node part hpart hnew _ ih =>
    refine (ih (hpure.within hpart)).imp (fun hfree scan hbound => ?_) (.within hpart hnew)
    obtain ⟨inside, hinner, hscan⟩ := Form.scanNames_within (List.ne_nil_of_mem hpart)
    -- the name is none of those that the form binds for its inner nodes
    have hunbound : name ∉ ((scanNamesEach [] node.form.here scan).bind node.form.binders).bound := by
      rw [NameScan.bind, (grows_scanNamesEach (hhere hpure) scan).bound]
      exact fun hmem => (List.mem_append.mp hmem).elim hnew hbound
    rw [scanNames_eq, hscan]
    exact mem_free_scanNamesEach (hwithin hpure hinner) ((hinner part).mpr hpart) hfree hunbound
  | early hform hearly h _ => exact .inr (.early hform hearly h)

/-- Every name that the evaluation can ask for is free, or it is referred to by a fallback ahead of its
parameter. -/
theorem Pure.mem_freeNames_or_forward (hpure : node.Pure) (h : node.Needs name) :
    name ∈ node.freeNames ∨ node.Forward name :=
  (hpure.mem_free_or_forward h).imp_left fun hfree =>
    List.mem_mergeSort.mpr (hfree {} List.not_mem_nil)

end Node

end Ckl.Source
