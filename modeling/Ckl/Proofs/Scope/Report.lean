import Ckl.Proofs.Scope.Needs
import Mathlib.Logic.Relation

/-!
# What the analysis of free names reports

The analysis goes through the nodes of a form in an order of its own, and what it knows of names where it
comes to a node depends on the part of the form in which the node stands. The first nodes are gone through
with what is known of the form, and what they define is known from there on. The filters of handlers come
next; what they define is known behind the form, but not in the handlers. In the rest of the form more names
are known, and what is defined there is forgotten behind it: these are the parts of functions and
comprehensions, which are evaluated in frames of their own, and the bodies of handlers and of `for`, which are
not. That is where the analysis differs from evaluation.

A name is free in a tree if and only if the analysis meets a reference to it without knowing it
(`Node.mem_freeNames_iff`). At an occurrence of the name that it always meets in this way, it has not counted
any of the definitions in the scopes around, and there is a reason for each of them: the definition is behind
the occurrence or around it, or in a part of a form that it has forgotten (`Node.Unknown.late`).
-/

namespace Ckl.Source

/-! ## Forms in the order of the analysis -/

/-- The names that are known in a form from the beginning: those that the statements of a block define. -/
def Form.ahead : Form → List String
  | .block body _ _ => definedNames body
  | _ => []

/-- The first nodes, which are gone through with what is known of the form. -/
def Form.first : Form → List Node
  | .block body _ cleanup => body ++ cleanup
  | .loop parts => [parts.source]
  | form => form.here

/-- The filters of handlers. -/
def Form.filters : Form → List Node
  | .block _ handlers _ => handlers.flatMap (·.filter.toList)
  | _ => []

/-- The nodes that are evaluated in the frame of the form, but of which the analysis forgets what they
define: the bodies of handlers and of `for`. -/
def Form.sheltered : Form → List Node
  | .block _ handlers _ => handlers.flatMap (·.body)
  | .loop parts => [parts.body]
  | _ => []

/-- The nodes that are evaluated in frames of their own. -/
def Form.fenced : Form → List Node
  | .comprehension parts => parts.element :: (parts.value.toList ++ parts.condition.toList)
  | .function definition => definition.parameters.filterMap (·.fallback) ++ [definition.body]
  | _ => []

/-- The nodes of which the analysis forgets what they define. -/
def Form.enclosed (form : Form) : List Node := form.sheltered ++ form.fenced

/-- The nodes of a form in the order of the analysis. -/
def Form.order (form : Form) : List Node := form.first ++ form.filters ++ form.enclosed

/-- The names that are known in addition in these last nodes. -/
def Form.inside : Form → List String
  | .block _ _ _ => [lastErrorName]
  | .loop parts => parts.names
  | form => form.binders

/-- The names that a form defines itself, and that are known behind it. -/
def Form.defines : Form → List String
  | .define word _ => [word]
  | .defineAll words _ => words
  | .require module style => requiredNames module style
  | _ => []

/-- The parts of a form that are evaluated in its frame are met in three rounds. -/
theorem Form.mem_here_iff {form : Form} {part : Node} :
    part ∈ form.here ↔ part ∈ form.first ∨ part ∈ form.filters ∨ part ∈ form.sheltered := by
  cases form with
  | block body handlers cleanup =>
    simp only [here, parts, first, filters, sheltered, List.mem_append, List.mem_flatMap]
    constructor
    · rintro ((hbody | ⟨handler, hhandler, hfilter | hbody⟩) | hcleanup)
      · exact .inl (.inl hbody)
      · exact .inr (.inl ⟨handler, hhandler, hfilter⟩)
      · exact .inr (.inr ⟨handler, hhandler, hbody⟩)
      · exact .inl (.inr hcleanup)
    · rintro ((hbody | hcleanup) | ⟨handler, hhandler, hfilter⟩ | ⟨handler, hhandler, hbody⟩)
      · exact .inl (.inl hbody)
      · exact .inr hcleanup
      · exact .inl (.inr ⟨handler, hhandler, .inl hfilter⟩)
      · exact .inl (.inr ⟨handler, hhandler, .inr hbody⟩)
  | loop parts => simp [here, Form.parts, throughLoop, first, filters, sheltered]
  | _ => simp [first, filters, sheltered]

/-- The parts with names of their own are those that are fenced. -/
theorem Form.mem_within_iff {form : Form} {part : Node} : part ∈ form.within ↔ part ∈ form.fenced := by
  cases form with
  | comprehension parts =>
    simp only [within, Comprehension.inner, fenced, List.mem_append, List.mem_cons]
    tauto
  | _ => rfl

/-- All parts of a form are met, in one order or another. -/
theorem Form.mem_order_iff {form : Form} {part : Node} :
    part ∈ form.order ↔ part ∈ form.here ++ form.within := by
  simp only [order, enclosed, List.mem_append, mem_here_iff, mem_within_iff]
  tauto

/-- Only forms with nodes in frames of their own bind names there. -/
theorem Form.inside_of_mem_within {form : Form} {part : Node} (h : part ∈ form.within) :
    form.inside = form.binders ∧ form.filters = [] ∧ form.sheltered = [] := by
  cases form with
  | comprehension | function => exact ⟨rfl, rfl, rfl⟩
  | _ => cases h

/-- What a form does to bind a name: it defines it for what is behind, or inside only. -/
theorem Form.defines_of_uses {form : Form} {name : String} (h : (.define, name) ∈ form.uses) :
    name ∈ form.defines ∨ name ∈ form.inside := by
  cases form with
  | define word value => exact .inl (by simpa [uses, defines] using h)
  | defineAll words value => exact .inl (by simpa [uses, defines] using h)
  | block body handlers cleanup =>
    refine .inr ?_
    simp only [uses] at h
    split at h
    · cases h
    · simpa [temporaryUses, inside] using h
  | loop parts =>
    refine .inr ?_
    obtain ⟨other, hother, huse⟩ := List.mem_flatMap.mp h
    obtain rfl : name = other := by simpa [temporaryUses] using huse
    exact hother
  | call | invoke => simp [uses, callUses] at h
  | _ => simp [uses] at h

/-! ## What is met and what is known there -/

namespace Node

/-- The names that are known behind a node, if none is known before it. -/
def counted (node : Node) : List String := (node.scanNames [] {}).bound

/-- The analysis meets the occurrence in a tree, and these names are known to it there. -/
inductive MetIn (occurrence : Node) : Node → List String → Prop
  | own : MetIn occurrence occurrence (occurrence.form.first.flatMap counted)
  | first {node part : Node} {before after : List Node} {known : List String}
    (hfirst : node.form.first = before ++ part :: after) (h : MetIn occurrence part known) :
    MetIn occurrence node (known ++ before.flatMap counted ++ node.form.ahead)
  | filter {node part : Node} {before after : List Node} {known : List String}
    (hfilters : node.form.filters = before ++ part :: after) (h : MetIn occurrence part known) :
    MetIn occurrence node
      (known ++ before.flatMap counted ++ node.form.first.flatMap counted ++ node.form.ahead)
  | enclosed {node part : Node} {before after : List Node} {known : List String}
    (henclosed : node.form.enclosed = before ++ part :: after) (h : MetIn occurrence part known) :
    MetIn occurrence node
      (known ++ before.flatMap counted ++ node.form.inside ++ node.form.first.flatMap counted ++
        node.form.ahead)

/-- The analysis meets the occurrence without knowing the name that it refers to. -/
def Reports (node : Node) (name : String) : Prop :=
  ∃ (occurrence : Node) (known : List String),
    occurrence.MetIn node known ∧ name ∈ occurrence.form.refers ∧ name ∉ known

/-- The same in nodes that are gone through one after the other. -/
def ReportsIn (nodes : List Node) (name : String) : Prop :=
  ∃ before part after, nodes = before ++ part :: after ∧ part.Reports name ∧
    name ∉ before.flatMap counted

end Node

open Node (ReportsIn counted)

/-- No nodes report nothing. -/
theorem not_reportsIn_nil (name : String) : ¬ ReportsIn [] name := by
  rintro ⟨before, part, after, h, -⟩
  simp at h

/-- A name is reported by the first node, or by the others if the first one does not count it. -/
theorem reportsIn_cons {node : Node} {nodes : List Node} {name : String} :
    ReportsIn (node :: nodes) name ↔
      node.Reports name ∨ name ∉ node.counted ∧ ReportsIn nodes name := by
  constructor
  · rintro ⟨before, part, after, heq, hreports, hnew⟩
    cases before with
    | nil =>
      obtain ⟨rfl, -⟩ := List.cons.inj heq
      exact .inl hreports
    | cons other before =>
      obtain ⟨rfl, hrest⟩ := List.cons.inj heq
      rw [List.flatMap_cons, List.mem_append, not_or] at hnew
      exact .inr ⟨hnew.1, before, part, after, hrest, hreports, hnew.2⟩
  · rintro (hreports | ⟨hnode, before, part, after, rfl, hreports, hnew⟩)
    · exact ⟨[], node, nodes, rfl, hreports, List.not_mem_nil⟩
    · refine ⟨node :: before, part, after, rfl, hreports, ?_⟩
      rw [List.flatMap_cons, List.mem_append, not_or]
      exact ⟨hnode, hnew⟩

/-- So with nodes in front of others. -/
theorem reportsIn_append {first second : List Node} {name : String} :
    ReportsIn (first ++ second) name ↔
      ReportsIn first name ∨ name ∉ first.flatMap counted ∧ ReportsIn second name := by
  induction first with
  | nil => simp [not_reportsIn_nil]
  | cons node first ih =>
    rw [List.cons_append, reportsIn_cons, reportsIn_cons, ih, List.flatMap_cons, List.mem_append]
    tauto

/-- What is reported of a form: its own references, which come behind its first nodes, and those in its
nodes. -/
def Form.Reports (form : Form) (name : String) : Prop :=
  name ∈ form.refers ∧ name ∉ form.first.flatMap counted ∨
    name ∉ form.ahead ∧ (ReportsIn form.first name ∨
      name ∉ form.first.flatMap counted ∧
        (ReportsIn form.filters name ∨ name ∉ form.inside ∧ ReportsIn form.enclosed name))

/-- A node reports what its form reports. -/
theorem Node.reports_iff {node : Node} {name : String} : node.Reports name ↔ node.form.Reports name := by
  constructor
  · rintro ⟨occurrence, known, hmet, hrefers, hnew⟩
    cases hmet with
    | own => exact .inl ⟨hrefers, hnew⟩
    | @first node part before after known hfirst h =>
      simp only [List.mem_append, not_or] at hnew
      exact .inr ⟨hnew.2, .inl ⟨before, part, after, hfirst, ⟨occurrence, known, h, hrefers, hnew.1.1⟩,
        hnew.1.2⟩⟩
    | @filter node part before after known hfilters h =>
      simp only [List.mem_append, not_or] at hnew
      exact .inr ⟨hnew.2, .inr ⟨hnew.1.2, .inl ⟨before, part, after, hfilters,
        ⟨occurrence, known, h, hrefers, hnew.1.1.1⟩, hnew.1.1.2⟩⟩⟩
    | @enclosed node part before after known henclosed h =>
      simp only [List.mem_append, not_or] at hnew
      exact .inr ⟨hnew.2, .inr ⟨hnew.1.2, .inr ⟨hnew.1.1.2, before, part, after, henclosed,
        ⟨occurrence, known, h, hrefers, hnew.1.1.1.1⟩, hnew.1.1.1.2⟩⟩⟩
  · rintro (⟨hrefers, hnew⟩ | ⟨hahead, hfirst | ⟨hcounted, hfilters | ⟨hinside, henclosed⟩⟩⟩)
    · exact ⟨node, _, .own, hrefers, hnew⟩
    · obtain ⟨before, part, after, heq, ⟨occurrence, known, h, hrefers, hknown⟩, hbefore⟩ := hfirst
      refine ⟨occurrence, _, .first heq h, hrefers, ?_⟩
      simp only [List.mem_append, not_or]
      exact ⟨⟨hknown, hbefore⟩, hahead⟩
    · obtain ⟨before, part, after, heq, ⟨occurrence, known, h, hrefers, hknown⟩, hbefore⟩ := hfilters
      refine ⟨occurrence, _, .filter heq h, hrefers, ?_⟩
      simp only [List.mem_append, not_or]
      exact ⟨⟨⟨hknown, hbefore⟩, hcounted⟩, hahead⟩
    · obtain ⟨before, part, after, heq, ⟨occurrence, known, h, hrefers, hknown⟩, hbefore⟩ := henclosed
      refine ⟨occurrence, _, .enclosed heq h, hrefers, ?_⟩
      simp only [List.mem_append, not_or]
      exact ⟨⟨⟨⟨hknown, hbefore⟩, hinside⟩, hcounted⟩, hahead⟩

/-! ## The scan -/

/-- A scan goes on from one state to another: some names become known, and of those that are reported the
ones are found free that were not known before. -/
structure NameScan.Notes (around : List String) (scan after : NameScan) (names : List String)
    (reports : String → Prop) : Prop where
  bound : ∀ {name}, name ∈ after.bound ↔ name ∈ names ∨ name ∈ scan.bound
  free : ∀ {name}, name ∈ after.free ↔
    name ∈ scan.free ∨ name ∉ around ∧ name ∉ scan.bound ∧ reports name

namespace NameScan.Notes

variable {around names names' : List String} {scan middle after : NameScan}
  {reports reports' : String → Prop}

/-- A scan that goes nowhere finds nothing. -/
theorem refl (scan : NameScan) : Notes around scan scan [] fun _ => False :=
  ⟨by simp, by simp⟩

/-- What is found is a matter of which names, not of how they are told. -/
theorem congr (h : Notes around scan after names reports)
    (hnames : ∀ name, name ∈ names ↔ name ∈ names') (hreports : ∀ name, reports name ↔ reports' name) :
    Notes around scan after names' reports' :=
  ⟨h.bound.trans (or_congr (hnames _) Iff.rfl),
    h.free.trans (or_congr Iff.rfl (and_congr_right' (and_congr_right' (hreports _))))⟩

/-- One scan after another finds what both find, but no name that the first one has counted. -/
theorem trans (h : Notes around scan middle names reports)
    (hafter : Notes around middle after names' reports') :
    Notes around scan after (names' ++ names) fun name =>
      reports name ∨ name ∉ names ∧ reports' name := by
  refine ⟨fun {name} => ?_, fun {name} => ?_⟩
  · rw [hafter.bound, h.bound, List.mem_append]
    tauto
  · rw [hafter.free, h.free, h.bound]
    tauto

/-- A reference is found if its name is not known. -/
theorem refer (name : String) (scan : NameScan) :
    Notes around scan (scan.refer around name) [] (· = name) := by
  unfold NameScan.refer
  split
  · next hknown =>
    simp only [Bool.or_eq_true, List.contains_iff_mem] at hknown
    refine ⟨by simp, fun {other} => ⟨.inl, ?_⟩⟩
    rintro (hfree | ⟨haround, hbound, rfl⟩)
    · exact hfree
    · tauto
  · next hnew =>
    simp only [Bool.or_eq_true, List.contains_iff_mem, not_or] at hnew
    refine ⟨by simp, fun {other} => ?_⟩
    rw [List.mem_cons]
    constructor
    · rintro (rfl | hfree)
      · exact .inr ⟨hnew.1.2, hnew.1.1, rfl⟩
      · exact .inl hfree
    · tauto

/-- So are several. -/
theorem referAll (words : List String) (scan : NameScan) :
    Notes around scan (scan.referAll around words) [] (· ∈ words) := by
  induction words generalizing scan with
  | nil => exact (refl scan).congr (fun _ => Iff.rfl) (by simp)
  | cons word words ih =>
    exact ((refer word scan).trans (ih _)).congr (by simp) (by simp)

/-- To bind names is to count them. -/
theorem bind (words : List String) (scan : NameScan) :
    Notes around scan (scan.bind words) words fun _ => False :=
  ⟨List.mem_append, by simp [NameScan.bind]⟩

/-- What is found inside is forgotten behind, apart from the free names. -/
theorem leave {inner : NameScan} (h : Notes around (scan.bind names) inner names' reports) :
    Notes around scan (scan.leave inner) [] fun name => name ∉ names ∧ reports name := by
  refine ⟨by simp [NameScan.leave], fun {name} => ?_⟩
  show name ∈ inner.free ↔ _
  rw [h.free]
  simp only [NameScan.bind, List.mem_append]
  tauto

/-- Names of a block are known in it without being bound. -/
theorem inBlock (h : Notes (names ++ around) scan after names' reports) :
    Notes around scan after names' fun name => name ∉ names ∧ reports name := by
  refine ⟨h.bound, fun {name} => ?_⟩
  rw [h.free, List.mem_append]
  tauto

end NameScan.Notes

open NameScan (Notes)

/-- The scan finds what is reported of the node. -/
def Node.Scanned (node : Node) : Prop := ∀ around scan,
  Notes around scan (node.scanNames around scan) node.counted node.Reports

section Scan

variable {nodes : List Node} (around : List String)

/-- Nodes one after the other. -/
theorem notes_each (h : ∀ node ∈ nodes, node.Scanned) (scan : NameScan) :
    Notes around scan (scanNamesEach around nodes scan) (nodes.flatMap counted) (ReportsIn nodes) := by
  induction nodes generalizing scan with
  | nil => exact (Notes.refl scan).congr (fun _ => Iff.rfl) (by simp [not_reportsIn_nil])
  | cons node nodes ih =>
    have hrest := ih (fun other hother => h other (List.mem_cons_of_mem _ hother))
      (node.scanNames around scan)
    refine ((h node List.mem_cons_self around scan).trans hrest).congr (fun name => ?_) fun name =>
      reportsIn_cons.symm
    rw [List.flatMap_cons, List.mem_append, List.mem_append, or_comm]

/-- Handlers: the filters are gone through with what is known outside, the bodies with what is known
inside. -/
theorem notes_handlers {handlers : List (Handler Node)}
    (hfilters : ∀ node ∈ handlers.flatMap (·.filter.toList), node.Scanned)
    (hbodies : ∀ node ∈ handlers.flatMap (·.body), node.Scanned) (scan inner : NameScan) :
    (∀ name, name ∈ (scanNamesHandlers around handlers scan inner).bound ↔
      name ∈ (handlers.flatMap (·.filter.toList)).flatMap counted ∨ name ∈ scan.bound) ∧
    ∀ name, name ∈ (scanNamesHandlers around handlers scan inner).free ↔
      name ∈ inner.free ∨ name ∉ around ∧
        (name ∉ scan.bound ∧ ReportsIn (handlers.flatMap (·.filter.toList)) name ∨
          name ∉ inner.bound ∧ ReportsIn (handlers.flatMap (·.body)) name) := by
  induction handlers generalizing scan inner with
  | nil => simp [scanNamesHandlers, NameScan.leave, not_reportsIn_nil]
  | cons handler handlers ih =>
    obtain ⟨filter, body⟩ := handler
    simp only [List.flatMap_cons, List.forall_mem_append] at hfilters hbodies
    have hfilter := notes_each around hfilters.1 (scan.leave inner)
    rw [← scanNamesOption_eq] at hfilter
    have hbody := notes_each around hbodies.1
      (inner.leave (scanNamesOption around filter (scan.leave inner)))
    obtain ⟨hbound, hfree⟩ := ih hfilters.2 hbodies.2 (scanNamesOption around filter (scan.leave inner))
      (scanNamesEach around body (inner.leave (scanNamesOption around filter (scan.leave inner))))
    have hleave : ∀ name, name ∈ (scan.leave inner).bound ↔ name ∈ scan.bound := fun _ => Iff.rfl
    have hinner : ∀ name, name ∈ (inner.leave
        (scanNamesOption around filter (scan.leave inner))).bound ↔ name ∈ inner.bound :=
      fun _ => Iff.rfl
    have hbefore : ∀ name, name ∈ (scan.leave inner).free ↔ name ∈ inner.free := fun _ => Iff.rfl
    have hbetween : ∀ name, name ∈ (inner.leave
        (scanNamesOption around filter (scan.leave inner))).free ↔
        name ∈ (scanNamesOption around filter (scan.leave inner)).free := fun _ => Iff.rfl
    refine ⟨fun name => ?_, fun name => ?_⟩
    · simp only [scanNamesHandlers, hbound, hfilter.bound, hleave, List.flatMap_cons, List.flatMap_append,
        List.mem_append]
      tauto
    · simp only [scanNamesHandlers, hfree, hbody.free, hbetween, hfilter.free, hbefore, hleave, hinner,
        hbody.bound, hfilter.bound, List.flatMap_cons, reportsIn_append]
      tauto

end Scan

/-- **The scan of a form**, if its nodes are scanned as is reported of them. -/
theorem Form.notes {form : Form} (hparts : ∀ part ∈ form.order, part.Scanned) (around : List String)
    (scan : NameScan) :
    Notes around scan (form.scanNames around scan)
      (form.defines ++ form.filters.flatMap counted ++ form.first.flatMap counted) form.Reports := by
  simp only [order, List.forall_mem_append] at hparts
  obtain ⟨⟨hfirst, hfilters⟩, henclosed⟩ := hparts
  -- most forms go through their nodes and count nothing but what these define
  have hflat : form.isPure = true → form.within = [] →
      (∀ body handlers cleanup, form ≠ .block body handlers cleanup) → form.first = form.here →
      form.ahead = [] → form.filters = [] → form.enclosed = [] → form.defines = [] →
      Notes around scan (form.scanNames around scan)
        (form.defines ++ form.filters.flatMap counted ++ form.first.flatMap counted) form.Reports := by
    intro hpure hwithin hblock hhere hahead hnone hopen hdefines
    rw [Form.scanNames_flat around hpure hwithin hblock, ← hhere]
    refine ((notes_each around hfirst scan).trans (.referAll form.refers _)).congr (fun name => ?_)
      fun name => ?_
    · simp [hdefines, hnone]
    · simp only [Form.Reports, hahead, hnone, hopen, not_reportsIn_nil]
      tauto
  cases form with
  | define word value =>
    refine ((notes_each around hfirst scan).trans (.bind [word] _)).congr (fun name => ?_) fun name => ?_
    · simp [defines, filters]
    · simp [Form.Reports, refers, ahead, filters, enclosed, sheltered, fenced, not_reportsIn_nil]
  | defineAll words value =>
    refine ((notes_each around hfirst scan).trans (.bind words _)).congr (fun name => ?_) fun name => ?_
    · simp [defines, filters]
    · simp [Form.Reports, refers, ahead, filters, enclosed, sheltered, fenced, not_reportsIn_nil]
  | require module style =>
    refine (Notes.bind (requiredNames module style) scan).congr (fun name => ?_) fun name => ?_
    · simp [defines, filters, first, here]
    · simp [Form.Reports, refers, ahead, first, here, filters, enclosed, sheltered, fenced, not_reportsIn_nil]
  | loop parts =>
    have hinside := notes_each around henclosed
      ((scanNamesEach around [parts.source] scan).bind parts.names)
    have hscan : Form.scanNames around (.loop parts) scan =
        (scanNamesEach around [parts.source] scan).leave (scanNamesEach around (Form.loop parts).enclosed
          ((scanNamesEach around [parts.source] scan).bind parts.names)) := by
      cases parts
      rfl
    rw [hscan]
    refine ((notes_each around hfirst scan).trans hinside.leave).congr (fun name => ?_) fun name => ?_
    · simp [defines, filters]
    · simp [Form.Reports, refers, ahead, filters, inside, not_reportsIn_nil]
  | comprehension parts =>
    have hinside := notes_each around henclosed
      ((scanNamesEach around [parts.source] scan).bind [parts.binder])
    have hscan : Form.scanNames around (.comprehension parts) scan =
        (scanNamesEach around [parts.source] scan).leave (scanNamesEach around
          (Form.comprehension parts).enclosed
          ((scanNamesEach around [parts.source] scan).bind [parts.binder])) := by
      cases parts
      simp only [scanNames, scanNamesComprehension, scanNamesOption_eq, enclosed, sheltered, fenced,
        List.nil_append, scanNamesEach, scanNamesEach_append]
    rw [hscan]
    refine ((notes_each around hfirst scan).trans hinside.leave).congr (fun name => ?_) fun name => ?_
    · simp [defines, filters]
    · simp [Form.Reports, refers, ahead, filters, inside, binders, not_reportsIn_nil]
  | function definition =>
    have hinside := notes_each around henclosed (scan.bind definition.names)
    have hscan : Form.scanNames around (.function definition) scan =
        scan.leave (scanNamesEach around (Form.function definition).enclosed
          (scan.bind definition.names)) := by
      cases definition
      simp only [scanNames, scanNamesLambda, scanNamesFallbacks_eq, enclosed, sheltered, fenced,
        List.nil_append, scanNamesEach, scanNamesEach_append, Lambda.names]
    rw [hscan]
    refine hinside.leave.congr (fun name => ?_) fun name => ?_
    · simp [defines, filters, first, here, Form.parts]
    · simp [Form.Reports, refers, ahead, first, here, Form.parts, filters, inside, binders,
        not_reportsIn_nil]
  | block body handlers cleanup =>
    have hwhole := notes_each (definedNames body ++ around) hfirst scan
    have hbodies : ∀ node ∈ handlers.flatMap (·.body), node.Scanned := fun node hnode =>
      henclosed node (List.mem_append_left _ hnode)
    -- the filters are gone through from the state behind the body, each body of a handler from there
    obtain ⟨hbound, hfree⟩ := notes_handlers (definedNames body ++ around) hfilters hbodies
      (scanNamesEach (definedNames body ++ around) (body ++ cleanup) scan)
      ((scanNamesEach (definedNames body ++ around) (body ++ cleanup) scan).bind [lastErrorName])
    have hhandlers : Notes (definedNames body ++ around)
        (scanNamesEach (definedNames body ++ around) (body ++ cleanup) scan)
        (Form.scanNames around (.block body handlers cleanup) scan)
        ((Form.block body handlers cleanup).filters.flatMap counted)
        (fun name => ReportsIn (Form.block body handlers cleanup).filters name ∨
          name ∉ [lastErrorName] ∧ ReportsIn (handlers.flatMap (·.body)) name) := by
      simp only [scanNames, ← scanNamesEach_append]
      refine ⟨fun {name} => hbound name, fun {name} => ?_⟩
      rw [hfree name]
      simp only [NameScan.bind, List.mem_append, filters]
      tauto
    refine (hwhole.trans hhandlers).inBlock.congr (fun name => ?_) fun name => ?_
    · simp only [defines, first, List.nil_append]
    · simp only [Form.Reports, refers, List.not_mem_nil, false_and, false_or, ahead, first, inside, enclosed,
        sheltered, fenced, List.append_nil]
  | choice | call | invoke | map | object | giveBack | literal | name | spread | list | set | and | or | not
  | contained | index | assignIndex | assign | assignAll | loopWhile | breakLoop | continueLoop | raise =>
    exact hflat rfl rfl (by simp) rfl rfl rfl rfl rfl

namespace Node

variable {name : String} {good : Node → Prop} {occurrence script node part other definition : Node}
  {known : List String}

/-- **The scan finds what is reported.** -/
theorem All.scanned (h : node.All good) : node.Scanned := by
  induction h with
  | @mk node _ _ ih =>
    have hform := Form.notes fun part hpart => ih part (Form.mem_order_iff.mp hpart)
    intro around scan
    rw [scanNames_eq]
    refine (hform around scan).congr (fun name => ?_) fun name => reports_iff.symm
    rw [counted, scanNames_eq, (hform [] {}).bound]
    simp

/-- A name is counted in a node by its form, in a filter or in what comes first. -/
theorem All.mem_counted_iff (h : node.All good) : name ∈ node.counted ↔
    name ∈ node.form.defines ∨ name ∈ node.form.filters.flatMap counted ∨
      name ∈ node.form.first.flatMap counted := by
  have hform := Form.notes fun part hpart => (h.inside part (Form.mem_order_iff.mp hpart)).scanned
  rw [counted, scanNames_eq, (hform [] {}).bound, List.mem_append, List.mem_append]
  simp [or_assoc]

/-- **A name is free** if and only if the analysis meets a reference to it where it does not know it. -/
theorem mem_freeNames_iff (h : node.All good) : name ∈ node.freeNames ↔ node.Reports name := by
  rw [freeNames, List.mem_mergeSort, (h.scanned [] {}).free]
  simp

/-! ## Scopes around an occurrence -/

/-- A node stands in a tree. -/
def Contains : Node → Node → Prop :=
  Relation.ReflTransGen fun node part => part ∈ node.form.here ++ node.form.within

/-- A node stands in a tree and is evaluated in the frame of the tree. -/
def Spans : Node → Node → Prop := Relation.ReflTransGen fun node part => part ∈ node.form.here

/-- A node stands in a script and is evaluated in the frame of a scope that is around the occurrence. -/
def Beside (occurrence : Node) : Node → Node → Prop :=
  Relation.ReflTransGen fun node part => part ∈ node.form.here ∨
    part ∈ node.form.within ∧ ∃ other ∈ node.form.within, other.Contains occurrence

/-- The occurrence stands in the script, and wherever the analysis meets it, it does not know the name. -/
structure Unknown (occurrence : Node) (name : String) (script : Node) : Prop where
  stands : script.Contains occurrence
  unknown : ∀ known, occurrence.MetIn script known → name ∉ known

/-- A definition of the name in the script that the analysis does not count at the occurrence. -/
inductive Late (occurrence : Node) (name : String) (script definition : Node) : Prop
  /-- The occurrence stands in the definition. -/
  | around (h : definition.Contains occurrence)
  /-- The definition is behind the occurrence, and is no statement of a block around both. -/
  | behind {node part later : Node} (hnode : script.Contains node) (hahead : name ∉ node.form.ahead)
    (horder : [part, later].Sublist node.form.order) (hpart : part.Contains occurrence)
    (hlater : later.Contains definition)
  /-- The definition is in the filter of a handler, and the occurrence in the body of a handler. -/
  | filter {node part other : Node} (hnode : script.Contains node) (hfilter : other ∈ node.form.filters)
    (hother : other.Contains definition) (hbody : part ∈ node.form.sheltered)
    (hpart : part.Contains occurrence)
  /-- The definition is in the body of a `for` or of a handler, and the occurrence is not. -/
  | apart {node part : Node} (hnode : script.Contains node) (hbody : part ∈ node.form.sheltered)
    (hpart : part.Contains definition)
    (houtside : ∀ other ∈ node.form.sheltered, ¬ other.Contains occurrence)
  /-- The definition is itself a `for` or a block with handlers, in which the name has its meaning only in
  bodies in which the occurrence is not. -/
  | passing (hname : name ∈ definition.form.inside)
    (houtside : ∀ other ∈ definition.form.sheltered, ¬ other.Contains occurrence)

/-- What a part contains the node contains. -/
theorem contains_part (hpart : part ∈ node.form.order) (h : part.Contains other) :
    node.Contains other :=
  .head (Form.mem_order_iff.mp hpart) h

/-- What holds of all of a node holds of what it contains. -/
theorem All.of_contains (h : node.All good) (hin : node.Contains other) : other.All good := by
  induction hin with
  | refl => exact h
  | tail _ hpart ih => exact ih.inside _ hpart

/-- A node that spans another contains it. -/
theorem Spans.contains (h : node.Spans other) : node.Contains other :=
  Relation.ReflTransGen.mono (fun _ _ hpart => List.mem_append_left _ hpart) _ _ h

/-- What stands beside an occurrence is contained in the node around both. -/
theorem Beside.contains (h : occurrence.Beside node other) : node.Contains other :=
  Relation.ReflTransGen.mono
    (fun _ _ hpart => List.mem_append.mpr (Or.imp_right And.left hpart)) _ _ h

/-- Where the occurrence is not, no frame is entered for it. -/
theorem Beside.spans (h : occurrence.Beside node other) (hout : ¬ node.Contains occurrence) :
    node.Spans other := by
  induction h with
  | refl => exact .refl
  | @tail inner part hinner hstep ih =>
    refine ih.tail (hstep.resolve_right ?_)
    rintro ⟨-, other, hother, hoccurrence⟩
    exact hout ((Beside.contains hinner).trans (.head (List.mem_append_right _ hother) hoccurrence))

/-- What is late in a part of a script is late in the script. -/
theorem Late.of_contains (h : occurrence.Late name part definition) (hpart : script.Contains part) :
    occurrence.Late name script definition := by
  cases h with
  | around h => exact .around h
  | behind hnode hahead horder hpart' hlater =>
    exact .behind (hpart.trans hnode) hahead horder hpart' hlater
  | filter hnode hfilter hother hbody hpart' =>
    exact .filter (hpart.trans hnode) hfilter hother hbody hpart'
  | apart hnode hbody hpart' houtside => exact .apart (hpart.trans hnode) hbody hpart' houtside
  | passing hname houtside => exact .passing hname houtside

/-! ## No definition is counted at an occurrence that is not known -/

/-- A definition in a part without the occurrence, of which nothing is known behind the part. -/
theorem Spans.late (h : node.Spans definition) (hall : node.All good)
    (hbind : (.define, name) ∈ definition.form.uses) (hout : ¬ node.Contains occurrence)
    (hnew : name ∉ node.counted) : occurrence.Late name node definition := by
  induction h using Relation.ReflTransGen.head_induction_on with
  | refl =>
    have hinside := (Form.defines_of_uses hbind).resolve_left fun h => hnew (hall.mem_counted_iff.mpr (.inl h))
    refine .passing hinside fun other hother hoccurrence => hout (contains_part ?_ hoccurrence)
    exact List.mem_append_right _ (List.mem_append_left _ hother)
  | @head node part hpart hrest ih =>
    have horder : part ∈ node.form.order := Form.mem_order_iff.mpr (List.mem_append_left _ hpart)
    have hwithin : ¬ part.Contains occurrence := fun h => hout (contains_part horder h)
    have hlate : name ∉ part.counted → occurrence.Late name node definition := fun hcounted =>
      (ih (hall.here hpart) hwithin hcounted).of_contains (contains_part horder .refl)
    rcases Form.mem_here_iff.mp hpart with hfirst | hfilter | hsheltered
    · exact hlate fun h => hnew (hall.mem_counted_iff.mpr
        (.inr (.inr (List.mem_flatMap.mpr ⟨part, hfirst, h⟩))))
    · exact hlate fun h => hnew (hall.mem_counted_iff.mpr
        (.inr (.inl (List.mem_flatMap.mpr ⟨part, hfilter, h⟩))))
    · refine .apart .refl hsheltered (Spans.contains hrest) fun other hother hoccurrence => ?_
      exact hout (contains_part (List.mem_append_right _ (List.mem_append_left _ hother)) hoccurrence)

/-- The analysis meets whatever stands in a tree. -/
theorem Contains.metIn (h : node.Contains occurrence) : ∃ known, occurrence.MetIn node known := by
  induction h using Relation.ReflTransGen.head_induction_on with
  | refl => exact ⟨_, .own⟩
  | head hpart _ ih =>
    obtain ⟨known, hmet⟩ := ih
    have horder := Form.mem_order_iff.mpr hpart
    simp only [Form.order, List.mem_append] at horder
    rcases horder with (hfirst | hfilter) | henclosed
    · obtain ⟨before, after, heq⟩ := List.append_of_mem hfirst
      exact ⟨_, .first heq hmet⟩
    · obtain ⟨before, after, heq⟩ := List.append_of_mem hfilter
      exact ⟨_, .filter heq hmet⟩
    · obtain ⟨before, after, heq⟩ := List.append_of_mem henclosed
      exact ⟨_, .enclosed heq hmet⟩

/-- What is known where the occurrence is met in a part of a tree is known of it in the tree. -/
theorem MetIn.of_part (h : occurrence.MetIn part known) (hpart : part ∈ node.form.order) :
    ∃ more, occurrence.MetIn node (known ++ more ++ node.form.ahead) := by
  simp only [Form.order, List.mem_append] at hpart
  rcases hpart with (hfirst | hfilter) | henclosed
  · obtain ⟨before, after, heq⟩ := List.append_of_mem hfirst
    exact ⟨_, .first heq h⟩
  · obtain ⟨before, after, heq⟩ := List.append_of_mem hfilter
    refine ⟨before.flatMap counted ++ node.form.first.flatMap counted, ?_⟩
    simpa only [List.append_assoc] using MetIn.filter heq h
  · obtain ⟨before, after, heq⟩ := List.append_of_mem henclosed
    refine ⟨before.flatMap counted ++ node.form.inside ++ node.form.first.flatMap counted, ?_⟩
    simpa only [List.append_assoc] using MetIn.enclosed heq h

namespace Unknown

/-- An occurrence that is unknown in a node is unknown in the part in which it stands, -/
theorem of_part (h : occurrence.Unknown name node) (hpart : part ∈ node.form.order)
    (hstands : part.Contains occurrence) : occurrence.Unknown name part := by
  refine ⟨hstands, fun known hmet hname => ?_⟩
  obtain ⟨more, hmet⟩ := hmet.of_part hpart
  exact h.unknown _ hmet (by simp [hname])

/-- and so in every node around it. -/
theorem of_contains (h : occurrence.Unknown name script) (hnode : script.Contains node)
    (hstands : node.Contains occurrence) : occurrence.Unknown name node := by
  induction hnode using Relation.ReflTransGen.head_induction_on with
  | refl => exact h
  | head hpart hrest ih => exact ih (h.of_part (Form.mem_order_iff.mpr hpart) (hrest.trans hstands))

/-- No statement of a block around the occurrence defines the name. -/
theorem not_mem_ahead (h : occurrence.Unknown name node) (hpart : part ∈ node.form.order)
    (hstands : part.Contains occurrence) : name ∉ node.form.ahead := by
  obtain ⟨known, hmet⟩ := hstands.metIn
  obtain ⟨more, hmet⟩ := hmet.of_part hpart
  exact fun hname => h.unknown _ hmet (List.mem_append_right _ hname)

/-- Nothing is counted that is gone through before the part in which the occurrence stands. -/
theorem not_counted_first (h : occurrence.Unknown name node) {before after : List Node}
    (heq : node.form.first = before ++ part :: after) (hstands : part.Contains occurrence) :
    name ∉ before.flatMap counted := by
  obtain ⟨known, hmet⟩ := hstands.metIn
  exact fun hname => h.unknown _ (.first heq hmet) (by simp only [List.mem_append]; tauto)

/-- Before the filter in which it stands the name has not been counted, -/
theorem not_counted_filter (h : occurrence.Unknown name node) {before after : List Node}
    (heq : node.form.filters = before ++ part :: after) (hstands : part.Contains occurrence) :
    name ∉ before.flatMap counted ∧ name ∉ node.form.first.flatMap counted := by
  obtain ⟨known, hmet⟩ := hstands.metIn
  have hnew := h.unknown _ (.filter heq hmet)
  simp only [List.mem_append] at hnew
  tauto

/-- nor before the enclosed part in which it stands. -/
theorem not_counted_enclosed (h : occurrence.Unknown name node) {before after : List Node}
    (heq : node.form.enclosed = before ++ part :: after) (hstands : part.Contains occurrence) :
    name ∉ before.flatMap counted ∧ name ∉ node.form.inside ∧
      name ∉ node.form.first.flatMap counted := by
  obtain ⟨known, hmet⟩ := hstands.metIn
  have hnew := h.unknown _ (.enclosed heq hmet)
  simp only [List.mem_append] at hnew
  tauto

/-- No function and no comprehension around the occurrence binds the name. -/
theorem not_mem_binders (h : occurrence.Unknown name script) (hnode : script.Contains node)
    (hother : other ∈ node.form.within) (hstands : other.Contains occurrence) :
    name ∉ node.form.binders := by
  have hnodes := h.of_contains hnode (.head (List.mem_append_right _ hother) hstands)
  have henclosed : other ∈ node.form.enclosed :=
    List.mem_append_right _ (Form.mem_within_iff.mp hother)
  obtain ⟨before, after, heq⟩ := List.append_of_mem henclosed
  rw [← (Form.inside_of_mem_within hother).1]
  exact (hnodes.not_counted_enclosed heq hstands).2.1

end Unknown

/-- Of two nodes one comes before the other. -/
theorem sublist_or_mem_before {nodes : List Node} (hpart : part ∈ nodes) (hother : other ∈ nodes)
    (hne : part ≠ other) :
    [other, part].Sublist nodes ∨
      ∃ before after, nodes = before ++ other :: after ∧ part ∈ before := by
  obtain ⟨before, after, rfl⟩ := List.append_of_mem hother
  rcases List.mem_append.mp hpart with hbefore | hafter
  · exact .inr ⟨before, after, rfl, hbefore⟩
  · have hbehind : part ∈ after := (List.mem_cons.mp hafter).resolve_left hne
    exact .inl (.trans (.cons_cons other (List.singleton_sublist.mpr hbehind))
      (List.sublist_append_right ..))

/-- **Definitions that are not counted are late.** At an occurrence that the analysis always meets without
knowing the name, every definition of the name in the frames of the scopes around is late. -/
theorem Unknown.late (hall : script.All good) (h : occurrence.Unknown name script)
    (hleaf : occurrence.form.order = []) (hdefinition : occurrence.Beside script definition)
    (hbind : (.define, name) ∈ definition.form.uses) : occurrence.Late name script definition := by
  induction hall with
  | @mk node _ hinside ih =>
    rcases hdefinition.cases_head with rfl | ⟨part, hstep, hrest⟩
    · exact .around h.stands
    have hpart : part ∈ node.form.here ++ node.form.within :=
      List.mem_append.mpr (hstep.imp_right And.left)
    have horder := Form.mem_order_iff.mpr hpart
    by_cases hin : part.Contains occurrence
    · exact (ih part hpart (h.of_part horder hin) hrest).of_contains (contains_part horder .refl)
    -- the definition and the occurrence are in different parts of the node
    obtain ⟨other, hother, hstands⟩ : ∃ other ∈ node.form.order, other.Contains occurrence := by
      rcases h.stands.cases_head with rfl | ⟨other, hother, hstands⟩
      · rw [hleaf] at horder
        cases horder
      · exact ⟨other, Form.mem_order_iff.mpr hother, hstands⟩
    have hne : part ≠ other := fun heq => hin (heq ▸ hstands)
    have hcontains : part.Contains definition := Beside.contains hrest
    have hahead := h.not_mem_ahead hother hstands
    have hlate : name ∉ part.counted → occurrence.Late name node definition := fun hnew =>
      ((Beside.spans hrest hin).late (hinside part hpart) hbind hin hnew).of_contains
        (contains_part horder .refl)
    have hbehind : [other, part].Sublist node.form.order → occurrence.Late name node definition :=
      fun hsub => .behind .refl hahead hsub hstands hcontains
    have hsame : ∀ {nodes : List Node}, part ∈ nodes → other ∈ nodes → nodes.Sublist node.form.order →
        (∀ before after, nodes = before ++ other :: after → name ∉ before.flatMap counted) →
          occurrence.Late name node definition := by
      intro nodes hpart hother hnodes hbefore
      rcases sublist_or_mem_before hpart hother hne with hsub | ⟨before, after, heq, hpart⟩
      · exact hbehind (hsub.trans hnodes)
      · exact hlate fun hcounted => hbefore before after heq (List.mem_flatMap.mpr ⟨part, hpart, hcounted⟩)
    have hearlier : part ∈ node.form.first → name ∉ node.form.first.flatMap counted →
        occurrence.Late name node definition := fun hpart hfirst =>
      hlate fun hcounted => hfirst (List.mem_flatMap.mpr ⟨part, hpart, hcounted⟩)
    have hpair : ∀ {first second : List Node}, other ∈ first → part ∈ second →
        [other, part].Sublist (first ++ second) := fun hfirst hsecond =>
      (List.singleton_sublist.mpr hfirst).append (List.singleton_sublist.mpr hsecond)
    have hfilters : (node.form.first ++ node.form.filters).Sublist node.form.order :=
      List.sublist_append_left ..
    simp only [Form.order, List.mem_append] at horder hother
    rcases horder with (hpart | hpart) | hpart <;> rcases hother with (hother | hother) | hother
    -- the definition in a first node
    · exact hsame hpart hother ((List.sublist_append_left ..).trans hfilters) fun _ _ heq =>
        h.not_counted_first heq hstands
    · obtain ⟨before, after, heq⟩ := List.append_of_mem hother
      exact hearlier hpart (h.not_counted_filter heq hstands).2
    · obtain ⟨before, after, heq⟩ := List.append_of_mem hother
      exact hearlier hpart (h.not_counted_enclosed heq hstands).2.2
    -- the definition in a filter
    · exact hbehind ((hpair hother hpart).trans hfilters)
    · exact hsame hpart hother ((List.sublist_append_right ..).trans hfilters) fun _ _ heq =>
        (h.not_counted_filter heq hstands).1
    · rcases List.mem_append.mp hother with hsheltered | hfenced
      · exact .filter .refl hpart hcontains hsheltered hstands
      · rw [(Form.inside_of_mem_within (Form.mem_within_iff.mpr hfenced)).2.1] at hpart
        cases hpart
    -- the definition in a node that the form has forgotten behind it
    · exact hbehind (hpair (List.mem_append_left _ hother) hpart)
    · exact hbehind (hpair (List.mem_append_right _ hother) hpart)
    · exact hsame hpart hother (List.sublist_append_right ..) fun _ _ heq =>
        (h.not_counted_enclosed heq hstands).1

/-! ## Checks -/

/-- Nodes that are gone through one after the other, each with the names that are known there. -/
def inTurn : List String → List Node → List (List String × Node)
  | _, [] => []
  | known, node :: nodes => (known, node) :: inTurn (node.counted ++ known) nodes

/-- Each node in turn comes with the names that are known when its turn comes. -/
theorem exists_mem_inTurn (known : List String) (before : List Node) (part : Node) (after : List Node) :
    ∃ names, (names, part) ∈ inTurn known (before ++ part :: after) ∧
      before.flatMap counted ++ known ⊆ names := by
  induction before generalizing known with
  | nil => exact ⟨known, List.mem_cons_self, List.Subset.refl _⟩
  | cons node before ih =>
    obtain ⟨names, hmem, hsub⟩ := ih (node.counted ++ known)
    refine ⟨names, List.mem_cons_of_mem _ hmem, List.Subset.trans (fun name hname => ?_) hsub⟩
    simp only [List.flatMap_cons, List.mem_append] at hname ⊢
    tauto

/-- The parts of a node, each with the names that are known there. -/
def views (node : Node) : List (List String × Node) :=
  inTurn node.form.ahead node.form.first ++
    inTurn (node.form.first.flatMap counted ++ node.form.ahead) node.form.filters ++
    inTurn (node.form.inside ++ node.form.first.flatMap counted ++ node.form.ahead) node.form.enclosed

/-- The names that are known wherever the analysis meets one of the nodes for which it tests, in a tree that is
not deeper than the bound. -/
def knownUpTo (test : Node → Bool) : (bound : Nat) → Node → List (List String)
  | 0, _ => []
  | bound + 1, node =>
    (if test node then [node.form.first.flatMap counted] else []) ++
      node.views.flatMap fun (names, part) => (knownUpTo test bound part).map (· ++ names)

/-- An occurrence that is met is met by the search with a bound, if the node is not deeper. -/
theorem MetIn.exists_knownUpTo {test : Node → Bool} {bound : Nat} (h : occurrence.MetIn node known)
    (htest : test occurrence = true) (hdeep : node.allUpTo (fun _ => true) bound = true) :
    ∃ names ∈ node.knownUpTo test bound, known ⊆ names := by
  induction bound generalizing node known with
  | zero => cases hdeep
  | succ bound ih =>
    have hinside := List.all_eq_true.mp (Bool.and_eq_true_iff.mp hdeep).2
    have hview : ∀ {base nodes before part after known'}, nodes = before ++ part :: after →
        (∀ view ∈ inTurn base nodes, view ∈ node.views) → (∀ other ∈ nodes, other ∈ node.form.order) →
        occurrence.MetIn part known' → known ⊆ known' ++ (before.flatMap counted ++ base) →
          ∃ all ∈ node.knownUpTo test (bound + 1), known ⊆ all := by
      rintro base _ before part after known' rfl hviews horder hmet hknown
      obtain ⟨names, hmem, hsub⟩ := exists_mem_inTurn base before part after
      obtain ⟨inner, hinner, hin⟩ := ih hmet
        (hinside part (Form.mem_order_iff.mp (horder part (by simp))))
      refine ⟨inner ++ names, List.mem_append_right _ (List.mem_flatMap.mpr
        ⟨_, hviews _ hmem, List.mem_map_of_mem hinner⟩), List.Subset.trans hknown ?_⟩
      exact List.append_subset.mpr ⟨List.subset_append_of_subset_left _ hin,
        List.subset_append_of_subset_right _ hsub⟩
    cases h with
    | own =>
      refine ⟨_, List.mem_append_left _ ?_, List.Subset.refl _⟩
      rw [if_pos htest]
      exact List.mem_singleton.mpr rfl
    | first heq hmet =>
      exact hview heq (fun _ h => List.mem_append_left _ (List.mem_append_left _ h))
        (fun _ h => List.mem_append_left _ (List.mem_append_left _ h)) hmet (by simp)
    | filter heq hmet =>
      exact hview heq (fun _ h => List.mem_append_left _ (List.mem_append_right _ h))
        (fun _ h => List.mem_append_left _ (List.mem_append_right _ h)) hmet (by simp)
    | enclosed heq hmet =>
      exact hview heq (fun _ h => List.mem_append_right _ h) (fun _ h => List.mem_append_right _ h) hmet
        (by simp)

/-- Whether the node is the name at the place. -/
def isNameAt (place : Position) (name : String) : Node → Bool
  | .mk other (.name word) => other == place && word == name
  | _ => false

/-- Whether an occurrence of a name is unknown can be computed. -/
theorem unknown_of_upTo {place : Position} {bound : Nat}
    (hstands : script.Contains (.mk place (.name name)))
    (hdeep : script.allUpTo (fun _ => true) bound = true)
    (hknown : (script.knownUpTo (isNameAt place name) bound).all (fun names => !names.contains name) =
      true) : (Node.mk place (.name name)).Unknown name script := by
  refine ⟨hstands, fun known hmet hname => ?_⟩
  have htest : isNameAt place name (.mk place (.name name)) = true := by simp [isNameAt]
  obtain ⟨names, hmem, hsub⟩ := hmet.exists_knownUpTo htest hdeep
  have hnot := List.all_eq_true.mp hknown names hmem
  simp only [Bool.not_eq_true', List.contains_eq_mem, decide_eq_false_iff_not] at hnot
  exact hnot (hsub hname)

end Node

end Ckl.Source
