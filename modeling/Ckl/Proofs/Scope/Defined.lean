import Ckl.Proofs.Run.Realm.Call
import Ckl.Proofs.Scope.Needs
import Ckl.Proofs.Scope.Reach

/-!
# Pure trees find their names

While a pure tree is evaluated, names are bound but never removed. So a name that is needed and defined in
the beginning is found wherever it is looked up: a closure whose body needs it is only made in a frame where
it has a meaning. What has a meaning, keeps it while the store grows, and this is the order of the worlds of
`provision`, the realm for one name.
-/

namespace Ckl

open Source (Position Node Form Lambda Parameter)

/-- A name has a value if it is bound. -/
theorem Bindings.isSome_get?_iff {α : Type} {bindings : Bindings α} {name : String} :
    (bindings.get? name).isSome = true ↔ name ∈ bindings.names := by
  rw [← binds_iff, get?, Option.isSome_map, List.find?_isSome, binds, List.any_eq_true]

namespace Store

variable {store after start : Store} {roots : FrameRef → Prop} {name : String} {ref : FrameRef}

/-- The name has a meaning in the frame. -/
def Meets (store : Store) (ref : FrameRef) (name : String) : Prop :=
  ∃ around ∈ store.chain ref, name ∈ (store.frame around).bindings.names

/-- A lookup succeeds in the frames that meet the name, -/
theorem isSome_lookup?_iff : (store.lookup? ref name).isSome = true ↔ store.Meets ref name := by
  rw [lookup?, List.findSome?_isSome_iff]
  simp only [getLocal?, Bindings.isSome_get?_iff, Meets]

/-- and so does the search for its owner. -/
theorem isSome_owner?_iff : (store.owner? ref name).isSome = true ↔ store.Meets ref name := by
  rw [owner?, List.find?_isSome]
  simp only [Bindings.binds_iff, Meets]

/-- A frame meets the names that it binds. -/
theorem meets_of_local (h : name ∈ (store.frame ref).bindings.names) : store.Meets ref name :=
  ⟨ref, List.mem_cons_self, h⟩

/-! ## Meanings are kept -/

/-- Frames that exist stay where they are and bind the names that they did bind. -/
structure Widens (store after : Store) : Prop where
  grows : store.frames.size ≤ after.frames.size
  outer : ∀ ref : FrameRef, ref.index < store.frames.size →
    (after.frame ref).outer = (store.frame ref).outer
  names : ∀ ref : FrameRef, ref.index < store.frames.size →
    (store.frame ref).bindings.names ⊆ (after.frame ref).bindings.names

/-- A store is as wide as itself. -/
theorem Widens.refl (store : Store) : store.Widens store :=
  ⟨le_rfl, fun _ _ => rfl, fun _ _ => List.Subset.refl _⟩

/-- Stores go on to widen. -/
theorem Widens.trans {middle : Store} (h : store.Widens middle) (hafter : middle.Widens after) :
    store.Widens after where
  grows := h.grows.trans hafter.grows
  outer ref hexists := (hafter.outer ref (hexists.trans_le h.grows)).trans (h.outer ref hexists)
  names ref hexists := fun _ hname =>
    hafter.names ref (hexists.trans_le h.grows) (h.names ref hexists hname)

/-- Frames that meet a name exist. -/
theorem Meets.exists (h : store.Meets ref name) : ref.index < store.frames.size := by
  refine Nat.lt_of_not_le fun hge => ?_
  obtain ⟨around, haround, hname⟩ := h
  rw [chain, frame_eq_default hge] at haround
  cases List.mem_singleton.mp haround
  rw [frame_eq_default hge] at hname
  cases hname

/-- A name that is met is met later. -/
theorem Meets.later (h : store.Meets ref name) (hwidens : store.Widens after) : after.Meets ref name := by
  have hexists := h.exists
  obtain ⟨around, haround, hname⟩ := h
  exact ⟨around, by rwa [chain, hwidens.outer ref hexists],
    hwidens.names around (meets_of_local hname).exists hname⟩

/-- The same frames are as wide. -/
theorem widens_of_frames (h : after.frames = store.frames) : store.Widens after where
  grows := (congrArg Array.size h).ge
  outer ref _ := by rw [frame_of_frames h]
  names ref _ := by rw [frame_of_frames h]; exact List.Subset.refl _

/-- A definition adds a name or keeps it. -/
theorem widens_define (frame : FrameRef) (name : String) (value : Value) :
    store.Widens (store.define frame name value) where
  grows := (size_changeBindings frame _).ge
  outer ref hexists := by
    unfold define
    by_cases heq : ref = frame
    · subst heq
      rw [frame_changeBindings hexists]
    · rw [frame_changeBindings_of_ne heq]
  names ref hexists := by
    unfold define
    by_cases heq : ref = frame
    · subst heq
      rw [frame_changeBindings hexists]
      exact fun other hother => Bindings.mem_names_put.mpr (.inl hother)
    · rw [frame_changeBindings_of_ne heq]
      exact List.Subset.refl _

/-- A new frame is added to those that exist. -/
theorem widens_enter (frame : FrameRef) (bindings : Bindings Value) :
    store.Widens (store.enter frame bindings).2 where
  grows := by simp
  outer ref hexists := by rw [frame_enter_of_lt hexists]
  names ref hexists := by rw [frame_enter_of_lt hexists]; exact List.Subset.refl _

/-- It is inside of the frame from which it is entered. -/
theorem frame_enter_new (frame : FrameRef) (bindings : Bindings Value) :
    (store.enter frame bindings).2.frame (store.enter frame bindings).1 =
      { outer := store.chain frame, bindings } := by
  simp only [Store.frame, enter, placeFrame, Array.getElem?_push_size, Option.getD_some]

/-- What has a meaning around a new frame, has it in the frame. -/
theorem Meets.enter (h : store.Meets ref name) (bindings : Bindings Value) :
    (store.enter ref bindings).2.Meets (store.enter ref bindings).1 name := by
  obtain ⟨around, haround, hname⟩ := h
  refine ⟨around, ?_, (widens_enter ref bindings).names around (meets_of_local hname).exists hname⟩
  rw [chain, frame_enter_new]
  exact List.mem_cons_of_mem _ haround

/-- It exists. -/
theorem enter_exists (frame : FrameRef) (bindings : Bindings Value) :
    (store.enter frame bindings).1.index < (store.enter frame bindings).2.frames.size := by
  simp

/-- Names with which it is entered are met in it. -/
theorem meets_enter_of_mem {bindings : Bindings Value} (h : name ∈ bindings.names) :
    (store.enter ref bindings).2.Meets (store.enter ref bindings).1 name :=
  meets_of_local (by rwa [frame_enter_new])

/-- A name is met in a frame that has defined it. -/
theorem meets_define (hexists : ref.index < store.frames.size) (value : Value) :
    (store.define ref name value).Meets ref name := by
  refine meets_of_local ?_
  rw [define, frame_changeBindings hexists]
  exact Bindings.mem_names_put.mpr (.inr rfl)

/-! ## Worlds -/

/-- What the function needs has a meaning where it was made. Functions are those of scripts and built-in
ones, except for `eval`. -/
def Serves (start : Store) (roots : FrameRef → Prop) (name : String) (store : Store) : Function → Prop
  | .builtin builtin => builtin ≠ .eval
  | .host _ => False
  | .lambda definition made =>
    start.regionOf roots (.frame made) ∧ (∀ part ∈ (Form.function definition).within, part.Pure) ∧
      (∀ position, (Node.mk position (.function definition)).Needs name → store.Meets made name) ∧
        ((.look, name) ∈ callUses → store.Meets made name)

/-- A function that serves goes on to serve. -/
theorem Serves.later {function : Function} (h : start.Serves roots name store function)
    (hwidens : store.Widens after) : start.Serves roots name after function := by
  match function, h with
  | .builtin _, h => exact h
  | .lambda _ _, ⟨hmade, hpure, hneeds, hcalls⟩ =>
    exact ⟨hmade, hpure, fun position hneeded => (hneeds position hneeded).later hwidens,
      fun hcall => (hcalls hcall).later hwidens⟩

/-- Nothing leads out of the region, and all functions in it are served. -/
structure Provided (start : Store) (roots : FrameRef → Prop) (name : String) (store : Store) : Prop where
  confined : start.Confined (start.regionOf roots) store
  functions : ∀ ref, start.regionOf roots (.function ref) → start.Serves roots name store (store.function ref)

/-- A store stays provided when only frames are changed, within the region and without a loss of names. -/
theorem Provided.step (h : start.Provided roots name store)
    (hconfined : start.Confined (start.regionOf roots) after) (hwidens : store.Widens after)
    (hfunctions : after.functions = store.functions) : start.Provided roots name after where
  confined := hconfined
  functions ref href := by
    rw [function, hfunctions]
    exact (h.functions ref href).later hwidens

end Store

open Store (Among)

/-- The realm of pure trees that find a name. -/
def provision (start : Store) (roots : FrameRef → Prop) (name : String) : Realm where
  World := { store : Store // start.Provided roots name store }
  order := {
    le := fun w w' => w.1.Widens w'.1
    le_refl := fun w => .refl w.1
    le_trans := fun _ _ _ => .trans }
  store := Subtype.val
  keeps _ container := start.regionOf roots (.container container)
  calls _ ref := start.regionOf roots (.function ref)
  runs w function := start.Serves roots name w.1 function
  permits w frame use other := start.regionOf roots (.frame frame) ∧
    match use with
    | .look | .assign => other = name → w.1.Meets frame name
    | .peek => True
    | .define | .remove => False
  allows w node frame := start.regionOf roots (.frame frame) ∧ node.Pure ∧
    (node.Needs name → w.1.Meets frame name) ∧
      ((.look, name) ∈ callUses → w.1.Meets frame name)
  gathers w parts frame := start.regionOf roots (.frame frame) ∧ frame.index < w.1.frames.size ∧
    ∀ part ∈ parts.inner, part.Pure ∧
      (part.Needs name → name = parts.binder ∨ w.1.Meets frame name) ∧
        ((.look, name) ∈ callUses → w.1.Meets frame name)
  awaits w definition parameters frame := start.regionOf roots (.frame frame) ∧
    frame.index < w.1.frames.size ∧ (∀ part ∈ (Form.function definition).within, part.Pure) ∧
      ((∃ position, (Node.mk position (.function definition)).Needs name) ∨
        (.look, name) ∈ callUses ∨ name ∈ definition.rest → w.1.Meets frame name) ∧
          ∃ before, definition.parameters = before ++ parameters ∧
            (name ∈ before.map (·.name) → w.1.Meets frame name)
  misses other := other ≠ name

namespace provision

variable {start : Store} {roots : FrameRef → Prop} {name : String}
  {w w' : (provision start roots name).World}

/-- The realm has the values of the region. -/
theorem has_iff {value : Value} :
    (provision start roots name).has w value ↔ Among (start.regionOf roots) value :=
  Realm.has_iff_among (fun _ => Iff.rfl) (fun _ => Iff.rfl) value

theorem all_among {values : List Value} (h : ∀ value ∈ values, (provision start roots name).has w value) :
    ∀ value ∈ values, Among (start.regionOf roots) value :=
  fun value hvalue => has_iff.mp (h value hvalue)

/-- A change of frames leads to a later world, if it is confined to the region. -/
theorem later_frames (w : (provision start roots name).World) {after : Store}
    (hconfined : start.Confined (start.regionOf roots) after)
    (hframes : after.frames = w.1.frames) (hfunctions : after.functions = w.1.functions) :
    ∃ w', w ≤ w' ∧ w'.1 = after :=
  have hwidens := Store.widens_of_frames hframes
  ⟨⟨after, w.2.step hconfined hwidens hfunctions⟩, hwidens, rfl⟩

/-- A name is bound. -/
theorem later_define (w : (provision start roots name).World) (frame : FrameRef)
    (other : String) {value : Value}
    (hvalue : (provision start roots name).has w value) :
    ∃ w', w ≤ w' ∧ w'.1 = w.1.define frame other value :=
  have hwidens := Store.widens_define frame other value
  ⟨⟨_, w.2.step (w.2.confined.define (has_iff.mp hvalue)) hwidens rfl⟩, hwidens, rfl⟩

/-- A frame is entered. -/
theorem later_enter (w : (provision start roots name).World) {frame : FrameRef}
    (hframe : start.regionOf roots (.frame frame)) {bindings : Bindings Value}
    (hbindings : ∀ value ∈ bindings.values, (provision start roots name).has w value) :
    ∃ w', w ≤ w' ∧ w'.1 = (w.1.enter frame bindings).2 :=
  have hwidens := Store.widens_enter frame bindings
  ⟨⟨_, w.2.step (w.2.confined.enter hframe (all_among hbindings)) hwidens rfl⟩, hwidens, rfl⟩

/-- The provision is a realm: nothing that pure nodes do takes away a name. -/
theorem lawful : (provision start roots name).Lawful where
  keeps_later _ h := h
  calls_later _ h := h
  runs_later hle h := h.later hle
  permits_later {w w' frame use other} hle h := by
    refine ⟨h.1, ?_⟩
    cases use with
    | look => exact fun heq => (h.2 heq).later hle
    | assign => exact fun heq => (h.2 heq).later hle
    | peek => trivial
    | define => exact h.2
    | remove => exact h.2
  allows_later hle h := ⟨h.1, h.2.1, fun hneeds => (h.2.2.1 hneeds).later hle,
    fun hcall => (h.2.2.2 hcall).later hle⟩
  gathers_later hle h := ⟨h.1, h.2.1.trans_le hle.grows, fun part hpart =>
    ⟨(h.2.2 part hpart).1, fun hneeds => ((h.2.2 part hpart).2.1 hneeds).imp_right (·.later hle),
      fun hcall => ((h.2.2 part hpart).2.2 hcall).later hle⟩⟩
  awaits_later hle h := by
    obtain ⟨hframe, hexists, hpure, hneeds, before, hsplit, hbound⟩ := h
    exact ⟨hframe, hexists.trans_le hle.grows, hpure, fun hneeded => (hneeds hneeded).later hle, before,
      hsplit, fun hname => (hbound hname).later hle⟩
  has_part {w _} hkeeps part hpart := has_iff.mpr (w.2.confined.part hkeeps part hpart)
  runs_function {w ref} hcalls := w.2.functions ref hcalls
  allows_part hallows part hpart := ⟨hallows.1, hallows.2.1.here hpart,
    fun hneeds => hallows.2.2.1 (.here hpart hneeds), hallows.2.2.2⟩
  permits_use {w node frame} hallows _ use huse := by
    obtain ⟨hframe, hpure, hneeds, hcall⟩ := hallows
    have hown := hpure.own
    -- a reference to the name is what the node needs, so the frame meets it
    have hrefer : ∀ other ∈ node.form.refers, other = name → w.1.Meets frame name :=
      fun other hother heq => hneeds (.refer (heq ▸ hother))
    have hcalls : ∀ use ∈ callUses, (provision start roots name).permits w frame use.1 use.2 := by
      intro use huse
      obtain ⟨kind, other⟩ := use
      cases kind with
      | look => exact ⟨hframe, fun heq => hcall (heq ▸ huse)⟩
      | peek => exact ⟨hframe, trivial⟩
      | _ => simp [callUses] at huse
    obtain ⟨position, form⟩ := node
    cases form with
    | name word =>
      cases List.mem_singleton.mp huse
      exact ⟨hframe, hrefer word (List.mem_singleton.mpr rfl)⟩
    | assign word =>
      cases List.mem_singleton.mp huse
      exact ⟨hframe, hrefer word (List.mem_singleton.mpr rfl)⟩
    | assignAll words =>
      obtain ⟨word, hword, rfl⟩ := List.mem_map.mp huse
      exact ⟨hframe, hrefer word hword⟩
    | call | invoke => exact hcalls use huse
    | define | defineAll | loop => cases hown
    | block body handlers cleanup =>
      have hnone : handlers.isEmpty = true := hown
      have huse : use ∈ if handlers.isEmpty then [] else temporaryUses Source.lastErrorName := huse
      rw [if_pos hnone] at huse
      cases huse
    | _ => cases huse
  permits_import hallows := by cases hallows.2.1.own
  has_peeked {w _ _ _} hpermits hvalue := has_iff.mpr (w.2.confined.lookup? hpermits.1 hvalue)
  has_looked {w _ _ _} hpermits hvalue := has_iff.mpr (w.2.confined.lookup? hpermits.1 hvalue)
  misses_looked {w frame other} hpermits hnone heq := by
    have hfound := Store.isSome_lookup?_iff.mpr (hpermits.2 heq)
    rw [heq] at hnone
    rw [show w.1.lookup? frame name = none from hnone] at hfound
    cases hfound
  assigns _ hvalue _ := later_define _ _ _ hvalue
  misses_assigned {w frame other} hpermits hnone heq := by
    have hfound := Store.isSome_owner?_iff.mpr (hpermits.2 heq)
    rw [heq] at hnone
    rw [show w.1.owner? frame name = none from hnone] at hfound
    cases hfound
  defines hpermits := hpermits.2.elim
  removes hpermits := hpermits.2.elim
  aside {w _} hsame := later_frames w (w.2.confined.aside hsame) hsame.frames hsame.functions
  places {w fresh} hparts := by
    obtain ⟨w', hle, hstore⟩ := later_frames w (w.2.confined.place (all_among hparts))
      (by cases fresh <;> rfl) (by cases fresh <;> rfl)
    exact ⟨w', hle, hstore, has_iff.mpr (w.2.confined.among_place (fun _ => .inl) (all_among hparts))⟩
  alters {w _ _ _} _ hadded halters :=
    later_frames w (w.2.confined.alters (all_among hadded) halters) halters.frames halters.functions
  makes {w position definition frame} hallows := by
    obtain ⟨hframe, hpure, hneeds, hcall⟩ := hallows
    have hwidens : w.1.Widens (w.1.placeFunction (.lambda definition frame)).2 := Store.widens_of_frames rfl
    have hserves : start.Serves roots name (w.1.placeFunction (.lambda definition frame)).2
        (.lambda definition frame) :=
      ⟨hframe, fun part hpart => hpure.within hpart,
        fun position hneeded => (hneeds (hneeded.of_form rfl)).later hwidens,
        fun hcalled => (hcall hcalled).later hwidens⟩
    refine ⟨⟨_, w.2.confined.placeFunction hframe, fun ref href => ?_⟩, hwidens, rfl,
      .inl w.2.confined.functions⟩
    simp only [Store.function, Store.placeFunction, Array.getElem?_push]
    split
    · exact hserves
    · exact (w.2.functions ref href).later hwidens
  enters_gathering {w position parts frame} hallows := by
    obtain ⟨hframe, hpure, hneeds, hcall⟩ := hallows
    have hempty : ∀ value ∈ (Bindings.empty : Bindings Value).values,
        (provision start roots name).has w value := fun _ hvalue => absurd hvalue List.not_mem_nil
    obtain ⟨w', hle, hstore⟩ := later_enter w hframe hempty
    have hmeets : w.1.Meets frame name → w'.1.Meets (w.1.enter frame Bindings.empty).1 name := by
      intro hmeets
      rw [hstore]
      exact hmeets.enter _
    refine ⟨w', hle, hstore, .inl w.2.confined.frames, ?_, fun part hpart => ?_⟩
    · rw [hstore]
      exact Store.enter_exists _ _
    have hinside : part ∈ (Node.mk position (.comprehension parts)).form.within := hpart
    refine ⟨hpure.within hinside, fun hneeded => ?_, fun hcalled => hmeets (hcall hcalled)⟩
    -- the binder hides the name; it is met only once an item has been bound
    by_cases hnew : name = parts.binder
    · exact .inl hnew
    · exact .inr (hmeets (hneeds (.within hinside
        (by simpa [Form.binders, Node.form] using hnew) hneeded)))
  binds_item {w parts frame item} hgathers hitem := by
    obtain ⟨hframe, hexists, hinner⟩ := hgathers
    obtain ⟨w', hle, hstore⟩ := later_define w frame parts.binder hitem
    refine ⟨w', hle, hstore, fun part hpart => ?_⟩
    obtain ⟨hpure, hneeds, hcall⟩ := hinner part hpart
    refine ⟨hframe, hpure, fun hneeded => ?_, fun hcalled => (hcall hcalled).later hle⟩
    rcases hneeds hneeded with rfl | hmeets
    · rw [hstore]
      exact Store.meets_define hexists item
    · exact hmeets.later hle
  enters_call {w definition made bindings} hruns hbindings _ hrest := by
    obtain ⟨hframe, hpure, hneeds, hcall⟩ := hruns
    obtain ⟨w', hle, hstore⟩ := later_enter w hframe hbindings
    refine ⟨w', hle, hstore, .inl w.2.confined.frames, ?_, hpure, ?_, [], rfl, fun hname => by cases hname⟩
    · rw [hstore]
      exact Store.enter_exists _ _
    · rw [hstore]
      rintro (⟨position, hneeded⟩ | hcalled | hname)
      · exact (hneeds position hneeded).enter _
      · exact (hcall hcalled).enter _
      · exact Store.meets_enter_of_mem ((Bindings.binds_iff _ _).mp (hrest name hname))
  awaits_bound {w definition parameter parameters frame} hawaits hbound := by
    obtain ⟨hframe, hexists, hpure, hneeds, before, hsplit, hbefore⟩ := hawaits
    refine ⟨hframe, hexists, hpure, hneeds, before ++ [parameter], by simp [hsplit], fun hname => ?_⟩
    rw [List.map_append, List.mem_append] at hname
    rcases hname with hname | hname
    · exact hbefore hname
    · cases List.mem_singleton.mp hname
      exact Store.meets_of_local (Bindings.isSome_get?_iff.mp hbound)
  allows_fallback {w definition parameter parameters frame fallback} hawaits hfallback := by
    obtain ⟨hframe, _, hpure, hneeds, before, hsplit, hbefore⟩ := hawaits
    have hpart : fallback ∈ (Form.function definition).within := by
      refine List.mem_append_left _ (List.mem_filterMap.mpr ⟨parameter, ?_, hfallback⟩)
      rw [hsplit]
      exact List.mem_append_right _ List.mem_cons_self
    refine ⟨hframe, hpure fallback hpart, fun hneeded => ?_, fun hcalled => hneeds (.inr (.inl hcalled))⟩
    -- the name is bound already, it is the rest, it is bound too late, or it comes from outside
    by_cases hknown : name ∈ before.map (·.name)
    · exact hbefore hknown
    by_cases hrest : name ∈ definition.rest
    · exact hneeds (.inr (.inr hrest))
    refine hneeds (.inl ⟨default, ?_⟩)
    by_cases hlater : name ∈ (parameter :: parameters).map (·.name)
    · exact .early rfl ⟨before, parameter, parameters, hsplit, hfallback, hknown, hrest, hlater⟩ hneeded
    · have hinside : fallback ∈ (Node.mk default (.function definition)).form.within := hpart
      refine .within hinside ?_ hneeded
      simp only [Form.binders, Node.form, Lambda.names, hsplit, List.map_append, List.mem_append,
        Option.mem_toList]
      exact fun hmem => hmem.elim (fun h => h.elim hknown hlater) hrest
  binds_fallback {w definition parameter parameters frame value} hawaits hvalue := by
    obtain ⟨hframe, hexists, hpure, hneeds, before, hsplit, hbefore⟩ := hawaits
    obtain ⟨w', hle, hstore⟩ := later_define w frame parameter.name hvalue
    refine ⟨w', hle, hstore, hframe, hexists.trans_le hle.grows, hpure,
      fun hneeded => (hneeds hneeded).later hle, before ++ [parameter], by simp [hsplit], fun hname => ?_⟩
    rw [List.map_append, List.mem_append] at hname
    rcases hname with hname | hname
    · exact (hbefore hname).later hle
    · cases List.mem_singleton.mp hname
      rw [hstore]
      exact Store.meets_define hexists value
  allows_body {w definition frame} hawaits := by
    obtain ⟨hframe, hexists, hpure, hneeds, before, hsplit, hbefore⟩ := hawaits
    have hpart : definition.body ∈ (Form.function definition).within :=
      List.mem_append_right _ (List.mem_singleton.mpr rfl)
    refine ⟨hframe, hpure _ hpart, fun hneeded => ?_, fun hcalled => hneeds (.inr (.inl hcalled))⟩
    -- all parameters are bound when the body is evaluated
    by_cases hbound : name ∈ definition.names
    · simp only [Lambda.names, hsplit, List.append_nil, List.mem_append, Option.mem_toList] at hbound
      exact hbound.elim hbefore fun hrest => hneeds (.inr (.inr hrest))
    · have hinside : definition.body ∈ (Node.mk default (.function definition)).form.within := hpart
      exact hneeds (.inl ⟨default, .within hinside hbound hneeded⟩)
  enters_eval hruns := absurd rfl hruns
  hosts _ hruns := hruns.elim
  modules {_} [_] {_} _ {_ _ _ _ _} _ _ hallows := nomatch hallows.2.1.own

end provision

/-! ## Evaluation of pure trees -/

/-- The name that a failure is about, if something without a meaning was looked up. -/
def Failure.missed? : Failure → Option String
  | .diagnosed { cause := .runtime error, .. } => error.missed?
  | _ => none

/-- All functions that can be reached from the frame are built-in ones other than `eval`. -/
def Store.Native (store : Store) (frame : FrameRef) : Prop :=
  ∀ ref, store.Reaches (.frame frame) (.function ref) →
    ∃ builtin, store.function ref = .builtin builtin ∧ builtin ≠ .eval

/-- A store with built-in functions only is provided for every name. -/
theorem Store.Native.provided {store : Store} {frame : FrameRef} (h : store.Native frame)
    (name : String) : store.Provided (· = frame) name store where
  confined := store.confined_regionOf _
  functions ref := by
    rintro (hbeyond | ⟨root, rfl, hreaches⟩)
    · have hnone : store.function ref = .builtin .type := by
        rw [Store.function, Array.getElem?_eq_none hbeyond]
        rfl
      rw [hnone]
      exact fun heq : Builtin.type = .eval => by cases heq
    · obtain ⟨builtin, hfunction, heval⟩ := h ref hreaches
      rw [hfunction]
      exact heval

/-- **In a pure tree nothing is looked up in vain** if the names that the analysis finds free are defined,
except for what is needed where a parameter falls back to a value and only this parameter or a later one
binds. -/
theorem pure_misses_forward {node : Node} (hpure : node.Pure) {store : Store} {frame : FrameRef}
    (hnative : store.Native frame)
    (hdefined : ∀ name, name ∈ node.freeNames ∨ name = Builtin.outputName ∨ name = Builtin.inputName →
      (store.lookup? frame name).isSome = true)
    (bound : Nat) {failure : Failure} {after : Store} {name : String}
    (hfails : (evaluate bound node frame).run store = .error (.failed failure) after)
    (hmissed : failure.missed? = some name) : node.Forward name := by
  by_contra hforward
  have hmeets : name ∈ node.freeNames ∨ name = Builtin.outputName ∨ name = Builtin.inputName →
      store.Meets frame name := fun h => Store.isSome_lookup?_iff.mp (hdefined name h)
  have hneeds : node.Needs name → store.Meets frame name := fun hneeded =>
    hmeets (.inl ((hpure.mem_freeNames_or_forward hneeded).resolve_right hforward))
  have hcalls : (.look, name) ∈ callUses → store.Meets frame name := fun hcalled =>
    hmeets (.inr (by simpa [callUses] using hcalled))
  let w : (provision store (· = frame) name).World := ⟨store, hnative.provided name⟩
  have hallows : (provision store (· = frame) name).allows w node frame :=
    ⟨.inr ⟨frame, rfl, .refl⟩, hpure, hneeds, hcalls⟩
  obtain ⟨_, -, hends⟩ :=
    ((provision.lawful.kept (fun _ => id) bound).node hallows).exists_end fun _ _ => id
  obtain ⟨-, hfailure⟩ := hfails ▸ hends ()
  cases failure with
  | unreadable => cases hmissed
  | diagnosed diagnostic =>
    obtain ⟨cause, _, _⟩ := diagnostic
    cases cause with
    | runtime => exact hfailure name hmissed rfl
    | raised => cases hmissed
    | fault => cases hmissed

/-- The function of the parameters `a = b` and `b = 1` with the body `a`, and a call of it without
arguments. -/
def earlyFallback : Node :=
  .mk default (.call (.mk default (.function {
    name := none
    parameters := [⟨"a", some (.mk default (.name "b"))⟩, ⟨"b", some (.mk default (.literal (.int 1)))⟩]
    rest := none
    body := .mk default (.name "a") })) [])

/-- A store with one frame, which binds the two streams. -/
def streamsOnly : Store where
  now := Calendar.Moment.midnight 0
  inputs := #[[]]
  outputs := #[""]
  frames := #[{
    bindings := Bindings.empty.putAll [
      (Builtin.outputName, .output ⟨0⟩), (Builtin.inputName, .input ⟨0⟩)] }]

/-- The store of the example is one. -/
theorem streamsOnly_native (frame : FrameRef) : streamsOnly.Native frame :=
  fun _ _ => ⟨.type, rfl, nofun⟩

/-- The call of the example is pure, -/
theorem earlyFallback_pure : earlyFallback.Pure :=
  have hpure : earlyFallback.allUpTo (·.form.isPure) 3 = true := by decide +kernel
  Node.all_of_allUpTo hpure

/-- The analysis finds no free name in the call. -/
theorem earlyFallback_defined (name : String)
    (h : name ∈ earlyFallback.freeNames ∨ name = Builtin.outputName ∨ name = Builtin.inputName) :
    (streamsOnly.lookup? ⟨0⟩ name).isSome = true := by
  have hnone : earlyFallback.freeNames = [] := by decide +kernel
  rcases h with hfree | rfl | rfl
  · rw [hnone] at hfree
    cases hfree
  · decide +kernel
  · decide +kernel

/-- and it misses the name `b`. -/
theorem earlyFallback_ends :
    ∃ failure after, (evaluate 5 earlyFallback ⟨0⟩).run streamsOnly = .error (.failed failure) after ∧
      failure.missed? = some "b" :=
  ⟨_, _, rfl, rfl⟩

/-- The name that the call misses is needed too early. -/
theorem pure_misses_forward_early :
    earlyFallback.Pure ∧ streamsOnly.Native ⟨0⟩ ∧ earlyFallback.Forward "b" := by
  obtain ⟨failure, after, hfails, hmissed⟩ := earlyFallback_ends
  exact ⟨earlyFallback_pure, streamsOnly_native ⟨0⟩,
    pure_misses_forward earlyFallback_pure (streamsOnly_native ⟨0⟩) earlyFallback_defined 5 hfails hmissed⟩

/-- All names that the analysis finds free are defined, but `b` is looked up in vain. -/
theorem pure_misses_unfree :
    earlyFallback.Pure ∧ streamsOnly.Native ⟨0⟩ ∧
      (∀ name, name ∈ earlyFallback.freeNames ∨ name = Builtin.outputName ∨ name = Builtin.inputName →
        (streamsOnly.lookup? ⟨0⟩ name).isSome = true) ∧
      ∃ failure after, (evaluate 5 earlyFallback ⟨0⟩).run streamsOnly = .error (.failed failure) after ∧
        failure.missed? = some "b" :=
  ⟨earlyFallback_pure, streamsOnly_native ⟨0⟩, earlyFallback_defined, earlyFallback_ends⟩

end Ckl
