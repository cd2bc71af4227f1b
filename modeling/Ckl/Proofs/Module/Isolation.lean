import Ckl.Proofs.Run.Realm.Call
import Ckl.Proofs.Run.Realm.Module
import Ckl.Proofs.Scope.Reach

/-!
# Modules are isolated

While a module is loaded, work gets hold of what can be reached from the outermost frame and from the frames
of modules, and of what is made meanwhile. If the frames of an importer are not among this, then nothing is
evaluated in them or inside of them, and they bind the same values afterwards.
-/

namespace Ckl

open Source (Position Node)

namespace Store

variable {start store after : Store} {roots : FrameRef → Prop}

/-- Nothing leads out of the region, modules are in it, and the frames outside of it are as they were. -/
structure Isolated (start : Store) (roots : FrameRef → Prop) (store : Store) : Prop where
  confined : start.Confined (start.regionOf roots) store
  modules : ∀ ref identifier inner, store.loaded? ref identifier = some inner →
    start.regionOf roots (.frame inner)
  others : ∀ ref, ¬ start.regionOf roots (.frame ref) →
    (store.frame ref).bindings = (start.frame ref).bindings

namespace Isolated

variable (h : start.Isolated roots store)

include h

/-- The steps on which modules are the same. -/
theorem step (hconfined : start.Confined (start.regionOf roots) after)
    (hregistry : ∀ ref, (after.frame ref).registry = (store.frame ref).registry)
    (hothers : ∀ ref, ¬ start.regionOf roots (.frame ref) →
      (after.frame ref).bindings = (store.frame ref).bindings) : start.Isolated roots after where
  confined := hconfined
  modules ref identifier inner hinner := h.modules ref identifier inner (by rwa [loaded?, ← hregistry])
  others ref href := (hothers ref href).trans (h.others ref href)

/-- The same frames are isolated if the store is confined. -/
theorem of_frames (hconfined : start.Confined (start.regionOf roots) after)
    (hframes : after.frames = store.frames) : start.Isolated roots after :=
  h.step hconfined (fun ref => by rw [frame_of_frames hframes])
    fun ref _ => by rw [frame_of_frames hframes]

/-- Bindings may be changed in a frame of the region. -/
theorem changeBindings {ref : FrameRef} (href : start.regionOf roots (.frame ref))
    {change : Bindings Value → Bindings Value}
    (hconfined : start.Confined (start.regionOf roots) (store.changeBindings ref change)) :
    start.Isolated roots (store.changeBindings ref change) := by
  refine h.step hconfined (fun other => registry_changeBindings ref other change) fun other hother => ?_
  rw [frame_changeBindings_of_ne]
  rintro rfl
  exact hother href

/-- A frame may be made in a frame of the region. -/
theorem enter {ref : FrameRef} (href : start.regionOf roots (.frame ref)) {bindings : Bindings Value}
    (hbindings : ∀ value ∈ bindings.values, Among (start.regionOf roots) value) :
    start.Isolated roots (store.enter ref bindings).2 := by
  refine h.step (h.confined.enter href hbindings) (fun other => registry_enter ref other bindings)
    fun other hother => ?_
  rw [frame_enter_of_lt]
  exact Nat.lt_of_not_le fun hge => hother (.inl (Nat.le_trans h.confined.frames hge))

/-- A new frame is in the region. -/
theorem region_enter (ref : FrameRef) (bindings : Bindings Value) :
    start.regionOf roots (.frame (store.enter ref bindings).1) :=
  .inl h.confined.frames

/-- What is known of modules may change as long as their frames are in the region. -/
theorem changeRegistry {root : FrameRef} {change : Registry → Registry}
    (hmodules : ∀ ref identifier inner,
      (store.changeRegistry root change).loaded? ref identifier = some inner →
        start.regionOf roots (.frame inner)) :
    start.Isolated roots (store.changeRegistry root change) where
  confined := h.confined.changeRegistry root change
  modules := hmodules
  others ref href := (bindings_changeRegistry root ref change).trans (h.others ref href)

/-- A module may be kept whose frame is in the region. -/
theorem keepModule (root : FrameRef) (identifier : String) {inner : FrameRef}
    (hinner : start.regionOf roots (.frame inner)) :
    start.Isolated roots (store.keepModule root identifier inner) := by
  refine h.changeRegistry fun ref other found hfound => ?_
  by_cases hnew : ref = root ∧ other = identifier
  · obtain ⟨rfl, rfl⟩ := hnew
    change (store.keepModule ref other inner).loaded? ref other = some found at hfound
    cases hregistry : (store.frame ref).registry with
    | none => simp [Store.loaded?, Store.keepModule, registry_changeRegistry, hregistry] at hfound
    | some registry =>
      rw [loaded?_keepModule_self ref hregistry] at hfound
      cases hfound
      exact hinner
  · have hsame : (store.keepModule root identifier inner).loaded? ref other = store.loaded? ref other :=
      loaded?_keepModule_of_ne root ref (fun href hother => hnew ⟨href, hother⟩) inner
    exact h.modules ref other found (hsame.symm.trans hfound)

end Isolated

end Store

open Store (Among)

/-- The realm of a load: what can be reached from some frames, and what is made meanwhile. -/
def isolation (start : Store) (roots : FrameRef → Prop) : Realm where
  World := { store : Store // start.Isolated roots store }
  order := { le := fun _ _ => True, le_refl := fun _ => trivial, le_trans := fun _ _ _ _ _ => trivial }
  store := Subtype.val
  keeps _ container := start.regionOf roots (.container container)
  calls _ ref := start.regionOf roots (.function ref)
  runs _
    | .builtin _ => True
    | .lambda _ made => start.regionOf roots (.frame made)
    | .host host => ∀ value, host.Knows value → Among (start.regionOf roots) value
  permits _ frame _ _ := start.regionOf roots (.frame frame)
  allows _ _ frame := start.regionOf roots (.frame frame)
  gathers _ _ frame := start.regionOf roots (.frame frame)
  awaits _ _ _ frame := start.regionOf roots (.frame frame)
  misses _ := True

namespace isolation

variable {start : Store} {roots : FrameRef → Prop} {w : (isolation start roots).World}

/-- To have a value is, here, that it is in the region. -/
theorem has_iff {value : Value} :
    (isolation start roots).has w value ↔ Among (start.regionOf roots) value :=
  Realm.has_iff_among (fun _ => Iff.rfl) (fun _ => Iff.rfl) value

/-- Values that are had are in the region. -/
theorem all_among {values : List Value} (h : ∀ value ∈ values, (isolation start roots).has w value) :
    ∀ value ∈ values, Among (start.regionOf roots) value :=
  fun value hvalue => has_iff.mp (h value hvalue)

/-- The texts of modules are evaluated in frames of the region. -/
theorem opens :
    (isolation start roots).Opens fun _ ref => start.regionOf roots (.frame ref) where
  knows_later _ _ _ _ href := href
  fails_later := by
    intro w w' failure _ hfails
    match failure with
    | .diagnosed { cause := .raised _ _, .. } => exact has_iff.mpr (has_iff.mp hfails)
    | .diagnosed { cause := .runtime _, .. } => exact fun _ _ => trivial
    | .diagnosed { cause := .fault _, .. } => trivial
    | .unreadable _ => trivial
  knows_loaded {w _ _ _} _ hinner := w.2.modules _ _ _ hinner
  has_bound {w _} hinner value hvalue := has_iff.mpr (w.2.confined.bound hinner value hvalue)
  marks w root loading := by
    refine ⟨⟨_, w.2.changeRegistry fun ref identifier inner hinner => ?_⟩, trivial, rfl⟩
    rw [Store.loaded?_changeRegistry root ref (by exact fun _ => rfl)] at hinner
    exact w.2.modules ref identifier inner hinner
  keepsModule {w _} _ _ hinner := ⟨⟨_, w.2.keepModule _ _ hinner⟩, trivial, rfl⟩
  enters {w root} hroot :=
    ⟨⟨_, w.2.enter hroot fun _ hvalue => absurd hvalue List.not_mem_nil⟩, trivial, rfl,
      w.2.region_enter root _, fun _ => w.2.region_enter root _⟩

/-- Evaluation stays in the region. -/
theorem lawful : (isolation start roots).Lawful where
  keeps_later _ h := h
  calls_later _ h := h
  runs_later _ h := h
  permits_later _ h := h
  allows_later _ h := h
  gathers_later _ h := h
  awaits_later _ h := h
  has_part {w _} hkeeps part hpart := has_iff.mpr (w.2.confined.part hkeeps part hpart)
  runs_function {w ref} hcalls := by
    cases hfunction : ((isolation start roots).store w).function ref with
    | builtin => trivial
    | lambda => exact w.2.confined.closed hcalls (.made hfunction)
    | host host =>
      exact fun value hknows place hplace => w.2.confined.closed hcalls (.known hfunction hknows hplace)
  allows_part hallows _ _ := hallows
  permits_use hallows _ _ _ := hallows
  permits_import hallows _ := hallows
  has_peeked {w _ _ _} hpermits hvalue := has_iff.mpr (w.2.confined.lookup? hpermits hvalue)
  has_looked {w _ _ _} hpermits hvalue := has_iff.mpr (w.2.confined.lookup? hpermits hvalue)
  misses_looked _ _ := trivial
  assigns {w _ _ _ _} hpermits hvalue howner :=
    ⟨⟨_, w.2.changeBindings (w.2.confined.owner? hpermits howner)
      (w.2.confined.define (has_iff.mp hvalue))⟩, trivial, rfl⟩
  misses_assigned _ _ := trivial
  defines {w _ _ _} hpermits hvalue :=
    ⟨⟨_, w.2.changeBindings hpermits (w.2.confined.define (has_iff.mp hvalue))⟩, trivial, rfl⟩
  removes {w _ name} hpermits :=
    ⟨⟨_, w.2.changeBindings hpermits (w.2.confined.undefine name)⟩, trivial, rfl⟩
  aside {w _} hsame := ⟨⟨_, w.2.of_frames (w.2.confined.aside hsame) hsame.frames⟩, trivial, rfl⟩
  places {w fresh} hparts := by
    have hplaced := w.2.confined.place (all_among hparts)
    refine ⟨⟨_, w.2.of_frames hplaced (by cases fresh <;> rfl)⟩, trivial, rfl, has_iff.mpr ?_⟩
    exact w.2.confined.among_place (fun _ => .inl) (all_among hparts)
  alters {w _ _ _} _ hadded halters :=
    ⟨⟨_, w.2.of_frames (w.2.confined.alters (all_among hadded) halters) halters.frames⟩, trivial, rfl⟩
  makes {w _ _ _} hallows :=
    ⟨⟨_, w.2.of_frames (w.2.confined.placeFunction hallows) rfl⟩, trivial, rfl,
      .inl w.2.confined.functions⟩
  enters_gathering {w _ _ frame} hallows :=
    ⟨⟨_, w.2.enter hallows fun _ hvalue => absurd hvalue List.not_mem_nil⟩, trivial, rfl,
      w.2.region_enter frame _⟩
  binds_item {w _ _ _} hgathers hitem :=
    ⟨⟨_, w.2.changeBindings hgathers (w.2.confined.define (has_iff.mp hitem))⟩, trivial, rfl,
      fun _ _ => hgathers⟩
  enters_call {w _ made _} hruns hbindings _ _ :=
    ⟨⟨_, w.2.enter hruns (all_among hbindings)⟩, trivial, rfl, w.2.region_enter made _⟩
  awaits_bound hawaits _ := hawaits
  allows_fallback hawaits _ := hawaits
  binds_fallback {w _ _ _ _ _} hawaits hvalue :=
    ⟨⟨_, w.2.changeBindings hawaits (w.2.confined.define (has_iff.mp hvalue))⟩, trivial, rfl, hawaits⟩
  allows_body hawaits := hawaits
  enters_eval {w frame} _ hserves :=
    -- a function is called only where names can be looked up, which is in the region
    have hframe : start.regionOf roots (.frame frame) :=
      hserves (.look, Builtin.outputName) (by simp [callUses])
    ⟨⟨_, w.2.enter hframe fun _ hvalue => absurd hvalue List.not_mem_nil⟩, trivial, rfl,
      fun _ => w.2.region_enter frame _⟩
  hosts {w host arguments} position hruns harguments := by
    have hvalue : ∀ value, (host.run (fun ref => (w.1.items ref).toList) arguments position = .ok value ∨
        ∃ text place trace, host.run (fun ref => (w.1.items ref).toList) arguments position =
          .error (.diagnosed { cause := .raised value text, position := place, trace })) →
        Among (start.regionOf roots) value := by
      intro value hends
      -- a host function gives on what it was given, or what it knows, and both are in the region
      by_cases hgiven : HostFunction.Given (fun ref => (w.1.items ref).toList) arguments value
      · exact w.2.confined.given (all_among harguments) hgiven
      · exact hruns value ⟨_, arguments, position, hgiven, hends⟩
    show Realm.attempts _ _ w (host.run (fun ref => (w.1.items ref).toList) arguments position)
    cases hrun : host.run (fun ref => (w.1.items ref).toList) arguments position with
    | ok value => exact has_iff.mpr (hvalue value (.inl hrun))
    | error failure =>
      cases failure with
      | unreadable => trivial
      | diagnosed diagnostic =>
        obtain ⟨cause, _, _⟩ := diagnostic
        cases cause with
        | raised value => exact has_iff.mpr (hvalue value (.inr ⟨_, _, _, hrun⟩))
        | runtime => exact fun _ _ => trivial
        | fault => trivial
  modules {_} [_] {_} he {w _ _ _ _} specifier position hallows :=
    opens.promises_names he (w.2.confined.root hallows) _ _ position

end isolation

/-! ## Loads of modules -/

/-- The frames of an importer: a frame and those around it, except for the outermost one. -/
def Store.importers (store : Store) (frame : FrameRef) : List FrameRef :=
  (store.chain frame).filter (· ≠ store.root frame)

/-- The frames from which the load of a module starts: the outermost one, and those of modules that have
been loaded. -/
def Store.Provides (store : Store) (frame provider : FrameRef) : Prop :=
  provider = store.root frame ∨ ∃ ref identifier, store.loaded? ref identifier = some provider

/-- Cuts where anything is evaluated in or inside of one of some frames, so that a name could be looked up
or assigned to there. -/
def Cut.within (frames : List FrameRef) : Cut := fun _ frame moment =>
  ∃ ref ∈ frames, ref ∈ moment.chain frame

/-- In the beginning the region is isolated if it has the frames of all modules. -/
theorem Store.isolated_start {store : Store} {roots : FrameRef → Prop}
    (hmodules : ∀ ref identifier inner, store.loaded? ref identifier = some inner → roots inner) :
    store.Isolated roots store where
  confined := store.confined_regionOf roots
  modules ref identifier inner hinner :=
    .inr ⟨inner, hmodules ref identifier inner hinner, .refl⟩
  others _ _ := rfl

/-- **Modules are isolated from their importers.** If none of the frames of an importer can be reached from
the outermost frame or from the frame of a module, then the load of a module, whatever its text and however
it ends, evaluates nothing in these frames or inside of them, and they bind the same values afterwards. -/
theorem enterModule_isolated {store : Store} {frame : FrameRef}
    (hexist : ∀ importer ∈ store.importers frame, importer.index < store.frames.size)
    (hapart : ∀ importer ∈ store.importers frame, ∀ provider, store.Provides frame provider →
      ¬ store.Reaches (.frame provider) (.frame importer))
    (bound : Nat) (identifier file : String) (position : Position) :
    enterModule (evaluatorUntil (.within (store.importers frame)) bound) frame identifier file position
        store =
      enterModule (evaluator bound) frame identifier file position store ∧
    ∀ importer ∈ store.importers frame,
      ((endOf (enterModule (evaluator bound) frame identifier file position store)).frame
          importer).bindings =
        (store.frame importer).bindings := by
  have houtside : ∀ importer ∈ store.importers frame,
      ¬ store.regionOf (store.Provides frame) (.frame importer) := by
    rintro importer himporter (hbeyond | ⟨provider, hprovider, hreaches⟩)
    · exact Nat.not_le_of_lt (hexist importer himporter) hbeyond
    · exact hapart importer himporter provider hprovider hreaches
  let w : (isolation store (store.Provides frame)).World :=
    ⟨store, Store.isolated_start fun ref identifier inner hinner => .inr ⟨ref, identifier, hinner⟩⟩
  have hkept := isolation.lawful.kept_uncut (fun _ => id) (.within (store.importers frame))
    (fun {later node inner} hallows ⟨importer, himporter, hchain⟩ =>
      houtside importer himporter (later.2.confined.chain hallows importer hchain)) bound
  have hroot : store.regionOf (store.Provides frame) (.frame (store.root frame)) :=
    .inr ⟨store.root frame, .inl rfl, .refl⟩
  obtain ⟨hsame, later, -, hends⟩ :=
    (isolation.opens.promises_enterModule (w := w) hkept hroot identifier file position).same
      fun _ _ => id
  refine ⟨hsame, fun importer himporter => ?_⟩
  have hstore : later.1 = endOf (enterModule (evaluator bound) frame identifier file position store) :=
    hends.store
  rw [← hstore]
  exact later.2.others importer (houtside importer himporter)

/-- A session in which every module tries to assign to a name of the scripts. -/
def secretive : Session :=
  (Session.start "main" (fun _ => .found "secret = 2") [] (Calendar.Moment.midnight 0)).define
    "secret" (.int 1)

/-- The load evaluates nothing where the name is bound, and the name has its value still. -/
theorem enterModule_isolated_secretive :
    secretive.store.importers ⟨1⟩ = [⟨1⟩] ∧ ∀ bound identifier file position,
      enterModule (evaluatorUntil (.within [⟨1⟩]) bound) ⟨1⟩ identifier file position secretive.store =
        enterModule (evaluator bound) ⟨1⟩ identifier file position secretive.store ∧
      ((endOf (enterModule (evaluator bound) ⟨1⟩ identifier file position
        secretive.store)).frame ⟨1⟩).bindings.entries = [("secret", .int 1)] := by
  have himporters : secretive.store.importers ⟨1⟩ = [⟨1⟩] := by decide +kernel
  have hprovides : ∀ provider, secretive.store.Provides ⟨1⟩ provider → provider = ⟨0⟩ := by
    rintro provider (rfl | ⟨ref, identifier, hloaded⟩)
    · decide +kernel
    · match ref with
      | ⟨0⟩ => cases hloaded
      | ⟨1⟩ => cases hloaded
      | ⟨_ + 2⟩ => cases hloaded
  have hexist : ∀ importer ∈ secretive.store.importers ⟨1⟩,
      importer.index < secretive.store.frames.size := by
    rw [himporters]
    decide +kernel
  have hapart : ∀ importer ∈ secretive.store.importers ⟨1⟩, ∀ provider,
      secretive.store.Provides ⟨1⟩ provider →
        ¬ secretive.store.Reaches (.frame provider) (.frame importer) := by
    rw [himporters]
    intro importer himporter provider hprovider hreaches
    cases List.mem_singleton.mp himporter
    rw [hprovides provider hprovider] at hreaches
    have hframe : secretive.store.frame ⟨0⟩ = Session.baseFrame _ :=
      Store.frame_changeBindings_of_ne (by decide) _
    rcases Session.reaches_base (by rw [hframe, Session.baseFrame])
      (by rw [hframe, Session.baseFrame]) rfl hreaches with heq | ⟨ref, heq⟩ <;> cases heq
  refine ⟨himporters, fun bound identifier file position => ?_⟩
  have hisolated := enterModule_isolated hexist hapart bound identifier file position
  rw [himporters] at hisolated
  exact ⟨hisolated.1, congrArg Bindings.entries (hisolated.2 ⟨1⟩ (List.mem_singleton.mpr rfl))⟩

end Ckl
