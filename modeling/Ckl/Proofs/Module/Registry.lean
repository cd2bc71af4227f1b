import Ckl.Proofs.Scope.Names

/-!
# The modules of a store

What a store tells about modules, frame by frame: how they are found, which ones are loaded, each with its
frame, and which ones are being loaded. Only the outermost frame of an interpreter has modules at all, but
nothing here depends on that.

`Consistent` is the invariant of these tables while nodes are evaluated, and `Precedes` says what one
moment has to do with a later one: modules stay loaded, in the same frames with the same names.
-/

namespace Ckl

namespace Bindings

variable {α : Type} (bindings : Bindings α) (name : String) (value : α)

/-- Where a name is bound anew, the other entries are found as before. -/
theorem find?_replaceIn (entries : List (String × α)) (other : String) :
    (replaceIn name value entries).find? (·.1 == other) =
      (entries.find? (·.1 == other)).map fun entry =>
        if entry.1 = name then (entry.1, value) else entry := by
  rw [replaceIn, List.find?_map]
  congr 2
  funext entry
  simp only [Function.comp_apply]
  split <;> rfl

/-- A name is bound to what it has been bound to last, -/
theorem get?_put_self : (bindings.put name value).get? name = some value := by
  unfold put
  split
  · next hbound =>
    have hfound : (bindings.entries.find? (·.1 == name)).isSome = true := by
      rw [List.find?_isSome]
      exact List.any_eq_true.mp hbound
    obtain ⟨entry, hentry⟩ := Option.isSome_iff_exists.mp hfound
    have hname : entry.1 = name := by simpa using List.find?_some hentry
    simp only [replace, get?, find?_replaceIn, hentry, Option.map_some, hname, if_pos]
  · next hbound =>
    have hnone : bindings.entries.find? (·.1 == name) = none := by
      rw [List.find?_eq_none]
      exact fun entry hentry heq => hbound (List.any_eq_true.mpr ⟨entry, hentry, heq⟩)
    simp [append, get?, List.find?_append, hnone]

/-- and other names are bound as before. -/
theorem get?_put_of_ne {other : String} (h : other ≠ name) :
    (bindings.put name value).get? other = bindings.get? other := by
  unfold put
  split
  · simp only [replace, get?, find?_replaceIn]
    cases hentry : bindings.entries.find? (·.1 == other) with
    | none => rfl
    | some entry =>
      have hother : entry.1 = other := by simpa using List.find?_some hentry
      simp only [Option.map_some, hother, if_neg h]
  · simp [append, get?, List.find?_append, Ne.symm h]

end Bindings

namespace Store

variable {store after : Store}

/-- How the modules of a frame are found, if it has modules. -/
def resolve? (store : Store) (ref : FrameRef) : Option (String → Resolution) :=
  (store.frame ref).registry.map Registry.resolve

/-- The frame of a module that is loaded. -/
def loaded? (store : Store) (ref : FrameRef) (identifier : String) : Option FrameRef :=
  (store.frame ref).registry.bind fun registry => registry.loaded.get? identifier

/-- The modules that are being loaded, the outermost one first. -/
def loading (store : Store) (ref : FrameRef) : List String :=
  ((store.frame ref).registry.map Registry.loading).getD []

/-! ## Changes of frames -/

/-- Bindings are changed without the registries. -/
theorem registry_changeBindings (ref other : FrameRef) (change : Bindings Value → Bindings Value) :
    ((store.changeBindings ref change).frame other).registry = (store.frame other).registry := by
  simp only [frame, changeBindings, Array.getElem?_modify]
  split
  · cases store.frames[other.index]? <;> rfl
  · rfl

/-- A new frame has no registry. -/
theorem registry_enter (frame other : FrameRef) (bindings : Bindings Value) :
    ((store.enter frame bindings).2.frame other).registry = (store.frame other).registry := by
  simp only [enter, placeFrame, Store.frame, Array.getElem?_push]
  split
  · next heq =>
    rw [heq, Array.getElem?_eq_none (Nat.le_refl _)]
    rfl
  · rfl

/-- A change of a registry is seen at its frame only. -/
theorem registry_changeRegistry (ref other : FrameRef) (change : Registry → Registry) :
    ((store.changeRegistry ref change).frame other).registry =
      if other = ref then (store.frame other).registry.map change
      else (store.frame other).registry := by
  simp only [frame, changeRegistry, Array.getElem?_modify]
  by_cases h : other = ref
  · subst h
    simp only [if_true]
    cases store.frames[other.index]? <;> rfl
  · have hindex : ref.index ≠ other.index := fun heq => h (FrameRef.eq_of_index heq.symm)
    simp only [if_neg h, if_neg hindex]

/-- A change of a registry that can be undone. -/
theorem changeRegistry_undo (ref : FrameRef) {change undo : Registry → Registry}
    (h : ∀ registry, undo (change registry) = registry) :
    (store.changeRegistry ref change).changeRegistry ref undo = store := by
  have hframe : ∀ frame : Frame,
      ({ frame with registry := (frame.registry.map change).map undo } : Frame) = frame := by
    rintro ⟨outer, bindings, _ | registry⟩
    · rfl
    · simp only [Option.map_some, h]
  have hframes : ((store.changeRegistry ref change).changeRegistry ref undo).frames =
      store.frames := by
    apply Array.ext_getElem?
    intro index
    simp only [changeRegistry, Array.getElem?_modify]
    split
    · cases store.frames[index]? with
      | none => rfl
      | some frame => exact congrArg some (hframe frame)
    · rfl
  exact congrArg (fun frames => { store with frames }) hframes

/-! ## Changes of the modules -/

/-- Notes that a module is being loaded. -/
def beginModule (store : Store) (root : FrameRef) (identifier : String) : Store :=
  store.changeRegistry root fun registry =>
    { registry with loading := registry.loading ++ [identifier] }

/-- Notes that the module whose loading began last is not being loaded any more. -/
def endModule (store : Store) (root : FrameRef) : Store :=
  store.changeRegistry root fun registry => { registry with loading := registry.loading.dropLast }

/-- Notes that a module is loaded, with its frame. -/
def keepModule (store : Store) (root : FrameRef) (identifier : String) (frame : FrameRef) : Store :=
  store.changeRegistry root fun registry =>
    { registry with loaded := registry.loaded.put identifier frame }

/-- A load that ends as it began leaves the store as it was. -/
@[simp]
theorem endModule_beginModule (root : FrameRef) (identifier : String) :
    (store.beginModule root identifier).endModule root = store :=
  changeRegistry_undo root fun _ => by simp only [List.dropLast_concat]

section Changes

variable (root ref : FrameRef) {change : Registry → Registry}

/-- A registry resolves files as before if the change leaves that alone. -/
theorem resolve?_changeRegistry (h : ∀ registry, (change registry).resolve = registry.resolve) :
    (store.changeRegistry root change).resolve? ref = store.resolve? ref := by
  unfold resolve?
  rw [registry_changeRegistry]
  split
  · cases (store.frame ref).registry <;> simp [h]
  · rfl

/-- It has the same modules if the change leaves these alone. -/
theorem loaded?_changeRegistry (h : ∀ registry, (change registry).loaded = registry.loaded)
    (identifier : String) :
    (store.changeRegistry root change).loaded? ref identifier = store.loaded? ref identifier := by
  unfold loaded?
  rw [registry_changeRegistry]
  split
  · cases (store.frame ref).registry <;> simp [h]
  · rfl

/-- To begin a load adds no module, -/
@[simp]
theorem loaded?_beginModule (identifier other : String) :
    (store.beginModule root identifier).loaded? ref other = store.loaded? ref other := by
  rw [beginModule, loaded?_changeRegistry]
  exact fun _ => rfl

/-- nor does it take one away to end it. -/
@[simp]
theorem loaded?_endModule (other : String) :
    (store.endModule root).loaded? ref other = store.loaded? ref other := by
  rw [endModule, loaded?_changeRegistry]
  exact fun _ => rfl

/-- What other registries are loading is not changed. -/
theorem loading_changeRegistry_of_ne (h : ref ≠ root) :
    (store.changeRegistry root change).loading ref = store.loading ref := by
  unfold loading
  rw [registry_changeRegistry, if_neg h]

/-- A load that begins is the innermost one. -/
theorem loading_beginModule {registry : Registry} (h : (store.frame root).registry = some registry)
    (identifier : String) :
    (store.beginModule root identifier).loading root = store.loading root ++ [identifier] := by
  unfold beginModule loading
  rw [registry_changeRegistry, if_pos rfl, h]
  rfl

/-- It is the innermost load that ends. -/
theorem loading_endModule : (store.endModule root).loading root = (store.loading root).dropLast := by
  unfold endModule loading
  rw [registry_changeRegistry, if_pos rfl]
  cases (store.frame root).registry <;> rfl

/-- To keep a module is not to end its load. -/
theorem loading_keepModule (identifier : String) (frame : FrameRef) :
    (store.keepModule root identifier frame).loading ref = store.loading ref := by
  unfold keepModule loading
  rw [registry_changeRegistry]
  split
  · cases (store.frame ref).registry <;> rfl
  · rfl

/-- A module that is kept is found, -/
theorem loaded?_keepModule_self {registry : Registry}
    (h : (store.frame root).registry = some registry) (identifier : String) (frame : FrameRef) :
    (store.keepModule root identifier frame).loaded? root identifier = some frame := by
  unfold keepModule loaded?
  rw [registry_changeRegistry, if_pos rfl, h]
  exact Bindings.get?_put_self _ _ _

/-- and nothing else is found otherwise. -/
theorem loaded?_keepModule_of_ne {identifier other : String} (h : ref = root → other ≠ identifier)
    (frame : FrameRef) :
    (store.keepModule root identifier frame).loaded? ref other = store.loaded? ref other := by
  unfold keepModule loaded?
  rw [registry_changeRegistry]
  split
  · next heq =>
    cases (store.frame ref).registry with
    | none => rfl
    | some registry => exact Bindings.get?_put_of_ne _ _ _ (h heq)
  · rfl

/-- What is found then is the module that is kept, or it was found before. -/
theorem loaded?_keepModule_cases {registry : Registry}
    (h : (store.frame root).registry = some registry) {identifier other : String}
    {frame found : FrameRef}
    (hfound : (store.keepModule root identifier frame).loaded? ref other = some found) :
    (ref = root ∧ other = identifier ∧ found = frame) ∨ store.loaded? ref other = some found := by
  by_cases hnew : ref = root ∧ other = identifier
  · obtain ⟨rfl, rfl⟩ := hnew
    rw [loaded?_keepModule_self ref h] at hfound
    exact .inl ⟨rfl, rfl, (Option.some.inj hfound).symm⟩
  · rw [loaded?_keepModule_of_ne root ref fun href hother => hnew ⟨href, hother⟩] at hfound
    exact .inr hfound

/-- What is still being loaded after the end of a load was being loaded before. -/
theorem mem_of_mem_endModule {identifier : String}
    (h : identifier ∈ (store.endModule root).loading ref) : identifier ∈ store.loading ref := by
  by_cases href : ref = root
  · subst href
    rw [loading_endModule] at h
    exact (List.dropLast_sublist _).subset h
  · rwa [Store.endModule, loading_changeRegistry_of_ne root ref href] at h

/-- Nothing is being loaded twice after the end of a load, if it was not before. -/
theorem nodup_endModule (h : ∀ ref, (store.loading ref).Nodup) :
    ((store.endModule root).loading ref).Nodup := by
  by_cases href : ref = root
  · subst href
    rw [loading_endModule]
    exact (h ref).sublist (List.dropLast_sublist _)
  · rw [Store.endModule, loading_changeRegistry_of_ne root ref href]
    exact h ref

end Changes

/-! ## One moment and a later one -/

/-- What holds of a later moment: modules are found in the same way, and those that are loaded stay loaded,
in frames with the same names. -/
structure Precedes (store after : Store) : Prop where
  grows : store.frames.size ≤ after.frames.size
  resolve : ∀ ref, after.resolve? ref = store.resolve? ref
  loaded : ∀ ref identifier frame, store.loaded? ref identifier = some frame →
    after.loaded? ref identifier = some frame
  names : ∀ ref identifier frame, store.loaded? ref identifier = some frame →
    (after.frame frame).bindings.names = (store.frame frame).bindings.names

namespace Precedes

theorem refl (store : Store) : store.Precedes store :=
  ⟨Nat.le_refl _, fun _ => rfl, fun _ _ _ h => h, fun _ _ _ _ => rfl⟩

/-- What precedes a store that precedes another one precedes this one. -/
theorem trans {middle : Store} (h : store.Precedes middle) (hafter : middle.Precedes after) :
    store.Precedes after where
  grows := Nat.le_trans h.grows hafter.grows
  resolve ref := (hafter.resolve ref).trans (h.resolve ref)
  loaded ref identifier frame hloaded :=
    hafter.loaded ref identifier frame (h.loaded ref identifier frame hloaded)
  names ref identifier frame hloaded :=
    (hafter.names ref identifier frame (h.loaded ref identifier frame hloaded)).trans
      (h.names ref identifier frame hloaded)

/-- Registries stay. -/
theorem registry (h : store.Precedes after) {ref : FrameRef} {registry : Registry}
    (hregistry : (store.frame ref).registry = some registry) :
    ∃ later, (after.frame ref).registry = some later := by
  have hresolve := h.resolve ref
  simp only [resolve?, hregistry, Option.map_some, Option.map_eq_some_iff] at hresolve
  obtain ⟨later, hlater, -⟩ := hresolve
  exact ⟨later, hlater⟩

/-- Nothing but the list of modules that are being loaded has changed. -/
theorem changeRegistry (root : FrameRef) {change : Registry → Registry}
    (hresolve : ∀ registry, (change registry).resolve = registry.resolve)
    (hloaded : ∀ registry, (change registry).loaded = registry.loaded) :
    store.Precedes (store.changeRegistry root change) where
  grows := by simp
  resolve ref := resolve?_changeRegistry root ref hresolve
  loaded ref identifier frame h := by rwa [loaded?_changeRegistry root ref hloaded]
  names _ _ _ _ := by rw [bindings_changeRegistry]

/-- A load begins. -/
theorem beginModule (root : FrameRef) (identifier : String) :
    store.Precedes (store.beginModule root identifier) :=
  changeRegistry root (fun _ => rfl) fun _ => rfl

/-- A load ends. -/
theorem endModule (root : FrameRef) : store.Precedes (store.endModule root) :=
  changeRegistry root (fun _ => rfl) fun _ => rfl

/-- A module has been loaded that was not loaded before. -/
theorem keepModule {root : FrameRef} {identifier : String}
    (hnew : store.loaded? root identifier = none) (frame : FrameRef) :
    store.Precedes (store.keepModule root identifier frame) where
  grows := by simp [Store.keepModule]
  resolve ref := resolve?_changeRegistry root ref fun _ => rfl
  loaded ref other frame' h := by
    rw [loaded?_keepModule_of_ne root ref ?_ frame, h]
    rintro rfl rfl
    rw [hnew] at h
    cases h
  names _ _ _ _ := by rw [Store.keepModule, bindings_changeRegistry]

end Precedes

/-! ## The invariant -/

/-- The modules are in order: they are loaded into different frames, each is being loaded at most once, and
none of these is loaded. -/
structure Consistent (store : Store) : Prop where
  exist : ∀ ref identifier frame, store.loaded? ref identifier = some frame →
    frame.index < store.frames.size
  apart : ∀ ref identifier other frame, store.loaded? ref identifier = some frame →
    store.loaded? ref other = some frame → identifier = other
  nodup : ∀ ref, (store.loading ref).Nodup
  pending : ∀ ref identifier, identifier ∈ store.loading ref → store.loaded? ref identifier = none

/-- The scope is a frame that exists and is not the frame of a loaded module. -/
def Outside (store : Store) (scope : Option FrameRef) : Prop :=
  ∀ frame, scope = some frame → frame.index < store.frames.size ∧
    ∀ ref identifier, store.loaded? ref identifier ≠ some frame

/-- What is loaded later has a frame that is newer. -/
theorem Outside.later {scope : Option FrameRef} (h : store.Outside scope)
    (hgrows : store.frames.size ≤ after.frames.size)
    (hnew : ∀ ref identifier frame, after.loaded? ref identifier = some frame →
      store.loaded? ref identifier = some frame ∨ store.frames.size ≤ frame.index) :
    after.Outside scope := by
  intro frame hframe
  obtain ⟨hexists, hnot⟩ := h frame hframe
  refine ⟨Nat.lt_of_lt_of_le hexists hgrows, fun ref identifier hloaded => ?_⟩
  rcases hnew ref identifier frame hloaded with hold | hindex
  · exact hnot ref identifier hold
  · omega

namespace Consistent

/-- To begin the load of something that is neither being loaded nor loaded keeps modules consistent. -/
theorem beginModule (h : store.Consistent) {root : FrameRef} {registry : Registry}
    (hregistry : (store.frame root).registry = some registry) {identifier : String}
    (hfree : identifier ∉ store.loading root) (hnew : store.loaded? root identifier = none) :
    (store.beginModule root identifier).Consistent := by
  refine ⟨fun ref other frame => ?_, fun ref other other' frame => ?_, fun ref => ?_,
    fun ref other => ?_⟩
  · rw [loaded?_beginModule, Store.beginModule, size_changeRegistry]
    exact h.exist ref other frame
  · rw [loaded?_beginModule, loaded?_beginModule]
    exact h.apart ref other other' frame
  · by_cases href : ref = root
    · subst href
      rw [loading_beginModule ref hregistry]
      exact List.nodup_append.mpr ⟨h.nodup ref, by simp, by
        rintro a ha b hb rfl
        exact hfree (List.mem_singleton.mp hb ▸ ha)⟩
    · rw [Store.beginModule, loading_changeRegistry_of_ne root ref href]
      exact h.nodup ref
  · rw [loaded?_beginModule]
    by_cases href : ref = root
    · subst href
      rw [loading_beginModule ref hregistry, List.mem_append, List.mem_singleton]
      rintro (hother | rfl)
      · exact h.pending ref other hother
      · exact hnew
    · rw [Store.beginModule, loading_changeRegistry_of_ne root ref href]
      exact h.pending ref other

/-- So does the end of a load. -/
theorem endModule (h : store.Consistent) (root : FrameRef) : (store.endModule root).Consistent := by
  refine ⟨fun ref other frame => ?_, fun ref other other' frame => ?_,
    fun ref => nodup_endModule root ref h.nodup, fun ref other hother => ?_⟩
  · rw [loaded?_endModule, Store.endModule, size_changeRegistry]
    exact h.exist ref other frame
  · rw [loaded?_endModule, loaded?_endModule]
    exact h.apart ref other other' frame
  · rw [loaded?_endModule]
    exact h.pending ref other (mem_of_mem_endModule root ref hother)

/-- A module that has been loaded is taken off the list of those being loaded, as the last one of them. -/
theorem keepModule (h : store.Consistent) {root frame : FrameRef} {registry : Registry}
    (hregistry : (store.frame root).registry = some registry) (hframe : store.Outside (some frame))
    {identifier : String} (hlast : identifier ∉ (store.loading root).dropLast) :
    ((store.keepModule root identifier frame).endModule root).Consistent := by
  obtain ⟨hexists, hnot⟩ := hframe frame rfl
  refine ⟨fun ref other found hfound => ?_, fun ref other other' found hfound hfound' => ?_,
    fun ref => nodup_endModule root ref fun ref => ?_, fun ref other hother => ?_⟩
  · rw [loaded?_endModule] at hfound
    simp only [Store.endModule, Store.keepModule, size_changeRegistry]
    rcases loaded?_keepModule_cases root ref hregistry hfound with ⟨-, -, rfl⟩ | hold
    · exact hexists
    · exact h.exist ref other found hold
  · rw [loaded?_endModule] at hfound hfound'
    rcases loaded?_keepModule_cases root ref hregistry hfound with ⟨-, rfl, rfl⟩ | hold <;>
      rcases loaded?_keepModule_cases root ref hregistry hfound' with ⟨-, rfl, heq⟩ | hold'
    · rfl
    · exact absurd hold' (hnot ref other')
    · exact absurd (heq ▸ hold) (hnot ref other)
    · exact h.apart ref other other' found hold hold'
  · rw [loading_keepModule]
    exact h.nodup ref
  · rw [loaded?_endModule]
    have hmem := mem_of_mem_endModule root ref hother
    rw [loading_keepModule] at hmem
    rw [loaded?_keepModule_of_ne root ref ?_]
    · exact h.pending ref other hmem
    · rintro rfl rfl
      rw [loading_endModule, loading_keepModule] at hother
      exact hlast hother

end Consistent

/-! ## Changes that leave the modules alone -/

/-- The modules are as before, and so are the names in their frames. -/
structure SameModules (store after : Store) : Prop where
  grows : store.frames.size ≤ after.frames.size
  registry : ∀ ref, (after.frame ref).registry = (store.frame ref).registry
  names : ∀ ref identifier frame, store.loaded? ref identifier = some frame →
    (after.frame frame).bindings.names = (store.frame frame).bindings.names

namespace SameModules

/-- The same modules are loaded, -/
theorem loaded (h : store.SameModules after) (ref : FrameRef) (identifier : String) :
    after.loaded? ref identifier = store.loaded? ref identifier := by
  simp only [loaded?, h.registry]

/-- and the same are being loaded. -/
theorem loading (h : store.SameModules after) (ref : FrameRef) :
    after.loading ref = store.loading ref := by
  simp only [Store.loading, h.registry]

/-- Stores with the same modules precede each other. -/
theorem precedes (h : store.SameModules after) : store.Precedes after where
  grows := h.grows
  resolve ref := by simp only [resolve?, h.registry]
  loaded ref identifier frame hloaded := by rwa [h.loaded]
  names := h.names

/-- They are consistent together. -/
theorem consistent (h : store.SameModules after) (hstore : store.Consistent) : after.Consistent where
  exist ref identifier frame := by
    rw [h.loaded]
    exact fun hloaded => Nat.lt_of_lt_of_le (hstore.exist ref identifier frame hloaded) h.grows
  apart ref identifier other frame := by
    rw [h.loaded, h.loaded]
    exact hstore.apart ref identifier other frame
  nodup ref := by
    rw [h.loading]
    exact hstore.nodup ref
  pending ref identifier := by
    rw [h.loading, h.loaded]
    exact hstore.pending ref identifier

/-- Stores with the same modules as a third one have the same modules. -/
theorem trans {middle : Store} (h : store.SameModules middle) (hafter : middle.SameModules after) :
    store.SameModules after where
  grows := Nat.le_trans h.grows hafter.grows
  registry ref := (hafter.registry ref).trans (h.registry ref)
  names := (h.precedes.trans hafter.precedes).names

/-- A frame outside of what is being loaded stays outside. -/
theorem outside (h : store.SameModules after) {scope : Option FrameRef}
    (hscope : store.Outside scope) : after.Outside scope := by
  refine hscope.later h.grows fun ref identifier frame hloaded => .inl ?_
  rwa [h.loaded] at hloaded

/-- Where the frames are the same the modules are. -/
theorem of_frames (h : after.frames = store.frames) : store.SameModules after where
  grows := Nat.le_of_eq (congrArg Array.size h.symm)
  registry ref := by rw [frame_of_frames h]
  names _ _ frame _ := by rw [frame_of_frames h]

/-- Names are bound and removed outside of modules. -/
theorem changeBindings {frame : FrameRef} (h : store.Outside (some frame))
    (change : Bindings Value → Bindings Value) :
    store.SameModules (store.changeBindings frame change) where
  grows := by simp
  registry ref := registry_changeBindings frame ref change
  names ref identifier other hloaded := by
    rw [frame_changeBindings_of_ne]
    rintro rfl
    exact (h other rfl).2 ref identifier hloaded

/-- Assignments change no names. -/
theorem define (hstore : store.Consistent) {owner : FrameRef} {name : String}
    (h : (store.frame owner).bindings.binds name = true) (value : Value) :
    store.SameModules (store.define owner name value) where
  grows := by simp [Store.define]
  registry ref := registry_changeBindings owner ref _
  names ref identifier frame hloaded :=
    (KeepsNames.define h value : store.KeepsNames _ none).names frame
      (hstore.exist ref identifier frame hloaded) nofun

/-- A new frame, within what exists, holds no module. -/
theorem enter (hstore : store.Consistent) (frame : FrameRef) (bindings : Bindings Value) :
    store.SameModules (store.enter frame bindings).2 where
  grows := by simp
  registry ref := registry_enter frame ref bindings
  names ref identifier found hloaded := by
    rw [frame_enter_of_lt (hstore.exist ref identifier found hloaded)]

end SameModules

/-- A new frame is not that of a module. -/
theorem Consistent.outside_enter (h : store.Consistent) (frame : FrameRef)
    (bindings : Bindings Value) :
    (store.enter frame bindings).2.Outside (some (store.enter frame bindings).1) := by
  intro inner hinner
  obtain rfl := (Option.some.inj hinner).symm
  refine ⟨by simp, fun ref identifier hloaded => ?_⟩
  rw [(SameModules.enter h frame bindings).loaded] at hloaded
  exact Nat.lt_irrefl _ (h.exist ref identifier _ hloaded)

end Store

end Ckl
