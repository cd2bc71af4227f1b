import Ckl.Proofs.Module.Registry
import Ckl.Proofs.Run.Realm.Evaluation

/-!
# Modules within realms

The text of a module is evaluated in a frame inside the outermost one, and what is kept is this frame. A
realm that knows the frames of its modules, and allows every node in new ones, is kept by the load of a
module if it is kept by the evaluation of its text.
-/

namespace Ckl.Realm

open Source (Position Node)

variable {r : Realm} {ι : Type} [Inhabited ι] {w w' : r.World}

/-- A realm for which some frames are known: outermost ones, and those of modules. -/
structure Opens (r : Realm) (knows : r.World → FrameRef → Prop) : Prop where
  knows_later : r.Stable knows
  fails_later : r.Stable r.fails
  knows_loaded : ∀ {w ref identifier inner}, knows w ref →
    (r.store w).loaded? ref identifier = some inner → knows w inner
  has_bound : ∀ {w inner}, knows w inner → ∀ value ∈ ((r.store w).frame inner).bindings.values,
    r.has w value
  /-- The list of modules being loaded changes. -/
  marks : ∀ w root (loading : List String → List String), ∃ w', w ≤ w' ∧
    r.store w' = (r.store w).changeRegistry root fun registry =>
      { registry with loading := loading registry.loading }
  keepsModule : ∀ {w inner} root identifier, knows w inner →
    ∃ w', w ≤ w' ∧ r.store w' = (r.store w).keepModule root identifier inner
  enters : ∀ {w root}, knows w root →
    ∃ w', w ≤ w' ∧ r.store w' = ((r.store w).enter root Bindings.empty).2 ∧
      knows w' ((r.store w).enter root Bindings.empty).1 ∧
        ∀ node, r.allows w' node ((r.store w).enter root Bindings.empty).1

namespace Opens

variable {knows : r.World → FrameRef → Prop} (h : r.Opens knows) {evaluator : ι → Evaluator}
  {root frame : FrameRef} {registry : Registry}

include h

theorem promises_loadModule (he : r.Kept evaluator) (hroot : knows w root) (identifier file : String)
    (position : Position)
    (hloaded : ∀ inner, registry.loaded.get? identifier = some inner → knows w inner) :
    r.Promises knows w fun k => loadModule (evaluator k) root registry identifier file position := by
  unfold loadModule
  cases hfound : registry.loaded.get? identifier with
  | some inner => exact promises_pure (hloaded inner hfound)
  | none =>
    have hsource : r.Promises (fun _ _ => True) w fun _ : ι => moduleSource registry file position := by
      unfold moduleSource
      cases registry.resolve file with
      | found text => exact promises_pure trivial
      | missing => exact promises_fail rfl position
      | unreadable problem => exact promises_stop trivial
      | unknown path => exact promises_of_ends le_rfl rfl
    refine hsource.bind fun w₁ text hle _ => ?_
    cases Source.readScript file text with
    | error fault => exact promises_stop trivial
    | ok node =>
      have henter : r.Promises (fun w' inner => knows w' inner ∧ ∀ node, r.allows w' node inner) w₁
          fun _ : ι => Run.enter root Bindings.empty :=
        promises_modifyGet (h.enters (h.knows_later hle hroot))
      refine henter.bind fun w₂ inner _ hinner => ?_
      refine (promises_finish _ (he.node (hinner.2 node))).bind fun w₃ _ hle₃ _ => ?_
      have hinner₃ := h.knows_later hle₃ hinner.1
      obtain ⟨w₄, hle₄, hstore⟩ := h.keepsModule root identifier hinner₃
      have hkeep : r.Promises (fun w' _ => w₃ ≤ w') w₃ fun _ : ι =>
          (modify (·.keepModule root identifier inner) : Run Unit) :=
        promises_modify ⟨w₄, hle₄, hstore, hle₄⟩
      exact hkeep.map fun w' _ hle _ => h.knows_later hle hinner₃

/-- The load of a module gives a known frame. -/
theorem promises_enterModule (he : r.Kept evaluator) (hroot : knows w ((r.store w).root frame))
    (identifier file : String) (position : Position) :
    r.Promises knows w fun k => enterModule (evaluator k) frame identifier file position := by
  have hmark : ∀ (w' : r.World) (root : FrameRef) (loading : List String → List String),
      r.Promises (fun _ _ => True) w' fun _ : ι =>
        (modify (·.changeRegistry root fun registry =>
          { registry with loading := loading registry.loading }) : Run Unit) :=
    fun w' root loading =>
      have ⟨later, hle, hstore⟩ := h.marks w' root loading
      promises_modify ⟨later, hle, hstore, trivial⟩
  unfold enterModule
  refine promises_read_bind (promises_read_bind ?_)
  cases hregistry : ((r.store w).frame ((r.store w).root frame)).registry with
  | none => exact promises_fail rfl position
  | some registry =>
    have hloaded : ∀ inner, registry.loaded.get? identifier = some inner → knows w inner :=
      fun inner hinner => h.knows_loaded hroot (by rw [Store.loaded?, hregistry]; exact hinner)
    cases hcycle : cycleAt? identifier registry.loading with
    | some cycle =>
      simp only [hcycle]
      exact promises_fail rfl position
    | none =>
      simp only [hcycle, beginLoading, endLoading]
      refine (hmark w _ (· ++ [identifier])).bind fun w₁ _ hle _ => ?_
      refine (promises_attempt (h.promises_loadModule he (h.knows_later hle hroot) identifier file
        position fun inner hinner => h.knows_later hle (hloaded inner hinner))).bind
          fun w₂ outcome _ houtcome => ?_
      refine (hmark w₂ _ List.dropLast).bind fun w₃ _ hle₃ _ => promises_conclude ?_
      cases outcome with
      | ok inner => exact h.knows_later hle₃ houtcome
      | error failure => exact h.fails_later hle₃ houtcome

/-- The values of a module are in the realm. -/
theorem promises_names (he : r.Kept evaluator) (hroot : knows w ((r.store w).root frame))
    (identifier file : String) (position : Position) :
    r.Promises (fun w' inner => ∀ value ∈ ((r.store w').frame inner).bindings.values, r.has w' value) w
      fun k => enterModule (evaluator k) frame identifier file position :=
  (h.promises_enterModule he hroot identifier file position).mono fun _ _ _ hinner =>
    h.has_bound hinner

end Opens

end Ckl.Realm
