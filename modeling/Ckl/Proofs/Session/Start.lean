import Ckl.Session
import Ckl.Value.Reach

/-!
# The beginning of a session

What a session finds when it begins: the built-in functions, two streams and the null value, all of them
bound in the outermost frame, and no containers.
-/

namespace Ckl

/-- Nothing that is bound before any script is a container. -/
theorem container?_baseBindings {value : Value} (h : value ∈ baseBindings.values) :
    value.container? = none := by
  have hall : ∀ value ∈ baseBindings.values, value.container?.isNone = true := by decide +kernel
  exact Option.isNone_iff_eq_none.mp (hall value h)

namespace Session

theorem function_of_builtins {store : Store}
    (h : store.functions = (Builtin.all.map Function.builtin).toArray) (ref : Ref .func) :
    ∃ b, store.function ref = .builtin b := by
  rw [Store.function, h]
  cases hfound : (Builtin.all.map Function.builtin).toArray[ref.index]? with
  | none => exact ⟨.type, rfl⟩
  | some function =>
    obtain ⟨b, -, rfl⟩ := List.mem_map.mp (List.mem_toArray.mp (Array.mem_of_getElem? hfound))
    exact ⟨b, rfl⟩

variable (file : String) (resolve : String → Resolution) (input : List InputLine)
  (now : Calendar.Moment)

theorem bindings_base :
    ((start file resolve input now).store.frame ⟨0⟩).bindings = baseBindings := by
  rw [show (start file resolve input now).store.frame ⟨0⟩ = baseFrame resolve from rfl, baseFrame]

theorem bindings_others {ref : FrameRef} (h : ref ≠ ⟨0⟩) :
    ((start file resolve input now).store.frame ref).bindings = Bindings.empty := by
  match ref with
  | ⟨0⟩ => exact absurd rfl h
  | ⟨1⟩ => rfl
  | ⟨_ + 2⟩ => rfl

theorem parts_start (container : Container) :
    (start file resolve input now).store.parts container = [] := by
  cases container <;> rfl

end Session

/-- A session without modules and input. -/
def plainSession : Session := .start "main" (fun _ => .missing) [] (Calendar.Moment.midnight 0)

end Ckl
