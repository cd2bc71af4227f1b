import Ckl.Proofs.Number.Comparison
import Ckl.Proofs.Value.Reading

/-!
# Atoms

The atomic values are written in themselves. So their readings are the same in every store
(`equal_atoms`, `keyChars_atom`), they are acyclic, and equal ones have one key
(`keyChars_eq_of_equal_atoms`).
-/

namespace Ckl.Store

open Number (ofWhole)

variable {store : Store}

theorem held_of_isAtomic {a : Value} (h : a.isAtomic = true) : store.held a = [] := by
  cases a <;> first | rfl | exact absurd h Bool.false_ne_true

theorem acyclic_of_isAtomic {a : Value} (h : a.isAtomic = true) : store.Acyclic a :=
  acyclic_of_held_nil (held_of_isAtomic h)

theorem not_mem_held_of_isAtomic {a : Value} (h : a.isAtomic = true) (p : Value) :
    p ∉ store.held a := by
  rw [held_of_isAtomic h]
  exact List.not_mem_nil

theorem equal_atoms (other : Store) {a b : Value} (ha : a.isAtomic = true) (hb : b.isAtomic = true) :
    store.equal a b = other.equal a b := by
  have hnone : ∀ p, p ∉ store.held a := not_mem_held_of_isAtomic ha
  have hstep : store.equalStep store.equal store.keyChars a b =
      store.equalStep other.equal other.keyChars a b :=
    equalStep_congr (fun p hp => absurd hp (hnone p)) fun p hp => absurd hp (hnone p)
  rw [equal_eq (acyclic_of_isAtomic ha) (acyclic_of_isAtomic hb), hstep,
    equal_eq (acyclic_of_isAtomic ha) (acyclic_of_isAtomic hb)]
  cases a <;> first
    | exact absurd ha Bool.false_ne_true
    | (cases b <;> rfl)

theorem keyChars_atom (other : Store) {a : Value} (h : a.isAtomic = true) :
    store.keyChars a = other.keyChars a := by
  have hnone : ∀ p, p ∉ store.held a := not_mem_held_of_isAtomic h
  have hstep : store.keyStep store.keyChars store.order a =
      store.keyStep other.keyChars other.order a :=
    keyStep_congr (fun p hp => absurd hp (hnone p)) fun p hp => absurd hp (hnone p)
  rw [keyChars_eq (acyclic_of_isAtomic h), hstep, keyChars_eq (acyclic_of_isAtomic h)]
  cases a <;> first | rfl | exact absurd h Bool.false_ne_true

/-- Equal atoms have one key. -/
theorem keyChars_eq_of_equal_atoms {a b : Value} (ha : a.isAtomic = true) (hb : b.isAtomic = true)
    (h : store.equal a b = true) : store.keyChars a = store.keyChars b := by
  rw [equal_eq (acyclic_of_isAtomic ha) (acyclic_of_isAtomic hb)] at h
  rw [keyChars_eq (acyclic_of_isAtomic ha), keyChars_eq (acyclic_of_isAtomic hb)]
  cases a <;> first
    | exact absurd ha Bool.false_ne_true
    | (cases b <;> first
        | exact absurd h Bool.false_ne_true
        | exact absurd hb Bool.false_ne_true
        | rfl
        | exact Number.decimalKey_eq_of_beq h
        | exact congrArg _ (congrArg _ (eq_of_beq h)))

end Ckl.Store
