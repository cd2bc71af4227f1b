import Ckl.Proofs.Value.AtomSets

/-!
# Symmetry of equality

The one reason for which equality fails to be symmetric: a set of two integers that fold into a decimal
equals each set of that decimal and another value, since both integers find the decimal there, but the
other value finds nothing among the integers (`equal_foldStore`). `equal_comm_iff` says that without a
fold equality is symmetric.
-/

namespace Ckl.Store

open Number (ofWhole)

variable {m n : Int64} {x : Float}

/-- A store with two sets: one of two integers, and one of a decimal and the null value. -/
def foldStore (m n : Int64) (x : Float) : Store := setStore [.int m, .int n] [.decimal x, .null]

/-- The values of the store of a fold. -/
def foldValues (m n : Int64) (x : Float) : Value → Prop :=
  setValues [.int m, .int n] [.decimal x, .null]

theorem atomSet_integers (hne : m ≠ n) : AtomSet [.int m, .int n] :=
  atomSet_pair rfl rfl ⟨beq_eq_false_iff_ne.mpr hne, beq_eq_false_iff_ne.mpr hne.symm⟩

theorem atomSet_decimal_null (x : Float) : AtomSet [.decimal x, .null] :=
  atomSet_pair rfl rfl ⟨rfl, rfl⟩

theorem universe_foldStore (hne : m ≠ n) : (foldStore m n x).Universe (foldValues m n x) :=
  universe_setStore (atomSet_integers hne) (atomSet_decimal_null x)

theorem keysRespectEquality_foldStore (hne : m ≠ n) :
    (foldStore m n x).KeysRespectEquality (foldValues m n x) :=
  keysRespectEquality_setStore (atomSet_integers hne) (atomSet_decimal_null x)

/-- The numbers of the store of a fold are the three that fold. -/
theorem isNumeric_foldValues {value : Value} (h : foldValues m n x value)
    (hnum : value.isNumeric = true) : value = .int m ∨ value = .int n ∨ value = .decimal x := by
  rcases h with rfl | rfl | h | h
  · cases hnum
  · cases hnum
  · exact (List.mem_pair.mp h).imp_right .inl
  · rcases List.mem_pair.mp h with rfl | rfl
    · exact .inr (.inr rfl)
    · cases hnum

/-- Both integers are found in the set of the decimal, whose null value is not found among them. -/
theorem equal_foldStore (hne : m ≠ n) (hm : (ofWhole m == x) = true) (hn : (ofWhole n == x) = true) :
    (foldStore m n x).equal (.set ⟨0⟩) (.set ⟨1⟩) = true ∧
      (foldStore m n x).equal (.set ⟨1⟩) (.set ⟨0⟩) = false := by
  have hdecimal : ∀ {k : Int64}, (ofWhole k == x) = true →
      ∃ b ∈ [.decimal x, .null], (foldStore m n x).equal b (.int k) = true :=
    fun {k} h => ⟨.decimal x, List.mem_cons_self,
      show (x == ofWhole k) = true from Number.beq_comm _ _ ▸ h⟩
  constructor
  · refine (equal_setStore_iff (atomSet_integers hne) (atomSet_decimal_null x)).mpr ⟨rfl, fun a ha => ?_⟩
    rcases List.mem_pair.mp ha with rfl | rfl
    · exact hdecimal hm
    · exact hdecimal hn
  · refine Bool.eq_false_iff.mpr fun h => ?_
    obtain ⟨_, hall⟩ :=
      (equal_setStore_back_iff (atomSet_integers hne) (atomSet_decimal_null x)).mp h
    obtain ⟨a, ha, heq⟩ := hall .null (List.mem_cons_of_mem _ List.mem_cons_self)
    rcases List.mem_pair.mp ha with rfl | rfl <;> cases heq

/-- **Equality is symmetric exactly where no integers fold.** For numbers of some kind: in all universes
whose numbers are of this kind, and whose keys have equal texts if they are equal, equality is symmetric
if and only if no two different integers of this kind equal one decimal of this kind. -/
theorem equal_comm_iff (numbers : Value → Prop) :
    (∀ (store : Store) (among : Value → Prop), store.Universe among →
      store.KeysRespectEquality among →
      (∀ value, among value → value.isNumeric = true → numbers value) →
      ∀ a b, among a → among b → store.equal a b = store.equal b a) ↔ ¬ Folds numbers := by
  constructor
  · rintro hcomm ⟨m, n, x, hm, hn, hx, hne, heqm, heqn⟩
    obtain ⟨htrue, hfalse⟩ := equal_foldStore hne heqm heqn
    have hboth := hcomm (foldStore m n x) (foldValues m n x) (universe_foldStore hne)
      (keysRespectEquality_foldStore hne) ?_ (.set ⟨0⟩) (.set ⟨1⟩) (.inl rfl) (.inr (.inl rfl))
    · rw [htrue, hfalse] at hboth
      cases hboth
    · intro value h hnum
      rcases isNumeric_foldValues h hnum with rfl | rfl | rfl
      · exact hm
      · exact hn
      · exact hx
  · intro hfold store among hu hkeys hnumbers a b ha hb
    have hlaws := hu.equalityLaws hkeys fun ⟨m, n, x, hm, hn, hx, hrest⟩ =>
      hfold ⟨m, n, x, hnumbers _ hm rfl, hnumbers _ hn rfl, hnumbers _ hx rfl, hrest⟩
    exact Bool.eq_iff_iff.mpr ⟨hlaws.symm a b ha hb, hlaws.symm b a hb ha⟩

/-- The first integers that fold: the double nearest to `2 ^ 53 + 1` is `2 ^ 53`. -/
theorem equal_not_comm_at_fold :
    let store := foldStore 9007199254740993 9007199254740992 (ofWhole 9007199254740992)
    store.Acyclic (.set ⟨0⟩) ∧ store.Acyclic (.set ⟨1⟩) ∧
      store.equal (.set ⟨0⟩) (.set ⟨1⟩) ≠ store.equal (.set ⟨1⟩) (.set ⟨0⟩) := by
  intro store
  have hne : (9007199254740993 : Int64) ≠ 9007199254740992 := by decide
  have hu := universe_foldStore (x := ofWhole 9007199254740992) hne
  obtain ⟨htrue, hfalse⟩ := equal_foldStore (x := ofWhole 9007199254740992) hne (by decide) (by decide)
  refine ⟨hu.acyclic _ (.inl rfl), hu.acyclic _ (.inr (.inl rfl)), ?_⟩
  rw [htrue, hfalse]
  exact nofun

end Ckl.Store
