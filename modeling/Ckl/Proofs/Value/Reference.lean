import Ckl.Proofs.Collection.Reference
import Ckl.Proofs.Value.Key

/-!
# Tables of values

Values can be keys if being equal is an equivalence relation among them and equal ones have one key text
(`KeyUniverse`). Atoms and lists of them can, if no integers fold and each decimal is a number
(`keyUniverse_built`). With such keys tables of values are finite maps, whatever the hash of their texts
(`changes_follow_reference`).
-/

namespace Ckl.Store

open Collection

/-- The rule by which values are keys, with any hash of the texts of keys. -/
def keyRuleBy (store : Store) (hash : String → UInt64) : KeyRule Value where
  hash value := hash (store.key value)
  same := store.equal

/-- The tables of a store use one of these rules. -/
theorem keyRuleBy_hash (store : Store) : store.keyRuleBy Text.hash = store.keyRule := rfl

/-- Some values that can serve as keys: being equal is an equivalence relation among them, and equal
ones have one key text. -/
structure KeyUniverse (store : Store) (among : Value → Prop) : Prop extends
    EqualityLaws store among where
  refl : ∀ a, among a → store.equal a a = true
  key_eq : ∀ a b, among a → among b → store.equal a b = true → store.key a = store.key b

theorem KeyUniverse.lawful {store : Store} {among : Value → Prop} (h : store.KeyUniverse among)
    (hash : String → UInt64) : (store.keyRuleBy hash).Lawful among where
  refl := h.refl
  symm := h.symm
  trans := h.trans
  hash_eq a b ha hb hs := congrArg hash (h.key_eq a b ha hb hs)

theorem KeyUniverse.mono {store : Store} {among fewer : Value → Prop} (h : store.KeyUniverse among)
    (hsub : ∀ value, fewer value → among value) : store.KeyUniverse fewer where
  symm a b ha hb := h.symm a b (hsub a ha) (hsub b hb)
  trans a b c ha hb hc := h.trans a b c (hsub a ha) (hsub b hb) (hsub c hc)
  refl a ha := h.refl a (hsub a ha)
  key_eq a b ha hb := h.key_eq a b (hsub a ha) (hsub b hb)

theorem KeyUniverse.lawful_rule {store : Store} {among : Value → Prop} (h : store.KeyUniverse among) :
    store.keyRule.Lawful among := h.lawful Text.hash

/-- Values built of atoms are keys, if no integers fold and all decimals are numbers. -/
theorem keyUniverse_built (store : Store) {atoms : Value → Prop} (hfold : ¬ Folds atoms)
    (hnumbers : ∀ x, atoms (.decimal x) → (x == x) = true) :
    store.KeyUniverse (store.Built atoms) := by
  refine ⟨equalityLaws_built hfold, ?_, ?_⟩
  · intro a ha
    exact (sortable_built hnumbers).equal_self ha
  · intro a b ha hb h
    exact key_eq_iff.mpr (ha.keyChars_eq hb h)

/-- Values built without decimals can be keys in every store. -/
theorem keyUniverse_without_decimals (store : Store) :
    store.KeyUniverse (store.Built fun atom => ∀ x, atom ≠ .decimal x) :=
  keyUniverse_built store (fun ⟨_, _, x, _, _, hx, _⟩ => hx x rfl) fun x hx => absurd rfl (hx x)

/-- **Tables are finite maps on classes of equal keys.** Whatever the hash of key texts, a sequence of
changes of an empty map or set gives the answers of the reference, and the table that it leaves answers
every question about it as the reference does. -/
theorem changes_follow_reference (store : Store) (hash : String → UInt64) (among : Value → Prop)
    (keys : store.KeyUniverse among) :
    let rule := store.keyRuleBy hash
    (∀ changes : List (MapChange Value Value), (∀ change ∈ changes, among change.key) →
      let run := runChanges (MapChange.apply rule) Table.empty changes
      let reference := runChanges (MapChange.refer (rule.classOf among)) ∅ changes
      run.1 = reference.1 ∧ Answers rule among run.2 reference.2) ∧
    (∀ changes : List (SetChange Value), (∀ change ∈ changes, among change.key) →
      let run := runChanges (SetChange.apply rule) Table.empty changes
      let reference := runChanges (SetChange.refer (rule.classOf among)) ∅ changes
      run.1 = reference.1 ∧ Answers rule among run.2 reference.2) := by
  have hl := keys.lawful hash
  refine ⟨fun changes ha => ?_, fun changes ha => ?_⟩
  · obtain ⟨hanswers, hlast⟩ := runChanges_simulates (Represents (store.keyRuleBy hash) among)
      (fun _ _ change h hu => h.mapChange hl change hu) changes _ _ Represents.empty ha
    exact ⟨hanswers, hlast.answers hl⟩
  · obtain ⟨hanswers, hlast⟩ := runChanges_simulates (Represents (store.keyRuleBy hash) among)
      (fun _ _ change h hu => h.setChange hl change hu) changes _ _ Represents.empty ha
    exact ⟨hanswers, hlast.answers hl⟩

/-- The keys without decimals: the null value, truth values, integers, texts, dates, patterns and lists
of them. A change of a map with such keys is answered as the reference answers it. -/
theorem changes_without_decimals :
    bare.KeyUniverse (bare.Built fun atom => ∀ x, atom ≠ .decimal x) ∧
      let rule := bare.keyRuleBy Text.hash
      let among := bare.Built fun atom => ∀ x, atom ≠ .decimal x
      let changes : List (MapChange Value Value) :=
        [.insert (.int 1) (.string "a"), .insertShared (.int 1) (.string "b"), .remove (.int 1)]
      let run := runChanges (MapChange.apply rule) Table.empty changes
      let reference := runChanges (MapChange.refer (rule.classOf among)) ∅ changes
      run.1 = reference.1 ∧ Answers rule among run.2 reference.2 := by
  have hkeys : bare.KeyUniverse (bare.Built fun atom => ∀ x, atom ≠ .decimal x) :=
    keyUniverse_built bare (fun ⟨_, _, x, _, _, hx, _⟩ => hx x rfl) fun x hx => absurd rfl (hx x)
  refine ⟨hkeys, (changes_follow_reference bare Text.hash _ hkeys).1 _ fun change h => ?_⟩
  have hone : change.key = .int 1 := by
    simp only [List.mem_cons, List.not_mem_nil, or_false] at h
    rcases h with rfl | rfl | rfl <;> rfl
  rw [hone]
  exact .atom rfl nofun

end Ckl.Store
