import Ckl.Proofs.Collection.Membership
import Ckl.Proofs.Run.Discipline
import Ckl.Proofs.Value.Frame
import Ckl.Proofs.Value.Lawful
import Ckl.Value.Arithmetic

/-!
# Sums and differences of sets and lists

The sum and the difference of sets contain what the operands say, and the difference of a list and a set or a
list has the items that equal none of the values that are taken away (`set_algebra`). It does not matter that
the operations work on hash tables: the results are those of removing one value after the other.

A set is filed under the keys that its elements had when they were added. If an element is changed afterwards,
the set need not notice that it equals another one now, and nor do sums with it (`sum_with_changed_element`).
-/

namespace Ckl.Store

open Collection (Table KeySet)
open Source (Position)

variable {store : Store} {among : Value → Prop}

/-- Nothing that existed has been touched: containers hold what they held, and values read as they did. -/
structure Keeps (before after : Store) : Prop where
  storage : before.Extends after
  reads : before.ReadsAlike after before.Has

/-- Placing something new keeps what is there. -/
theorem keeps_place (hwhole : store.Whole) (fresh : Fresh) : store.Keeps (store.place fresh).2 where
  storage := .place store fresh
  reads := (spares_place hwhole fresh).readsAlike

/-- Wherever it stands, an operation gives a new set of which `result` holds, and keeps what existed. -/
def GivesSet (store : Store) (operation : Store → Checked Fresh)
    (result : Ref .set → Store → Prop) : Prop :=
  ∃ (ref : Ref .set) (after : Store),
    (∀ position, Run.compute position operation store = .ok (.set ref) after) ∧ store.Keeps after ∧
      ¬ store.Has (.set ref) ∧ result ref after

/-- Wherever it stands, an operation gives a new list of the given items and keeps what existed. -/
def GivesList (store : Store) (operation : Store → Checked Fresh) (items : List Value) : Prop :=
  ∃ (ref : Ref .list) (after : Store),
    (∀ position, Run.compute position operation store = .ok (.list ref) after) ∧ store.Keeps after ∧
      ¬ store.Has (.list ref) ∧ (after.items ref).toList = items

/-- A set contains the values for which `member` holds, and no two of its elements are equal. -/
structure IsSetOf (store : Store) (among member : Value → Prop) (ref : Ref .set) : Prop where
  contains_iff : ∀ value, among value → (store.contains (.set ref) value = .ok true ↔ member value)
  apart : (store.keySet ref).keys.Pairwise fun a b => store.equal a b = false ∧ store.equal b a = false

/-- The elements of a set are as they were when they were added: each is filed under its key, and no two of
them are equal. -/
def Settled (store : Store) (ref : Ref .set) : Prop := (store.keySet ref).Sound store.keyRule

/-- The items that equal none of some values. -/
def apartFrom (store : Store) (items values : List Value) : List Value :=
  items.filter fun item => values.all fun value => !store.equal item value

/-- The items that are left when values are removed one after the other, each wherever an item equals it. -/
def removeEach (store : Store) (items values : List Value) : List Value :=
  values.foldl (fun items value => items.filter fun item => !store.equal item value) items

/-- Removing values one by one leaves those apart from all of them. -/
theorem removeEach_eq (items values : List Value) :
    store.removeEach items values = store.apartFrom items values := by
  induction values generalizing items with
  | nil => simp [removeEach, apartFrom]
  | cons value values ih =>
    have htail := ih (items.filter fun item => !store.equal item value)
    simp only [removeEach, apartFrom, List.foldl_cons, List.all_cons] at htail ⊢
    rw [htail, List.filter_filter]
    simp only [Bool.and_comm]

/-! ## Results of operations -/

/-- The result of an operation is placed. -/
theorem compute_of_ok {operation : Store → Checked Fresh} {fresh : Fresh} (h : operation store = .ok fresh)
    (position : Position) :
    Run.compute position operation store = .ok (store.place fresh).1 (store.place fresh).2 := by
  unfold Run.compute
  rw [Run.read_bind, h]
  rfl

/-- The next set does not exist yet. -/
theorem not_has_new_set : ¬ store.Has (.set ⟨store.sets.size⟩) := by
  intro h
  exact absurd (mem_containers_iff.mp (h _ rfl)) (Nat.lt_irrefl _)

/-- The next list does not exist yet. -/
theorem not_has_new_list : ¬ store.Has (.list ⟨store.lists.size⟩) := by
  intro h
  exact absurd (mem_containers_iff.mp (h _ rfl)) (Nat.lt_irrefl _)

/-- An operation on lists gives a new list. -/
theorem givesList (hwhole : store.Whole) {operation : Store → Checked Fresh} {items : List Value}
    (h : operation store = listResult items) : store.GivesList operation items := by
  refine ⟨⟨store.lists.size⟩, _, compute_of_ok h, keeps_place hwhole _, not_has_new_list, ?_⟩
  exact congrArg Array.toList (Extends.push_new store.lists items.toArray #[]).2

section Sets

variable (hwhole : store.Whole) (hexist : ∀ value, among value → store.Has value)

include hwhole

/-- An operation on sets gives a new set. -/
theorem givesSet {operation : Store → Checked Fresh} {keys : KeySet Value} {result : Ref .set → Store → Prop}
    (h : operation store = .ok (.set keys))
    (hresult : result ⟨store.sets.size⟩ (store.place (.set keys)).2) : store.GivesSet operation result :=
  ⟨⟨store.sets.size⟩, _, compute_of_ok h, keeps_place hwhole _, not_has_new_set, hresult⟩

include hexist

/-- A sound set of existing values, once it is stored, is read as it is. -/
theorem isSetOf_place {keys : KeySet Value} {member : Value → Prop}
    (hkeys : KeySet.SoundAmong store.keyRule among keys)
    (hmember : ∀ value, among value → (keys.contains store.keyRule value = true ↔ member value)) :
    (store.place (.set keys)).2.IsSetOf among member ⟨store.sets.size⟩ := by
  have hreads := ((spares_place hwhole (.set keys)).readsAlike).mono hexist
  have hplaced : (store.place (.set keys)).2.keySet ⟨store.sets.size⟩ = keys :=
    (Extends.push_new store.sets keys Table.empty).2
  constructor
  · intro value hvalue
    rw [← hmember value hvalue, contains, hasKey, hplaced, hreads.contains_eq hkeys.among hvalue,
      Except.ok.injEq]
  · rw [hplaced]
    exact List.pairwise_map.mpr ((hreads.sound_iff hkeys.among).mpr hkeys.sound).distinct

end Sets

/-! ## The operations -/

/-- What is found by its key is what is equal to one of the values. -/
theorem withoutKeys_eq (hkeys : store.KeyUniverse among) {items values : List Value}
    (hitems : ∀ item ∈ items, among item) (hvalues : ∀ value ∈ values, among value) :
    store.withoutKeys items values = store.apartFrom items values := by
  obtain ⟨-, hcontains⟩ := KeySet.soundAmong_ofList hkeys.lawful_rule.toCoherent hvalues
  apply List.filter_congr
  intro item hitem
  rw [Bool.eq_iff_iff, Bool.not_eq_true', ← Bool.not_eq_true, hcontains item (hitems item hitem),
    List.all_eq_true]
  constructor
  · intro hnone value hvalue
    rw [Bool.not_eq_true', ← Bool.not_eq_true]
    intro hequal
    have hback := hkeys.symm item value (hitems item hitem) (hvalues value hvalue) hequal
    exact hnone ⟨value, hvalue, hback⟩
  · rintro hall ⟨value, hvalue, hequal⟩
    have hback := hkeys.symm value item (hvalues value hvalue) (hitems item hitem) hequal
    simpa [hback] using hall value hvalue

/-- The items that equal none of some values do not depend on how the values are listed. -/
theorem apartFrom_perm {items values values' : List Value} (h : values.Perm values') :
    store.apartFrom items values = store.apartFrom items values' :=
  List.filter_congr fun _ _ => h.all_eq

/-- A list contains a value exactly if one of its items is the same key. -/
theorem contains_list_iff {ref : Ref .list} {value : Value} :
    store.contains (.list ref) value = .ok true ↔
      ∃ item ∈ (store.items ref).toList, store.keyRule.same item value = true := by
  rw [contains, Except.ok.injEq, List.any_eq_true]
  rfl

/-- **Sums and differences of sets and lists.** -/
theorem set_algebra (store : Store) (among : Value → Prop) (keys : store.KeyUniverse among)
    (whole : store.Whole) (exist : ∀ value, among value → store.Has value) (a b : Ref .set) (l m : Ref .list)
    (as : ∀ key ∈ (store.keySet a).keys, among key) (bs : ∀ key ∈ (store.keySet b).keys, among key)
    (ls : ∀ item ∈ (store.items l).toList, among item) (ms : ∀ item ∈ (store.items m).toList, among item) :
    (store.GivesSet (·.add (.set a) (.set b)) fun ref after => store.Settled a → store.Settled b →
      after.IsSetOf among (fun value => store.contains (.set a) value = .ok true ∨
        store.contains (.set b) value = .ok true) ref) ∧
    (store.GivesSet (·.subtract (.set a) (.set b)) fun ref after => store.Settled a → store.Settled b →
      after.IsSetOf among (fun value => store.contains (.set a) value = .ok true ∧
        ¬ store.contains (.set b) value = .ok true) ref) ∧
    (store.GivesSet (·.subtract (.set a) (.list l)) fun ref after => store.Settled a →
      after.IsSetOf among (fun value => store.contains (.set a) value = .ok true ∧
        ¬ store.contains (.list l) value = .ok true) ref) ∧
    (∀ items values, store.removeEach items values = store.apartFrom items values) ∧
    store.GivesList (·.subtract (.list l) (.set b))
      (store.apartFrom (store.items l).toList (store.keySet b).keys) ∧
    store.GivesList (·.subtract (.list l) (.list m))
      (store.apartFrom (store.items l).toList (store.items m).toList) := by
  have hl := keys.lawful_rule.toCoherent
  have hcontains : ∀ {ref : Ref .set} {value : Value}, store.contains (.set ref) value = .ok true ↔
      (store.keySet ref).contains store.keyRule value = true := by
    intro ref value
    rw [contains, hasKey, Except.ok.injEq]
  refine ⟨givesSet whole rfl ?sum, givesSet whole rfl ?difference, givesSet whole rfl ?fewer,
    removeEach_eq, givesList whole ?items, givesList whole ?others⟩
  case sum =>
    intro ha hb
    obtain ⟨hsum, hmembers⟩ := KeySet.SoundAmong.addAll ⟨ha, as⟩ hl bs
    apply isSetOf_place whole exist hsum
    intro value hvalue
    rw [hmembers value hvalue, hcontains, hcontains, KeySet.SoundAmong.contains_iff ⟨hb, bs⟩ hl hvalue]
  case difference =>
    intro ha hb
    obtain ⟨hdifference, hmembers⟩ := KeySet.SoundAmong.eraseAll ⟨ha, as⟩ hl bs
    apply isSetOf_place whole exist hdifference
    intro value hvalue
    rw [hmembers value hvalue, hcontains, hcontains, KeySet.SoundAmong.contains_iff ⟨hb, bs⟩ hl hvalue]
  case fewer =>
    intro ha
    obtain ⟨hfewer, hmembers⟩ := KeySet.SoundAmong.eraseAll ⟨ha, as⟩ hl ls
    apply isSetOf_place whole exist hfewer
    intro value hvalue
    rw [hmembers value hvalue, hcontains, contains_list_iff]
  case items =>
    -- the elements are taken in their order, which does not show in what is apart from all of them
    have hsorted := withoutKeys_eq keys ls fun value hvalue => bs value (mem_sortedKeys.mp hvalue)
    have hperm : (store.sortedKeys b).Perm (store.keySet b).keys := perm_sortBy store.order _
    exact congrArg listResult (hsorted.trans (apartFrom_perm hperm))
  case others => exact congrArg listResult (withoutKeys_eq keys ls ms)

/-- A store with two sets, and with two lists of texts and integers. -/
def atomsStore (first second : KeySet Value) : Store :=
  { bare with
    lists := #[#[.int 1, .string "c", .int 1], #[.string "b", .string "a"]]
    sets := #[first, second] }

/-- The texts and integers in that store. -/
def atomsInStore (value : Value) : Prop := value ∈ [.string "a", .int 1, .string "b", .string "c"]

/-- The keys of the two sets are the atoms. -/
theorem keys_atomsStore {first second : KeySet Value} (hfirst : first.keys.Perm [.string "a", .int 1])
    (hsecond : second.keys.Perm [.int 1, .string "b"]) :
    ∀ keys ∈ (atomsStore first second).sets, ∀ key ∈ keys.keys, atomsInStore key := by
  intro keys hkeys key hkey
  simp only [atomsStore, List.mem_toArray, List.mem_pair] at hkeys
  rcases hkeys with rfl | rfl
  · rw [hfirst.mem_iff, List.mem_pair] at hkey
    rcases hkey with rfl | rfl <;> simp [atomsInStore]
  · rw [hsecond.mem_iff, List.mem_pair] at hkey
    rcases hkey with rfl | rfl <;> simp [atomsInStore]

/-- In that store one integer is in both of the sets, and twice in a list from which one of them is taken
away. -/
theorem set_algebra_atoms :
    let store := atomsStore (KeySet.ofList bare.keyRule [.string "a", .int 1])
      (KeySet.ofList bare.keyRule [.int 1, .string "b"])
    (store.Settled ⟨0⟩ ∧ store.Settled ⟨1⟩) ∧
    (store.GivesSet (·.add (.set ⟨0⟩) (.set ⟨1⟩)) fun ref after =>
      store.Settled ⟨0⟩ → store.Settled ⟨1⟩ →
        after.IsSetOf atomsInStore (fun value => store.contains (.set ⟨0⟩) value = .ok true ∨
          store.contains (.set ⟨1⟩) value = .ok true) ref) ∧
    store.GivesList (·.subtract (.list ⟨0⟩) (.set ⟨1⟩)) [.string "c"] := by
  have hfirst := (atomSet_pair (a := .string "a") (b := .int 1) rfl rfl ⟨rfl, rfl⟩).sound
  have hsecond := (atomSet_pair (a := .int 1) (b := .string "b") rfl rfl ⟨rfl, rfl⟩).sound
  generalize KeySet.ofList bare.keyRule [.string "a", .int 1] = first at hfirst ⊢
  generalize KeySet.ofList bare.keyRule [.int 1, .string "b"] = second at hsecond ⊢
  intro store
  have hatoms : ∀ value, atomsInStore value → store.Built (fun atom => ∀ x, atom ≠ .decimal x) value := by
    intro value hvalue
    simp only [atomsInStore, List.mem_cons, List.not_mem_nil, or_false] at hvalue
    rcases hvalue with rfl | rfl | rfl | rfl <;> exact .atom rfl nofun
  have hexist : ∀ value, atomsInStore value → store.Has value := by
    intro value hvalue
    apply has_of_container?
    simp only [atomsInStore, List.mem_cons, List.not_mem_nil, or_false] at hvalue
    rcases hvalue with rfl | rfl | rfl | rfl <;> rfl
  have hkeys := keys_atomsStore (hfirst store).2 (hsecond store).2
  have hlists : ∀ items ∈ store.lists, ∀ item ∈ items, atomsInStore item := by
    simp [store, atomsStore, atomsInStore]
  have hwhole : store.Whole := by
    apply whole_of_storages
    · exact fun items hitems item hitem => hexist item (hlists items hitems item hitem)
    · exact fun keys hmem key hkey => hexist key (hkeys keys hmem key hkey)
    · exact fun table htable => absurd htable (Array.not_mem_empty table)
    · exact fun members hmembers => absurd hmembers (Array.not_mem_empty members)
  have hleft : store.apartFrom (store.items ⟨0⟩).toList [.int 1, .string "b"] = [.string "c"] := by
    show store.apartFrom [.int 1, .string "c", .int 1] [.int 1, .string "b"] = [.string "c"]
    rfl
  obtain ⟨hsum, -, -, -, hitems, -⟩ := set_algebra store atomsInStore
    ((keyUniverse_without_decimals store).mono hatoms) hwhole hexist ⟨0⟩ ⟨1⟩ ⟨0⟩ ⟨1⟩
    (hkeys first (by simp [atomsStore])) (hkeys second (by simp [atomsStore]))
    (by simp [store, atomsStore, items, atomsInStore]) (by simp [store, atomsStore, items, atomsInStore])
  have hsecondKeys : (store.keySet ⟨1⟩).keys.Perm [.int 1, .string "b"] := (hsecond store).2
  rw [apartFrom_perm hsecondKeys, hleft] at hitems
  exact ⟨⟨(hfirst store).1, (hsecond store).1⟩, hsum, hitems⟩

/-! ## Elements that have been changed -/

/-- Two lists, the second of one text. -/
def listsStore : Store := { bare with lists := #[#[], #[.string "a"]] }

/-- A set of both lists, after the first has got the text as well. -/
def changedElementStore (keys : KeySet Value) : Store :=
  { listsStore with sets := #[keys, Table.empty] }.changeItems ⟨0⟩ (·.push (.string "a"))

/-- The two lists. -/
def eitherList (value : Value) : Prop := value ∈ [.list ⟨0⟩, .list ⟨1⟩]

/-- The two lists can be keys if they hold no other value than one text. -/
theorem keyUniverse_eitherList (store : Store)
    (h : ∀ items ∈ store.lists, ∀ item ∈ items, item = Value.string "a") : store.KeyUniverse eitherList := by
  apply (keyUniverse_without_decimals store).mono
  have hlist : ∀ ref : Ref .list, store.Built (fun atom => ∀ x, atom ≠ .decimal x) (.list ref) := by
    apply built_list_of_storage
    intro items hitems item hitem
    rw [h items hitems item hitem]
    exact .atom rfl nofun
  intro value hvalue
  rcases List.mem_pair.mp hvalue with rfl | rfl
  · exact hlist _
  · exact hlist _

/-- **A set whose elements have been changed may hold two equal ones**, and so do its sums. -/
theorem sum_with_changed_element :
    let store := changedElementStore (KeySet.ofList listsStore.keyRule [.list ⟨0⟩, .list ⟨1⟩])
    store.KeyUniverse eitherList ∧ store.Whole ∧ (∀ value, eitherList value → store.Has value) ∧
    (∀ key ∈ (store.keySet ⟨0⟩).keys, eitherList key) ∧ (∀ key ∈ (store.keySet ⟨1⟩).keys, eitherList key) ∧
    ¬ store.GivesSet (·.add (.set ⟨0⟩) (.set ⟨1⟩)) fun ref after =>
      after.IsSetOf eitherList (fun value => store.contains (.set ⟨0⟩) value = .ok true ∨
        store.contains (.set ⟨1⟩) value = .ok true) ref := by
  have hperm : (KeySet.ofList listsStore.keyRule [.list ⟨0⟩, .list ⟨1⟩]).keys.Perm
      [.list ⟨0⟩, .list ⟨1⟩] := by
    have hlawful := (keyUniverse_eitherList listsStore (by simp [listsStore])).lawful_rule
    exact (KeySet.sound_ofList hlawful.toCoherent (fun _ h => h) (List.pairwise_pair.mpr ⟨rfl, rfl⟩)).2
  -- how the set has been filled does not matter from here on, only that both lists are in it
  generalize KeySet.ofList listsStore.keyRule [.list ⟨0⟩, .list ⟨1⟩] = keys at hperm ⊢
  intro store
  have hexist : ∀ value, eitherList value → store.Has value := by
    intro value hvalue inner hinner
    have hsize : store.lists.size = 2 := by simp [store, changedElementStore, listsStore, changeItems]
    rcases List.mem_pair.mp hvalue with rfl | rfl
    all_goals
      cases hinner
      rw [mem_containers_iff]
      simp [hsize]
  have hlists : ∀ items ∈ store.lists, ∀ item ∈ items, item = Value.string "a" := by
    have hpushed : store.lists = #[#[.string "a"], #[.string "a"]] := rfl
    simp [hpushed]
  have hkeys : ∀ key ∈ keys.keys, eitherList key := fun key hkey => hperm.subset hkey
  have hwhole : store.Whole := by
    apply whole_of_storages
    · intro items hitems item hitem
      rw [hlists items hitems item hitem]
      exact has_of_container? rfl
    · intro set hset key hkey
      rcases List.mem_pair.mp (Array.mem_toList_iff.mpr hset) with rfl | rfl
      · exact hexist key (hkeys key hkey)
      · simp [Table.keys, Table.slots_empty] at hkey
    · exact fun table htable => absurd htable (Array.not_mem_empty table)
    · exact fun members hmembers => absurd hmembers (Array.not_mem_empty members)
  refine ⟨keyUniverse_eitherList store hlists, hwhole, hexist, hkeys, ?_, ?_⟩
  · simp [store, changedElementStore, keySet, changeItems, Table.keys, Table.slots_empty]
  rintro ⟨ref, after, hcompute, hkeeps, -, hset⟩
  -- adding the empty set gives the set itself, with both lists
  have hsum : store.add (.set ⟨0⟩) (.set ⟨1⟩) = .ok (.set keys) := rfl
  have heq := (hcompute default).symm.trans (compute_of_ok hsum default)
  injection heq with hvalue hafter
  cases hvalue
  subst hafter
  have hplaced : (store.place (.set keys)).2.keySet ⟨store.sets.size⟩ = keys :=
    (Extends.push_new store.sets keys Table.empty).2
  have hapart := hset.apart
  rw [hplaced] at hapart
  have hpair := (hperm.pairwise_iff fun hab => ⟨hab.2, hab.1⟩).mp hapart
  have hdiffers := (List.pairwise_pair.mp hpair).1
  rw [hkeeps.reads.equal _ _ (hexist _ (by simp [eitherList])) (hexist _ (by simp [eitherList]))] at hdiffers
  cases hdiffers.symm.trans (show store.equal (.list ⟨0⟩) (.list ⟨1⟩) = true from rfl)

end Ckl.Store
