import Ckl.Eval
import Ckl.Proofs.Value.Extension

/-!
# Evaluating the tree of a value

Evaluating the tree that a value is written as builds a copy of the value, beside everything that is in the
store (`rebuilds_evaluate`). Elements are evaluated one after the other, so that what has been built has to
stay a copy while more storage is added; tables are filled with copies of keys that are all different, and
have these as their keys then (`Gathered`).
-/

namespace Ckl

open Collection (Table KeySet KeyRule)
open Source (Node MapItem Member)

namespace Store

variable {store before after : Store} {α β : Type}

/-! ## Work that adds storage -/

/-- Begun in a store, the work gives a result as promised, and adds storage at most. -/
def Yields (before : Store) (work : Eval α) (gives : Store → α → Prop) : Prop :=
  ∃ result after, work.run before = .ok (.ok result) after ∧ before.Extends after ∧ gives after result

/-- What is promised of the result can be said with less. -/
theorem Yields.mono {work : Eval α} {gives wide : Store → α → Prop} (h : before.Yields work gives)
    (himp : ∀ after result, before.Extends after → gives after result → wide after result) :
    before.Yields work wide := by
  obtain ⟨result, after, hrun, hextends, hgives⟩ := h
  exact ⟨result, after, hrun, hextends, himp after result hextends hgives⟩

/-- A result that is there already. -/
theorem yields_pure {gives : Store → α → Prop} {result : α} (h : gives before result) :
    before.Yields (pure result) gives :=
  ⟨result, before, rfl, .refl before, h⟩

/-- Work whose result the next work goes on with, in the store that it leaves. -/
theorem Yields.bind {work : Eval α} {next : α → Eval β} {gives : Store → α → Prop}
    {gives' : Store → β → Prop} (h : before.Yields work gives)
    (hnext : ∀ result after, before.Extends after → gives after result →
      after.Yields (next result) gives') : before.Yields (work >>= next) gives' := by
  obtain ⟨result, after, hrun, hextends, hgives⟩ := h
  obtain ⟨result', last, hrun', hextends', hgives'⟩ := hnext result after hextends hgives
  refine ⟨result', last, ?_, hextends.trans hextends', hgives'⟩
  show EStateM.bind work.run _ before = _
  unfold EStateM.bind
  rw [hrun]
  exact hrun'

/-- Work that is run without an exit. -/
theorem yields_lift {work : Run α} {gives : Store → α → Prop} {result : α}
    (hrun : work before = .ok result after) (hextends : before.Extends after)
    (hgives : gives after result) : before.Yields (liftM work : Eval α) gives := by
  refine ⟨result, after, ?_, hextends, hgives⟩
  show EStateM.bind work _ before = _
  unfold EStateM.bind
  rw [hrun]
  rfl

/-- A question leaves the store as it is. -/
theorem yields_read (question : Store → α) :
    before.Yields (liftM (Run.read question) : Eval α) fun after result =>
      after = before ∧ result = question before :=
  yields_lift rfl (.refl before) ⟨rfl, rfl⟩

/-- Something new is placed beside everything that is there. -/
theorem yields_place (fresh : Fresh) {gives : Store → Value → Prop}
    (h : gives (before.place fresh).2 (before.place fresh).1) :
    before.Yields (liftM (Run.place fresh) : Eval Value) gives :=
  yields_lift rfl (.place before fresh) h

/-- A placed list has the items that it was placed with. -/
theorem yields_placeList (items : List Value) :
    before.Yields (liftM (Run.placeList items) : Eval Value) fun after result =>
      ∃ ref, result = .list ref ∧ after.Placed (.list ref) ∧ (after.items ref).toList = items := by
  have hnew := Extends.push_new before.lists items.toArray #[]
  exact yields_place _ ⟨⟨before.lists.size⟩, rfl, hnew.1, congrArg Array.toList hnew.2⟩

/-- A placed set has the keys that it was placed with. -/
theorem yields_placeSet (keys : KeySet Value) :
    before.Yields (liftM (Run.place (.set keys)) : Eval Value) fun after result =>
      ∃ ref, result = .set ref ∧ ref.index < after.sets.size ∧ after.keySet ref = keys :=
  yields_place _ ⟨⟨before.sets.size⟩, rfl, Extends.push_new before.sets keys _⟩

/-- A placed map has the table that it was placed with. -/
theorem yields_placeMap (table : Table Value Value) :
    before.Yields (liftM (Run.place (.map table)) : Eval Value) fun after result =>
      ∃ ref, result = .map ref ∧ ref.index < after.maps.size ∧ after.table ref = table :=
  yields_place _ ⟨⟨before.maps.size⟩, rfl, Extends.push_new before.maps table _⟩

/-- A placed object has the members that it was placed with. -/
theorem yields_placeObject (members : Bindings Value) :
    before.Yields (liftM (Run.place (.object members)) : Eval Value) fun after result =>
      ∃ ref, result = .object ref ∧ after.Placed (.object ref) ∧ after.members ref = members :=
  yields_place _ ⟨⟨before.objects.size⟩, rfl, Extends.push_new before.objects members _⟩

/-- A name that is bound gives its value. -/
theorem yields_lookup {frame : FrameRef} {name : String} {value : Value} {position : Source.Position}
    (h : before.lookup? frame name = some value) :
    before.Yields (liftM (Run.lookup frame name position) : Eval Value) fun _ result =>
      result = value := by
  have hrun : Run.lookup frame name position before = .ok value before := by
    have hread : Run.read (·.lookup? frame name) before = .ok (some value) before := by
      show EStateM.Result.ok (before.lookup? frame name) before = _
      rw [h]
    simp only [Run.lookup, bind, EStateM.bind, hread]
    rfl
  exact yields_lift hrun (.refl before) rfl

/-! ## Tables of copies -/

/-- What holds between the elements of one list holds between those of a list related to it. -/
theorem pairwise_of_forall₂ {related : α → β → Prop} {as : List α} {bs : List β}
    (h : List.Forall₂ related as bs) {r : α → α → Prop} {s : β → β → Prop} (hpairwise : as.Pairwise r)
    (himp : ∀ a ∈ as, ∀ b, ∀ c ∈ as, ∀ d, related a b → related c d → r a c → s b d) :
    bs.Pairwise s := by
  induction h with
  | nil => exact .nil
  | @cons a b as bs hab hrest ih =>
    obtain ⟨hhead, htail⟩ := List.pairwise_cons.mp hpairwise
    refine List.pairwise_cons.mpr ⟨fun d hd => ?_, ih htail fun a ha b c hc d => ?_⟩
    · obtain ⟨c, hc, hcd⟩ := exists_of_mem_right hrest d hd
      exact himp a List.mem_cons_self b c (List.mem_cons_of_mem _ hc) d hab hcd (hhead c hc)
    · exact himp a (List.mem_cons_of_mem _ ha) b c (List.mem_cons_of_mem _ hc) d

/-- A table that was filled with copies of keys, each with some value. -/
structure Gathered (store cur : Store) {ν : Type} (keys : List Value) (copies : List (Value × ν))
    (table : Table Value ν) : Prop where
  keys : List.Forall₂ (Copy store cur) keys (copies.map Prod.fst)
  sound : table.Sound cur.keyRule
  perm : table.entries.Perm copies

section Tables

variable {among : Value → Prop} {ν : Type} {keys : List Value} {copies : List (Value × ν)}
  {table : Table Value ν}

/-- Before the first key nothing has been gathered. -/
theorem gathered_empty : Gathered store before [] [] (Table.empty : Table Value ν) := by
  refine ⟨.nil, Table.sound_empty, ?_⟩
  rw [Table.entries, Table.slots_empty]
  exact .nil

/-- Every key of the table is a copy of one of the keys that were gone through. -/
theorem Gathered.mem_keys (h : Gathered store before keys copies table) :
    ∀ key ∈ table.keys, ∃ p ∈ keys, Copy store before p key := by
  intro key hk
  obtain ⟨slot, hs, rfl⟩ := Store.mem_keys.mp hk
  have hmem := List.mem_map_of_mem (f := Prod.fst) (h.perm.subset (Table.entry_mem hs))
  exact exists_of_mem_right h.keys _ hmem

variable (hliterals : store.Literals among) (hkeys : ∀ key ∈ keys, among key)

include hliterals hkeys

/-- What has been gathered stays so while storage is added. -/
theorem Gathered.extend (h : Gathered store before keys copies table)
    (hextends : before.Extends after) : Gathered store after keys copies table := by
  refine ⟨forall₂_imp_of_mem h.keys fun p hp q _ hcopy => hcopy.extend hliterals (hkeys p hp) hextends,
    ?_, h.perm⟩
  refine hliterals.steady.sound h.sound fun key hk => ?_
  obtain ⟨p, hp, hcopy⟩ := h.mem_keys key hk
  exact ⟨p, hkeys p hp, hcopy, hcopy.extend hliterals (hkeys p hp) hextends⟩

/-- Storing a value under a copy of another key adds an entry. -/
theorem Gathered.insert (h : Gathered store before keys copies table) {p key : Value}
    (hp : among p) (hcopy : Copy store before p key) (hnew : ∀ q ∈ keys, store.equal q p = false)
    (value : ν) : table.contains before.keyRule key = false ∧
      Gathered store before (keys ++ [p]) (copies ++ [(key, value)])
        (table.insert before.keyRule key value) := by
  have hlawful : before.keyRule.Lawful fun q => ∃ p, among p ∧ Copy store before p q :=
    hliterals.agrees.lawful hliterals.lawful fun _ _ h => h.1
  have hslots : ∀ slot ∈ table.slots, ∃ q ∈ keys, Copy store before q slot.key :=
    fun slot hs => h.mem_keys _ (Table.key_mem hs)
  have hapart : ∀ slot ∈ table.slots, before.keyRule.same slot.key key = false := by
    intro slot hs
    obtain ⟨q, hq, hcopy'⟩ := hslots slot hs
    exact (hliterals.equal_copies (hkeys q hq) hp hcopy' hcopy).trans (hnew q hq)
  obtain ⟨habsent, hsound, hperm⟩ := h.sound.insert_new hlawful.toCoherent
    (fun slot hs => (hslots slot hs).imp fun q hq => ⟨hkeys q hq.1, hq.2⟩) ⟨p, hp, hcopy⟩ hapart value
  refine ⟨habsent, ?_, hsound, ?_⟩
  · rw [List.map_append]
    exact List.rel_append h.keys (.cons hcopy .nil)
  · exact (hperm.map _).trans ((h.perm.cons _).trans (List.perm_append_singleton _ _).symm)

omit hkeys in
/-- The order of copies of keys is total, as that of the keys is. -/
theorem Literals.copies_ordered :
    OrderLaws before.order fun q => ∃ p, (among p ∧ store.IsKey among p) ∧ Copy store before p q where
  reverse := by
    rintro q s ⟨p, hp, hpq⟩ ⟨r, hr, hrs⟩
    rw [hliterals.order_copies hp.1 hr.1 hpq hrs, hliterals.order_copies hr.1 hp.1 hrs hpq]
    exact hliterals.ordered.laws.reverse p r hp.2 hr.2
  trans := by
    rintro q s u ⟨p, hp, hpq⟩ ⟨r, hr, hrs⟩ ⟨t, ht, htu⟩
    rw [hliterals.order_copies hp.1 hr.1 hpq hrs, hliterals.order_copies hr.1 ht.1 hrs htu,
      hliterals.order_copies hp.1 ht.1 hpq htu]
    exact hliterals.ordered.laws.trans p r t hp.2 hr.2 ht.2

/-- Such a table lists its entries in the order of the keys. -/
theorem Gathered.sorted (h : Gathered store before keys copies table)
    (hkey : ∀ key ∈ keys, store.IsKey among key)
    (hstrict : keys.Pairwise fun p q => store.order p q = .lt) :
    sortBy before.order table.keys = copies.map Prod.fst ∧
      sortBy (fun p q => before.order p.1 q.1) table.entries = copies := by
  have hstrict' : (copies.map Prod.fst).Pairwise fun p q => before.order p q = .lt := by
    refine pairwise_of_forall₂ h.keys hstrict fun p hp q r hr s hpq hrs hlt => ?_
    rw [hliterals.order_copies (hkeys p hp) (hkeys r hr) hpq hrs, hlt]
  have hcopies : ∀ q ∈ copies.map Prod.fst,
      ∃ p, (among p ∧ store.IsKey among p) ∧ Copy store before p q := by
    intro q hq
    obtain ⟨p, hp, hcopy⟩ := exists_of_mem_right h.keys q hq
    exact ⟨p, ⟨hkeys p hp, hkey p hp⟩, hcopy⟩
  have hperm : table.keys.Perm (copies.map Prod.fst) := by
    have hmap := h.perm.map Prod.fst
    rwa [Table.entries, List.map_map] at hmap
  refine ⟨hliterals.copies_ordered.sortBy_eq_of_perm hcopies hperm hstrict', ?_⟩
  exact (hliterals.copies_ordered.comap Prod.fst).sortBy_eq_of_perm
    (fun q hq => hcopies _ (List.mem_map_of_mem hq)) h.perm (List.pairwise_map.mp hstrict')

end Tables

/-! ## Evaluating parts -/

/-- What holds of all elements and of one more. -/
theorem forall_mem_append_singleton {p : α → Prop} {as : List α} {a : α} (has : ∀ x ∈ as, p x)
    (ha : p a) : ∀ x ∈ as ++ [a], p x := by
  intro x hx
  rcases List.mem_append.mp hx with hx | hx
  · exact has x hx
  · exact List.mem_singleton.mp hx ▸ ha

/-- Wherever storage has been added to the store, the evaluator builds a copy of the value from its
tree. -/
def Rebuilds (store : Store) (evaluator : Evaluator) (frame : FrameRef) (value : Value) : Prop :=
  ∀ node before, (store.script value).Same node → store.Extends before →
    before.Yields (evaluator.node node frame) fun after copy => Copy store after value copy

section Parts

variable {among : Value → Prop} (hliterals : store.Literals among) {evaluator : Evaluator}
  {frame : FrameRef}

/-- An item that is not a spread one stands for its value alone. -/
theorem yields_itemValues {value : Value} {node : Node} (hvalue : store.Literal value)
    (hrebuilds : store.Rebuilds evaluator frame value) (hsame : (store.script value).Same node)
    (hextends : store.Extends before) :
    before.Yields (itemValues evaluator frame node) fun after values =>
      ∃ copy, values = [copy] ∧ Copy store after value copy := by
  have hitem : itemValues evaluator frame node = do return [← evaluator.node node frame] := by
    obtain ⟨place, form⟩ := node
    unfold itemValues
    split
    · next inner heq => exact absurd heq (hvalue.plain.not_spread hsame inner)
    · rfl
  rw [hitem]
  refine (hrebuilds node before hsame hextends).bind fun copy after _ hcopy => ?_
  exact yields_pure ⟨copy, rfl, hcopy⟩

include hliterals

/-- The items of a list are evaluated to copies. -/
theorem yields_items {values : List Value} {nodes : List Node}
    (hsame : List.Forall₂ (fun value node => (store.script value).Same node) values nodes)
    (hvalues : ∀ value ∈ values, among value ∧ store.Rebuilds evaluator frame value)
    (hextends : store.Extends before) :
    before.Yields (nodes.mapM (itemValues evaluator frame)) fun after found =>
      List.Forall₂ (Copy store after) values found.flatten := by
  have hloop : ∀ (found : List (List Value)) (done : List Value) (before : Store),
      store.Extends before → (∀ value ∈ done, among value) →
      List.Forall₂ (Copy store before) done found.reverse.flatten →
      before.Yields (List.mapM.loop (itemValues evaluator frame) nodes found) fun after found =>
        List.Forall₂ (Copy store after) (done ++ values) found.flatten := by
    induction hsame with
    | nil =>
      intro found done before _ _ hdone
      rw [List.append_nil]
      exact yields_pure hdone
    | @cons value node values nodes hsame _ ih =>
      intro found done before hextends hamong hdone
      obtain ⟨hvalue, hrebuilds⟩ := hvalues value List.mem_cons_self
      refine (yields_itemValues (hliterals.literal value hvalue) hrebuilds hsame hextends).bind ?_
      rintro _ after hafter ⟨copy, rfl, hcopy⟩
      have hmore := ih (fun value hv => hvalues value (List.mem_cons_of_mem _ hv)) ([copy] :: found)
        (done ++ [value]) after (hextends.trans hafter) ?_ ?_
      · rwa [List.append_assoc] at hmore
      · exact forall_mem_append_singleton hamong hvalue
      · rw [List.reverse_cons, List.flatten_append]
        refine List.rel_append ?_ (.cons hcopy .nil)
        exact forall₂_imp_of_mem hdone fun p hp q _ h => h.extend hliterals (hamong p hp) hafter
  exact hloop [] [] before hextends (fun _ h => nomatch h) .nil

/-- Adding an element to a set that has gathered others. -/
theorem yields_addKey {value : Value} {node : Node} (hvalue : among value)
    (hrebuilds : store.Rebuilds evaluator frame value) (hsame : (store.script value).Same node)
    {done : List Value} {copies : List (Value × Unit)} {table : KeySet Value}
    (hdone : ∀ key ∈ done, among key) (hnew : ∀ key ∈ done, store.equal key value = false)
    (hextends : store.Extends before) (h : Gathered store before done copies table) :
    before.Yields (do
      let values ← itemValues evaluator frame node
      Run.read fun store => KeySet.addAll store.keyRule table values : Eval (KeySet Value))
        fun after table => ∃ copies, Gathered store after (done ++ [value]) copies table := by
  refine (yields_itemValues (hliterals.literal value hvalue) hrebuilds hsame hextends).bind ?_
  rintro _ after hafter ⟨copy, rfl, hcopy⟩
  refine (yields_read _).mono ?_
  rintro _ _ - ⟨rfl, rfl⟩
  obtain ⟨habsent, hgathered⟩ := (h.extend hliterals hdone hafter).insert hliterals hdone hvalue hcopy
    hnew ()
  refine ⟨copies ++ [(copy, ())], ?_⟩
  rw [KeySet.addAll, List.foldl_cons, List.foldl_nil, KeySet.add_eq, habsent, if_neg Bool.false_ne_true]
  exact hgathered

/-- Adding an entry to a map that has gathered others. -/
theorem yields_addEntry {entry : Value × Value} {node : MapItem Node} (hkey : among entry.1)
    (hkeyBuilt : store.Rebuilds evaluator frame entry.1)
    (hvalueBuilt : store.Rebuilds evaluator frame entry.2)
    (hsame : Source.SameEntry (store.script entry.1, store.script entry.2) node)
    {done copies : List (Value × Value)} {table : Table Value Value}
    (hdone : ∀ other ∈ done, among other.1 ∧ among other.2)
    (hnew : ∀ other ∈ done, store.equal other.1 entry.1 = false) (hextends : store.Extends before)
    (h : Gathered store before (done.map Prod.fst) copies table)
    (hcopies : List.Forall₂ (Copy store before) (done.map Prod.snd) (copies.map Prod.snd)) :
    before.Yields (do
      let entries ← itemEntries evaluator frame node
      Run.read fun store => addEntries store table entries : Eval (Table Value Value))
        fun after table => ∃ copies, Gathered store after ((done ++ [entry]).map Prod.fst) copies table ∧
          List.Forall₂ (Copy store after) ((done ++ [entry]).map Prod.snd) (copies.map Prod.snd) := by
  obtain ⟨keyNode, valueNode, rfl, hkeySame, hvalueSame⟩ := hsame
  have hentry : before.Yields (itemEntries evaluator frame (.entry keyNode valueNode))
      fun after entries => ∃ key value, entries = [(key, value)] ∧ Copy store after entry.1 key ∧
        Copy store after entry.2 value := by
    refine (hkeyBuilt keyNode before hkeySame hextends).bind fun key middle hmiddle hcopy => ?_
    refine (hvalueBuilt valueNode middle hvalueSame (hextends.trans hmiddle)).bind ?_
    intro value after hafter hcopy'
    exact yields_pure ⟨key, value, rfl, hcopy.extend hliterals hkey hafter, hcopy'⟩
  refine hentry.bind ?_
  rintro _ after hafter ⟨key, value, rfl, hcopy, hcopy'⟩
  refine (yields_read _).mono ?_
  rintro _ _ - ⟨rfl, rfl⟩
  have hdone' : ∀ key ∈ done.map Prod.fst, among key := List.forall_mem_map.mpr fun p hp => (hdone p hp).1
  obtain ⟨-, hgathered⟩ := (h.extend hliterals hdone' hafter).insert hliterals hdone' hkey hcopy
    (List.forall_mem_map.mpr hnew) value
  refine ⟨copies ++ [(key, value)], ?_, ?_⟩
  · rw [List.map_append, addEntries, List.foldl_cons, List.foldl_nil]
    exact hgathered
  · rw [List.map_append, List.map_append]
    refine List.rel_append (forall₂_imp_of_mem hcopies fun p hp q _ hpq => ?_) (.cons hcopy' .nil)
    obtain ⟨other, ho, rfl⟩ := List.mem_map.mp hp
    exact hpq.extend hliterals (hdone other ho).2 hafter

/-- Adding a member to an object. -/
theorem yields_addMember {entry : String × Value} {node : Member Node}
    (hrebuilds : store.Rebuilds evaluator frame entry.2)
    (hsame : Member.Same ⟨entry.1, store.script entry.2⟩ node) {done : List (String × Value)}
    {bindings : Bindings Value} (hdone : ∀ other ∈ done, among other.2)
    (hnew : ∀ other ∈ done, other.1 ≠ entry.1) (hextends : store.Extends before)
    (h : List.Forall₂ (fun p q => p.1 = q.1 ∧ Copy store before p.2 q.2) done bindings.entries) :
    before.Yields (do
      return bindings.put node.name (← evaluator.node node.value frame) : Eval (Bindings Value))
        fun after bindings => List.Forall₂ (fun p q => p.1 = q.1 ∧ Copy store after p.2 q.2)
          (done ++ [entry]) bindings.entries := by
  obtain ⟨hname, hsame⟩ := hsame
  refine (hrebuilds node.value before hsame hextends).bind fun copy after hafter hcopy => ?_
  refine yields_pure ?_
  have habsent : ¬ bindings.binds node.name = true := by
    rw [Bindings.binds_iff, Bindings.names]
    intro hm
    obtain ⟨other, ho, heq⟩ := List.mem_map.mp hm
    obtain ⟨p, hp, hsame, _⟩ := exists_of_mem_right h other ho
    exact hnew p hp (hsame.trans (heq.trans hname))
  rw [Bindings.put, dif_neg habsent]
  have hold : List.Forall₂ (fun p q => p.1 = q.1 ∧ Copy store after p.2 q.2) done bindings.entries :=
    forall₂_imp_of_mem h fun p hp q _ hpq => ⟨hpq.1, hpq.2.extend hliterals (hdone p hp) hafter⟩
  exact List.rel_append hold (.cons ⟨hname.symm, hcopy⟩ .nil)

end Parts

/-- What one step of a fold carries from some elements to one more, the fold carries to all. -/
theorem yields_foldlM {γ δ σ : Type} {step : σ → γ → Eval σ} {related : δ → γ → Prop}
    (holds : List δ → Store → σ → Prop) {whole : List δ}
    (hstep : ∀ done value rest node state before, done ++ value :: rest = whole → related value node →
      store.Extends before → holds done before state →
      before.Yields (step state node) (holds (done ++ [value]))) :
    ∀ {done rest : List δ} {nodes : List γ} {state : σ} {before : Store},
      List.Forall₂ related rest nodes → done ++ rest = whole → store.Extends before →
      holds done before state → before.Yields (nodes.foldlM step state) (holds whole) := by
  intro done rest nodes state before hrelated
  induction hrelated generalizing done state before with
  | nil =>
    rintro rfl hextends h
    rw [List.append_nil]
    exact yields_pure h
  | @cons value node rest nodes hsame _ ih =>
    intro hwhole hextends h
    rw [List.foldlM_cons]
    refine (hstep done value rest node state before hwhole hsame hextends h).bind ?_
    intro state after hafter h
    exact ih (by rwa [List.append_assoc]) (hextends.trans hafter) h

/-! ## Evaluating collections -/

/-- Two lists of pairs are related as their first and as their second parts are. -/
theorem forall₂_pairs {r s : Value → Value → Prop} {as bs : List (Value × Value)}
    (h : List.Forall₂ r (as.map Prod.fst) (bs.map Prod.fst))
    (h' : List.Forall₂ s (as.map Prod.snd) (bs.map Prod.snd)) :
    List.Forall₂ (fun p q => r p.1 q.1 ∧ s p.2 q.2) as bs := by
  rw [List.forall₂_map_left_iff, List.forall₂_map_right_iff] at h h'
  exact h.mp (fun _ _ hr hs => ⟨hr, hs⟩) h'

section Collections

variable {among : Value → Prop} (hliterals : store.Literals among) {evaluator : Evaluator}
  {frame : FrameRef}

include hliterals

/-- A list is rebuilt if its items are. -/
theorem rebuilds_list {ref : Ref .list} (hlist : among (.list ref))
    (hparts : ∀ part ∈ store.held (.list ref), store.Rebuilds evaluator frame part) {nodes : List Node}
    (hsame : List.Forall₂ (fun value node => (store.script value).Same node)
      (store.items ref).toList nodes) (hextends : store.Extends before) :
    before.Yields (evaluateList evaluator frame nodes) fun after copy =>
      Copy store after (.list ref) copy := by
  have hitems : ∀ item ∈ (store.items ref).toList, among item := hliterals.held _ hlist
  refine (yields_items hliterals hsame (fun item hi => ⟨hitems item hi, hparts item hi⟩) hextends).bind ?_
  intro found after _ hcopies
  refine (yields_placeList found.flatten).mono ?_
  rintro last _ hlast ⟨copy, rfl, hplaced, hfound⟩
  refine Mirrors.copy (.list ?_) (hliterals.literal _ hlist) hplaced
  rw [hfound]
  exact forall₂_imp_of_mem hcopies fun p hp q _ h => h.extend hliterals (hitems p hp) hlast

/-- Keys in strict order are not equal to each other. -/
theorem apart_of_strict {keys : List Value} (hiskey : ∀ key ∈ keys, store.IsKey among key)
    (hstrict : keys.Pairwise fun p q => store.order p q = .lt) :
    keys.Pairwise fun p q => store.equal p q = false := by
  refine hstrict.imp_of_mem fun {p q} hp hq hlt => Bool.eq_false_iff.mpr fun heq => ?_
  rw [(hliterals.ordered.eq_iff p q (hiskey p hp) (hiskey q hq)).mpr heq] at hlt
  cases hlt

/-- A set is rebuilt if its keys are. -/
theorem rebuilds_set {ref : Ref .set} (hset : among (.set ref))
    (hparts : ∀ part ∈ store.held (.set ref), store.Rebuilds evaluator frame part) {nodes : List Node}
    (hsame : List.Forall₂ (fun value node => (store.script value).Same node)
      (store.sortedKeys ref) nodes) (hextends : store.Extends before) :
    before.Yields (evaluateSet evaluator frame nodes) fun after copy =>
      Copy store after (.set ref) copy := by
  have hkeys : ∀ key ∈ store.sortedKeys ref, among key :=
    fun key hk => hliterals.held _ hset key (mem_sortedKeys.mp hk)
  have hiskey : ∀ key ∈ store.sortedKeys ref, store.IsKey among key :=
    fun key hk => .inl ⟨ref, hset, mem_sortedKeys.mp hk⟩
  have hstrict : (store.sortedKeys ref).Pairwise fun p q => store.order p q = .lt :=
    hliterals.ordered.strict Collection.Slot.key id (fun _ => rfl) (hliterals.isUniverse.sets ref hset)
      fun key hk => .inl ⟨ref, hset, hk⟩
  have hapart := apart_of_strict hliterals hiskey hstrict
  refine (yields_foldlM (fun done cur table => ∃ copies, Gathered store cur done copies table) ?_ hsame
    (List.nil_append _) hextends ⟨[], gathered_empty⟩).bind ?_
  · rintro done value rest node table before hwhole hsame hextends ⟨copies, hgathered⟩
    have hmem : value ∈ store.sortedKeys ref :=
      hwhole ▸ List.mem_append_right done List.mem_cons_self
    rw [← hwhole] at hapart
    exact yields_addKey hliterals (hkeys value hmem) (hparts value (mem_sortedKeys.mp hmem)) hsame
      (fun key hk => hkeys key (hwhole ▸ List.mem_append_left _ hk))
      (fun key hk => (List.pairwise_append.mp hapart).2.2 key hk value List.mem_cons_self) hextends
      hgathered
  · rintro table after _ ⟨copies, hgathered⟩
    refine (yields_placeSet table).mono ?_
    rintro last _ hlast ⟨copy, rfl, hindex, hfound⟩
    have hgathered := hgathered.extend hliterals hkeys hlast
    have hsorted : last.sortedKeys copy = copies.map Prod.fst := by
      rw [sortedKeys, hfound]
      exact (hgathered.sorted hliterals hkeys hiskey hstrict).1
    refine Mirrors.copy (.set ?_) (hliterals.literal _ hset) ⟨hindex, ?_⟩
    · rw [hsorted]
      exact hgathered.keys
    · rw [hfound]
      exact hgathered.sound

/-- A map is rebuilt if its keys and values are. -/
theorem rebuilds_map {ref : Ref .map} (hmap : among (.map ref))
    (hparts : ∀ part ∈ store.held (.map ref), store.Rebuilds evaluator frame part)
    {nodes : List (MapItem Node)}
    (hsame : List.Forall₂ (fun entry node =>
      Source.SameEntry (store.script entry.1, store.script entry.2) node)
      (store.sortedEntries ref) nodes) (hextends : store.Extends before) :
    before.Yields (evaluateMap evaluator frame nodes) fun after copy =>
      Copy store after (.map ref) copy := by
  have hheld : ∀ entry ∈ store.sortedEntries ref,
      entry.1 ∈ store.held (.map ref) ∧ entry.2 ∈ store.held (.map ref) := by
    intro entry he
    have he := mem_sortedEntries.mp he
    exact ⟨mem_held_map.mpr ⟨entry, he, .inl rfl⟩, mem_held_map.mpr ⟨entry, he, .inr rfl⟩⟩
  have hamong : ∀ entry ∈ store.sortedEntries ref, among entry.1 ∧ among entry.2 := fun entry he =>
    ⟨hliterals.held _ hmap _ (hheld entry he).1, hliterals.held _ hmap _ (hheld entry he).2⟩
  have hkeys : ∀ key ∈ (store.sortedEntries ref).map Prod.fst, among key :=
    List.forall_mem_map.mpr fun entry he => (hamong entry he).1
  have hiskey : ∀ key ∈ (store.sortedEntries ref).map Prod.fst, store.IsKey among key :=
    List.forall_mem_map.mpr fun entry he => isKey_of_mem_entries hmap (mem_sortedEntries.mp he)
  have hstrict : ((store.sortedEntries ref).map Prod.fst).Pairwise fun p q => store.order p q = .lt :=
    List.pairwise_map.mpr <| hliterals.ordered.strict (fun slot => (slot.key, slot.value)) Prod.fst
      (fun _ => rfl) (hliterals.isUniverse.maps ref hmap) fun key hk => .inr ⟨ref, hmap, hk⟩
  have hapart := List.pairwise_map.mp (apart_of_strict hliterals hiskey hstrict)
  -- the invariant: the table has copies of the keys done so far, which are in strict order
  refine (yields_foldlM (fun done cur table => ∃ copies,
    Gathered store cur (done.map Prod.fst) copies table ∧
      List.Forall₂ (Copy store cur) (done.map Prod.snd) (copies.map Prod.snd)) ?_ hsame
    (List.nil_append _) hextends ⟨[], gathered_empty, .nil⟩).bind ?_
  · rintro done entry rest node table before hwhole hsame hextends ⟨copies, hgathered, hcopies⟩
    have hmem : entry ∈ store.sortedEntries ref :=
      hwhole ▸ List.mem_append_right done List.mem_cons_self
    rw [← hwhole] at hapart
    exact yields_addEntry hliterals (hamong entry hmem).1 (hparts _ (hheld entry hmem).1)
      (hparts _ (hheld entry hmem).2) hsame
      (fun other ho => hamong other (hwhole ▸ List.mem_append_left _ ho))
      (fun other ho => (List.pairwise_append.mp hapart).2.2 other ho entry List.mem_cons_self) hextends
      hgathered hcopies
  · rintro table after _ ⟨copies, hgathered, hcopies⟩
    refine (yields_placeMap table).mono ?_
    rintro last _ hlast ⟨copy, rfl, hindex, hfound⟩
    have hgathered := hgathered.extend hliterals hkeys hlast
    have hsorted : last.sortedEntries copy = copies := by
      rw [sortedEntries, sortedTable, hfound]
      exact (hgathered.sorted hliterals hkeys hiskey hstrict).2
    have hvalues : List.Forall₂ (Copy store last) ((store.sortedEntries ref).map Prod.snd)
        (copies.map Prod.snd) := by
      refine forall₂_imp_of_mem hcopies fun p hp q _ h => h.extend hliterals ?_ hlast
      obtain ⟨entry, he, rfl⟩ := List.mem_map.mp hp
      exact (hamong entry he).2
    refine Mirrors.copy (.map ?_) (hliterals.literal _ hmap) ⟨hindex, ?_⟩
    · rw [hsorted]
      exact forall₂_pairs hgathered.keys hvalues
    · rw [hfound]
      exact hgathered.sound

/-- An object is rebuilt if its members are. -/
theorem rebuilds_object {ref : Ref .object} (hobject : among (.object ref))
    (hparts : ∀ part ∈ store.held (.object ref), store.Rebuilds evaluator frame part)
    {nodes : List (Member Node)}
    (hsame : List.Forall₂ (fun entry node => Member.Same ⟨entry.1, store.script entry.2⟩ node)
      (store.members ref).entries nodes) (hextends : store.Extends before) :
    before.Yields (evaluateObject evaluator frame nodes) fun after copy =>
      Copy store after (.object ref) copy := by
  have hheld : ∀ entry ∈ (store.members ref).entries, entry.2 ∈ store.held (.object ref) :=
    fun entry he => List.mem_map_of_mem (f := Prod.snd) he
  have hamong : ∀ entry ∈ (store.members ref).entries, among entry.2 :=
    fun entry he => hliterals.held _ hobject _ (hheld entry he)
  have hdistinct : (store.members ref).entries.Pairwise fun p q => p.1 ≠ q.1 :=
    List.pairwise_map.mp (store.members ref).distinct
  refine (yields_foldlM (fun done cur (bindings : Bindings Value) =>
    List.Forall₂ (fun p q => p.1 = q.1 ∧ Copy store cur p.2 q.2) done bindings.entries) ?_ hsame
    (List.nil_append _) hextends .nil).bind ?_
  · intro done entry rest node bindings before hwhole hsame hextends hdone
    have hmem : entry ∈ (store.members ref).entries :=
      hwhole ▸ List.mem_append_right done List.mem_cons_self
    rw [← hwhole] at hdistinct
    exact yields_addMember hliterals (hparts _ (hheld entry hmem)) hsame
      (fun other ho => hamong other (hwhole ▸ List.mem_append_left _ ho))
      (fun other ho => (List.pairwise_append.mp hdistinct).2.2 other ho entry List.mem_cons_self)
      hextends hdone
  · intro bindings after _ hmembers
    refine (yields_placeObject bindings).mono ?_
    rintro last _ hlast ⟨copy, rfl, hplaced, hfound⟩
    refine Mirrors.copy (.object ?_) (hliterals.literal _ hobject) hplaced
    rw [hfound]
    exact forall₂_imp_of_mem hmembers fun p hp q _ h =>
      ⟨h.1, h.2.extend hliterals (hamong p hp) hlast⟩

/-- One step of evaluation builds a copy, if it is given an evaluator that does so for the parts. -/
theorem rebuilds_step {value : Value} (hvalue : among value)
    (hnull : store.lookup? frame "NULL" = some .null)
    (hparts : ∀ part ∈ store.held value, store.Rebuilds evaluator frame part) (rounds : Nat)
    {node : Node} (hsame : (store.script value).Same node) (hextends : store.Extends before) :
    before.Yields (step rounds evaluator node frame) fun after copy => Copy store after value copy := by
  have hliteral := hliterals.literal value hvalue
  have hatom : ∀ after, value.isAtomic = true → Copy store after value value := by
    intro after hatom
    refine Mirrors.copy (.atom hatom) hliteral ?_
    cases value <;> trivial
  rw [script_eq hliteral.acyclic] at hsame
  cases hliteral with
  | null =>
    obtain ⟨place, rfl⟩ := hsame.name
    have hfound := (hextends.lookup?_eq frame "NULL").trans hnull
    refine (yields_lookup hfound).mono ?_
    rintro after _ - rfl
    exact hatom after rfl
  | boolean =>
    obtain ⟨place, rfl⟩ := hsame.literal
    exact yields_pure (hatom before rfl)
  | int =>
    obtain ⟨place, rfl⟩ := hsame.literal
    exact yields_pure (hatom before rfl)
  | string =>
    obtain ⟨place, rfl⟩ := hsame.literal
    exact yields_pure (hatom before rfl)
  | list =>
    obtain ⟨place, nodes, rfl, hnodes⟩ := hsame.list
    exact rebuilds_list hliterals hvalue hparts (List.forall₂_map_left_iff.mp hnodes) hextends
  | set =>
    obtain ⟨place, nodes, rfl, hnodes⟩ := hsame.set
    exact rebuilds_set hliterals hvalue hparts (List.forall₂_map_left_iff.mp hnodes) hextends
  | map =>
    obtain ⟨place, nodes, rfl, hnodes⟩ := hsame.map
    exact rebuilds_map hliterals hvalue hparts (List.forall₂_map_left_iff.mp hnodes) hextends
  | object =>
    obtain ⟨place, nodes, rfl, hnodes⟩ := hsame.object
    exact rebuilds_object hliterals hvalue hparts (List.forall₂_map_left_iff.mp hnodes) hextends

/-- **Evaluating the tree of a value builds a copy of it**, if the bound is greater than the depth of the
value and the null value has its name. -/
theorem rebuilds_evaluate (hnull : store.lookup? frame "NULL" = some .null) {depth : Nat} :
    ∀ {bound : Nat} {value : Value}, among value → store.Shallow depth value → depth < bound →
      store.Rebuilds (Ckl.evaluator bound) frame value := by
  induction depth with
  | zero =>
    intro bound value hvalue hshallow hbound node before hsame hextends
    obtain ⟨bound, rfl⟩ := Nat.exists_eq_succ_of_ne_zero (Nat.ne_of_gt hbound)
    refine rebuilds_step hliterals hvalue hnull (fun part hp => ?_) bound hsame hextends
    rw [show store.held value = [] from hshallow] at hp
    cases hp
  | succ depth ih =>
    intro bound value hvalue hshallow hbound node before hsame hextends
    obtain ⟨bound, rfl⟩ := Nat.exists_eq_succ_of_ne_zero (Nat.ne_zero_of_lt hbound)
    refine rebuilds_step hliterals hvalue hnull (fun part hp => ?_) bound hsame hextends
    exact ih (hliterals.held value hvalue part hp) (hshallow part hp) (Nat.lt_of_succ_lt_succ hbound)

end Collections

end Store

end Ckl
