import Ckl.Proofs.Collection.Mixed
import Ckl.Proofs.Value.Reference
import Ckl.Proofs.Value.Uniform

/-!
# What sets and maps show

A set or map is shown in the order of its elements or keys, so what it shows should depend on these
alone and not on the changes that have led to it. For elements that are null values, truth values,
integers, texts and lists of them this holds of every set, whatever else has been added and removed. It
holds of maps as long as no two different integers in the keys equal one decimal: a key that is equal
takes the place of the one that is there, so that such a decimal replaces one of the integers, and the
other one replaces it and is there twice (`contents_decide_iff`).
-/

namespace Ckl

open Collection (Table KeySet KeyRule SetChange MapChange runChanges)
open Number (ofWhole)

/-- The atoms that neither fold nor stand against their order: null, truth values, integers, texts. -/
def Value.isSimple : Value → Bool
  | .null | .boolean _ | .int _ | .string _ => true
  | _ => false

namespace Store

variable {store : Store}

/-- Simple atoms and lists of them. -/
abbrev Simple (store : Store) : Value → Prop := store.Built fun atom => atom.isSimple = true

/-! ## Simple values -/

/-- Among simple values none folds two whole numbers into one decimal. -/
theorem not_folds_simple : ¬ Folds fun atom => atom.isSimple = true := by
  rintro ⟨_, _, _, _, _, hx, _⟩
  cases hx

/-- Simple values are plain ones. -/
theorem isPlain_of_isSimple (value : Value) (h : value.isSimple = true) : value.isPlain = true := by
  cases value <;> first | rfl | cases h

/-- The order of simple values is total and transitive. -/
theorem orderLaws_simple : OrderLaws store.order store.Simple :=
  orderLaws_built isPlain_of_isSimple not_folds_simple fun ⟨h, _⟩ => by cases h

/-- The order takes simple values as the same exactly if they are equal. -/
theorem order_eq_iff_simple {a b : Value} (ha : store.Simple a) (hb : store.Simple b) :
    store.order a b = .eq ↔ store.equal a b = true :=
  (sortable_plain isPlain_of_isSimple).order_eq_iff ha hb

/-- Simple values can be keys of a table, whatever the hashes are. -/
theorem lawful_simple (hash : String → UInt64) : (store.keyRuleBy hash).Lawful store.Simple :=
  (keyUniverse_built store not_folds_simple fun _ h => by cases h).lawful hash

/-- With more atoms more values are built. -/
theorem Built.mono {atoms more : Value → Prop} (hsub : ∀ atom, atoms atom → more atom) {value : Value}
    (h : store.Built atoms value) : store.Built more value := by
  induction h with
  | atom ha hv => exact .atom ha (hsub _ hv)
  | list _ ih => exact .list ih

/-- Equal simple values have one text. -/
theorem chars_eq_of_equal_simple {a b : Value} (ha : store.Simple a) (hb : store.Simple b)
    (h : store.equal a b = true) : store.chars a = store.chars b := by
  induction ha generalizing b with
  | atom hatom ha =>
    rw [chars_eq (acyclic_of_isAtomic hatom), chars_eq hb.acyclic]
    cases (equal_iff (acyclic_of_isAtomic hatom) hb.acyclic).mp h with
    | refl => rfl
    | wholeDecimal => cases hb.of_isAtomic rfl
    | decimals => cases ha
    | decimalWhole => cases ha
    | list => cases hatom
    | set => cases hatom
    | map => cases hatom
    | object => cases hatom
  | list hitems ih =>
    rw [chars_eq (Built.list hitems).acyclic, chars_eq hb.acyclic]
    cases (equal_iff (Built.list hitems).acyclic hb.acyclic).mp h with
    | refl => rfl
    | list hparts =>
      exact congrArg (enclosed "[" "]") (map_eq_of_forall₂ (forall₂_imp_of_mem hparts
        fun p hp q hq heq => ih p hp (hb.held q hq) heq))

/-- What equals a value that is built of atoms is built of atoms. -/
theorem built_of_equal {atoms : Value → Prop} {a b : Value} (hb : store.Built atoms b)
    (h : store.equal a b = true) : store.Built (fun _ => True) a := by
  suffices hat : ∀ depth a, store.equalAt depth a b = true → store.Built (fun _ => True) a from
    hat _ a h
  clear h
  induction hb with
  | @atom b hatom _ =>
    intro depth a h
    cases depth with
    | zero => cases h
    | succ depth =>
      refine .atom ?_ trivial
      cases a <;> cases b <;>
        first | rfl | exact absurd hatom Bool.false_ne_true | exact absurd h Bool.false_ne_true
  | @list ref hitems ih =>
    intro depth a h
    cases depth with
    | zero => cases h
    | succ depth =>
      cases a with
      | list other =>
        rcases Bool.or_eq_true_iff.mp h with hsame | hall
        · obtain rfl : other = ref := eq_of_beq hsame
          exact (Built.list hitems).mono fun _ _ => trivial
        · have hrelated := all_zip_iff.mp hall
          exact .list fun item hi => by
            obtain ⟨part, hp, heq⟩ := exists_of_mem_left hrelated item hi
            exact ih part hp depth item heq
      | _ => cases h

/-- A value that is built of atoms is built of those that are in it. -/
theorem Built.of_within {atoms inner : Value → Prop} {value : Value} (h : store.Built atoms value)
    (hinner : ∀ atom, store.Within value atom → inner atom) : store.Built inner value := by
  induction h with
  | atom ha _ => exact .atom ha (hinner _ (.inl rfl))
  | list hitems ih =>
    refine .list fun item hi => ih item hi fun atom hatom => hinner atom (.inr ?_)
    rcases hatom with rfl | hinside
    · exact .single hi
    · exact .head hi hinside

/-! ## Listings in order -/

/-- Two collections, given by what they hold and by how they list it, list it alike: each lists all of it
strictly in order, with related entries at the same places; and if they hold the same, the lists are the
same. -/
structure ListedAlike {β : Type} (store : Store) (keyOf : β → Value) (related : β → β → Prop)
    (as bs sorted sorted' : List β) : Prop where
  ascending : sorted.Pairwise fun p q => store.order (keyOf p) (keyOf q) = .lt
  ascending_other : sorted'.Pairwise fun p q => store.order (keyOf p) (keyOf q) = .lt
  complete : sorted.Perm as
  complete_other : sorted'.Perm bs
  matched : List.Forall₂ related sorted sorted'
  identical : (∀ p, p ∈ as ↔ p ∈ bs) → sorted = sorted'

/-- Each entry of one listing is related to one of the other. -/
def Matched {β : Type} (related : β → β → Prop) (as bs : List β) : Prop :=
  (∀ p ∈ as, ∃ q ∈ bs, related p q) ∧ ∀ q ∈ bs, ∃ p ∈ as, related p q

end Store

/-- Of two lists in strict order, each of whose elements is related to one of the other, related
elements are at the same places. -/
theorem OrderLaws.forall₂_of_matched {α : Type} {order : α → α → Ordering} {among : α → Prop}
    (h : OrderLaws order among) {related : α → α → Prop} {as bs : List α} (ha : ∀ a ∈ as, among a)
    (hb : ∀ b ∈ bs, among b) (hsa : as.Pairwise fun x y => order x y = .lt)
    (hsb : bs.Pairwise fun x y => order x y = .lt)
    (heq : ∀ a ∈ as, ∀ b ∈ bs, related a b → order a b = .eq) (hmatch : Store.Matched related as bs) :
    List.Forall₂ related as bs := by
  have hplaces : List.Forall₂ (fun a b => order a b = .eq) as bs := by
    refine h.forall₂_of_match ha hb hsa hsb (fun a hm => ?_) fun b hm => ?_
    · obtain ⟨b, hb', hr⟩ := hmatch.1 a hm
      exact ⟨b, hb', heq a hm b hb' hr⟩
    · obtain ⟨a, ha', hr⟩ := hmatch.2 b hm
      exact ⟨a, ha', heq a ha' b hm hr⟩
  refine Store.forall₂_imp_of_mem hplaces fun a hm b hm' hab => ?_
  obtain ⟨other, ho, hr⟩ := hmatch.1 a hm
  -- the element that `a` is related to stands where `b` does, so it is `b`
  have hback : order b other = .eq :=
    h.eq_trans (hb b hm') (ha a hm) (hb other ho) (h.eq_symm (ha a hm) (hb b hm') hab)
      (heq a hm other ho hr)
  have hapart : bs.Pairwise fun x y => order x y ≠ .eq ∧ order y x ≠ .eq := by
    refine hsb.imp_of_mem fun {x y} hx hy hlt => ?_
    rw [h.reverse x y (hb x hx) (hb y hy), hlt]
    exact ⟨nofun, nofun⟩
  by_cases hne : b = other
  · exact hne ▸ hr
  · have : Std.Symm fun x y => order x y ≠ .eq ∧ order y x ≠ .eq := ⟨fun _ _ hxy => hxy.symm⟩
    exact absurd hback (hapart.forall hm' ho hne).1

namespace Store

variable {store : Store}

section Listing

variable {β : Type} {keyOf : β → Value} {as bs : List β}

/-- Entries whose keys the order tells apart are different entries. -/
theorem nodup_of_ascending (has : ∀ p ∈ as, store.Simple (keyOf p))
    (hdistinct : as.Pairwise fun p q => store.order (keyOf p) (keyOf q) ≠ .eq) : as.Nodup :=
  hdistinct.imp_of_mem fun hp _ hne heq => hne (heq ▸ orderLaws_simple.self (has _ hp))

/-- Listings with simple keys, no two of which are equal, are listed alike if their entries match. -/
theorem listedAlike {related : β → β → Prop} (has : ∀ p ∈ as, store.Simple (keyOf p))
    (hbs : ∀ q ∈ bs, store.Simple (keyOf q))
    (hda : as.Pairwise fun p q => store.order (keyOf p) (keyOf q) ≠ .eq)
    (hdb : bs.Pairwise fun p q => store.order (keyOf p) (keyOf q) ≠ .eq)
    (hrelated : ∀ p q, related p q → store.equal (keyOf p) (keyOf q) = true)
    (hmatch : Matched related as bs) :
    store.ListedAlike keyOf related as bs
      (sortBy (fun p q => store.order (keyOf p) (keyOf q)) as)
      (sortBy (fun p q => store.order (keyOf p) (keyOf q)) bs) := by
  have hlaws := (@orderLaws_simple store).comap keyOf
  have hsa := hlaws.strict has hda
  have hsb := hlaws.strict hbs hdb
  refine ⟨hsa, hsb, perm_sortBy _ as, perm_sortBy _ bs, ?_, fun hsame => ?_⟩
  · refine hlaws.forall₂_of_matched (fun p hp => has p (mem_sortBy.mp hp))
      (fun q hq => hbs q (mem_sortBy.mp hq)) hsa hsb (fun p hp q hq hr => ?_) ?_
    · exact (order_eq_iff_simple (has p (mem_sortBy.mp hp)) (hbs q (mem_sortBy.mp hq))).mpr
        (hrelated p q hr)
    · simpa only [Matched, mem_sortBy] using hmatch
  · have hperm : as.Perm bs := (List.perm_ext_iff_of_nodup (nodup_of_ascending has hda)
      (nodup_of_ascending hbs hdb)).mpr hsame
    exact hlaws.sortBy_eq_of_perm (fun q hq => hbs q (mem_sortBy.mp hq))
      (hperm.trans (perm_sortBy _ bs).symm) hsb

end Listing

/-! ## What changes leave -/

/-- A set with simple elements that changes of an empty one have left. -/
structure SetLeft (store : Store) (hash : String → UInt64) (changes : List (SetChange Value))
    (ref : Ref .set) : Prop where
  left : store.keySet ref =
    (runChanges (SetChange.apply (store.keyRuleBy hash)) Table.empty changes).2
  simple : ∀ key ∈ (store.keySet ref).keys, store.Simple key

/-- A map with simple keys and values that changes of an empty one have left. -/
structure MapLeft (store : Store) (hash : String → UInt64) (changes : List (MapChange Value Value))
    (ref : Ref .map) : Prop where
  left : store.table ref =
    (runChanges (MapChange.apply (store.keyRuleBy hash)) Table.empty changes).2
  simple : ∀ entry ∈ (store.table ref).entries, store.Simple entry.1 ∧ store.Simple entry.2

/-- The numbers in the keys of changes are of some kind. -/
def NumbersOf (store : Store) (kind : Value → Prop) (changes : List (MapChange Value Value)) : Prop :=
  ∀ change ∈ changes, ∀ part, store.Within change.key part → part.isNumeric = true → kind part

/-- The order tells apart the keys of a set that changes have left. -/
theorem SetLeft.distinct {hash : String → UInt64} {changes : List (SetChange Value)} {ref : Ref .set}
    (h : store.SetLeft hash changes ref) :
    (store.keySet ref).keys.Pairwise fun p q => store.order p q ≠ .eq := by
  have hsound : (store.keySet ref).SoundOn (store.keyRuleBy hash) (fun _ => True) store.Simple := by
    rw [h.left]
    have hstep : ∀ (set : KeySet Value) (change : SetChange Value),
        set.SoundOn (store.keyRuleBy hash) (fun _ => True) store.Simple → change ∈ changes →
          (change.apply (store.keyRuleBy hash) set).2.SoundOn (store.keyRuleBy hash) (fun _ => True)
            store.Simple :=
      fun set change hset _ => hset.setChange (lawful_simple hash).toCoherent change trivial
    exact Collection.runChanges_keeps hstep changes _ .empty fun _ hm => hm
  refine List.pairwise_map.mpr (hsound.distinct.imp_of_mem fun {p q} hp hq hapart heq => ?_)
  have hps := h.simple p.key (Table.key_mem hp)
  have hqs := h.simple q.key (Table.key_mem hq)
  exact Bool.eq_false_iff.mp (hapart hps hqs).1 ((order_eq_iff_simple hps hqs).mp heq)

/-- Keys of changes that are built of atoms follow the laws, if no integers in them fold. -/
theorem closed_of_changes {changes : List (MapChange Value Value)} {kind : Value → Prop}
    (hfold : ¬ Folds kind) (hnumbers : store.NumbersOf kind changes) (hash : String → UInt64) :
    (store.keyRuleBy hash).Closed (fun key => ∃ change ∈ changes, key = change.key)
      (store.Built fun atom => ∃ change ∈ changes, store.Within change.key atom) := by
  have hlaws : store.EqualityLaws
      (store.Built fun atom => ∃ change ∈ changes, store.Within change.key atom) := equalityLaws_built ?_
  · refine ⟨⟨hlaws.symm, hlaws.trans, fun a b ha hb h => ?_⟩, ?_⟩
    · exact congrArg hash (key_eq_iff.mpr (ha.keyChars_eq hb h))
    · rintro a b ⟨change, hm, rfl⟩ hb h
      exact (built_of_equal hb h).of_within fun atom hatom => ⟨change, hm, hatom⟩
  · rintro ⟨m, n, x, ⟨c, hc, hm⟩, ⟨c', hc', hn⟩, ⟨c'', hc'', hx⟩, hrest⟩
    exact hfold ⟨m, n, x, hnumbers c hc _ hm rfl, hnumbers c' hc' _ hn rfl, hnumbers c'' hc'' _ hx rfl,
      hrest⟩

/-- The order tells apart the keys of a map that changes have left, unless some of them fold. -/
theorem MapLeft.distinct {hash : String → UInt64} {changes : List (MapChange Value Value)}
    {ref : Ref .map} {kind : Value → Prop} (h : store.MapLeft hash changes ref) (hfold : ¬ Folds kind)
    (hnumbers : store.NumbersOf kind changes) :
    (store.table ref).entries.Pairwise fun p q => store.order p.1 q.1 ≠ .eq := by
  have hclosed := closed_of_changes hfold hnumbers hash
  let among := store.Built fun atom => ∃ change ∈ changes, store.Within change.key atom
  let used key := ∃ change ∈ changes, key = MapChange.key change
  have hstep : ∀ (table : Table Value Value) (change : MapChange Value Value),
      table.SoundOn (store.keyRuleBy hash) used among → change ∈ changes →
        (change.apply (store.keyRuleBy hash) table).2.SoundOn (store.keyRuleBy hash) used among :=
    fun table change htable hm => htable.mapChange hclosed change ⟨change, hm, rfl⟩
  have hsound := Collection.runChanges_keeps hstep changes Table.empty .empty fun _ hm => hm
  rw [← h.left] at hsound
  refine List.pairwise_map.mpr (hsound.distinct.imp_of_mem fun {p q} hp hq hapart heq => ?_)
  have hps := (h.simple _ (Table.entry_mem hp)).1
  have hqs := (h.simple _ (Table.entry_mem hq)).1
  have hlawful : ∀ slot ∈ (store.table ref).slots, store.Simple slot.key → among slot.key := by
    intro slot hs hsimple
    obtain ⟨change, hm, hkey⟩ := hsound.keys slot hs
    exact hsimple.of_within fun atom hatom => ⟨change, hm, hkey ▸ hatom⟩
  exact Bool.eq_false_iff.mp (hapart (hlawful p hp hps) (hlawful q hq hqs)).1
    ((order_eq_iff_simple hps hqs).mp heq)

/-! ## What they show -/

/-- Two sets with equal elements show the same. -/
structure SetsShowAlike (store : Store) (a b : Ref .set) : Prop where
  listed : store.ListedAlike id (fun p q => store.equal p q = true) (store.keySet a).keys
    (store.keySet b).keys (store.sortedKeys a) (store.sortedKeys b)
  text : store.text (.set a) = store.text (.set b)
  key : store.key (.set a) = store.key (.set b)

/-- Entries with equal keys and equal values. -/
def EntriesEqual (store : Store) (p q : Value × Value) : Prop :=
  store.equal p.1 q.1 = true ∧ store.equal p.2 q.2 = true

/-- Two maps with equal entries show the same. -/
structure MapsShowAlike (store : Store) (a b : Ref .map) : Prop where
  listed : store.ListedAlike Prod.fst store.EntriesEqual (store.table a).entries
    (store.table b).entries (store.sortedEntries a) (store.sortedEntries b)
  text : store.text (.map a) = store.text (.map b)
  key : store.key (.map a) = store.key (.map b)

/-- A set of simple values does not lead back to itself. -/
theorem acyclic_set {ref : Ref .set} (h : ∀ key ∈ (store.keySet ref).keys, store.Simple key) :
    store.Acyclic (.set ref) := .intro _ fun key hk => (h key hk).acyclic

/-- A map between simple values does not lead back to itself. -/
theorem acyclic_map {ref : Ref .map}
    (h : ∀ entry ∈ (store.table ref).entries, store.Simple entry.1 ∧ store.Simple entry.2) :
    store.Acyclic (.map ref) := by
  refine .intro _ fun part hp => ?_
  obtain ⟨entry, he, rfl | rfl⟩ := mem_held_map.mp hp
  · exact (h entry he).1.acyclic
  · exact (h entry he).2.acyclic

/-- Sets that changes have left, whatever they have added and removed, show the same if they have equal
simple elements. -/
theorem sets_show_alike {hash hash' : String → UInt64} {changes changes' : List (SetChange Value)}
    {a b : Ref .set} (ha : store.SetLeft hash changes a) (hb : store.SetLeft hash' changes' b)
    (hmatch : Matched (fun p q => store.equal p q = true) (store.keySet a).keys (store.keySet b).keys) :
    store.SetsShowAlike a b := by
  have hlisted : store.ListedAlike id (fun p q => store.equal p q = true) (store.keySet a).keys
      (store.keySet b).keys (store.sortedKeys a) (store.sortedKeys b) :=
    listedAlike ha.simple hb.simple ha.distinct hb.distinct (fun _ _ h => h) hmatch
  have hread : ∀ read : Value → List Char, (∀ p q, store.Simple p → store.Simple q →
      store.equal p q = true → read p = read q) →
      (store.sortedKeys a).map read = (store.sortedKeys b).map read := fun read hsame =>
    map_eq_of_forall₂ <| forall₂_imp_of_mem hlisted.matched fun p hp q hq heq =>
      hsame p q (ha.simple p (mem_sortBy.mp hp)) (hb.simple q (mem_sortBy.mp hq)) heq
  refine ⟨hlisted, congrArg String.ofList ?_, key_eq_iff.mpr ?_⟩
  · rw [chars_eq (acyclic_set ha.simple), chars_eq (acyclic_set hb.simple)]
    exact congrArg (enclosed "<<" ">>") (hread _ fun _ _ => chars_eq_of_equal_simple)
  · rw [keyChars_eq (acyclic_set ha.simple), keyChars_eq (acyclic_set hb.simple)]
    exact congrArg (enclosed "<<" ">>") (hread _ fun _ _ => Built.keyChars_eq)

/-- Maps that changes have left show the same if they have equal simple entries, as long as no integers in
the keys of the changes fold. -/
theorem maps_show_alike {kind : Value → Prop} (hfold : ¬ Folds kind) {hash hash' : String → UInt64}
    {changes changes' : List (MapChange Value Value)} (hkind : store.NumbersOf kind changes)
    (hkind' : store.NumbersOf kind changes') {a b : Ref .map} (ha : store.MapLeft hash changes a)
    (hb : store.MapLeft hash' changes' b)
    (hmatch : Matched store.EntriesEqual (store.table a).entries (store.table b).entries) :
    store.MapsShowAlike a b := by
  have hlisted : store.ListedAlike Prod.fst store.EntriesEqual (store.table a).entries
      (store.table b).entries (store.sortedEntries a) (store.sortedEntries b) :=
    listedAlike (fun p hp => (ha.simple p hp).1) (fun q hq => (hb.simple q hq).1)
      (ha.distinct hfold hkind) (hb.distinct hfold hkind') (fun _ _ h => h.1) hmatch
  have hread : ∀ read : Value → List Char, (∀ p q, store.Simple p → store.Simple q →
      store.equal p q = true → read p = read q) →
      (store.sortedEntries a).map (fun entry => read entry.1 ++ " => ".toList ++ read entry.2) =
        (store.sortedEntries b).map fun entry => read entry.1 ++ " => ".toList ++ read entry.2 := by
    intro read hsame
    refine map_eq_of_forall₂ (forall₂_imp_of_mem hlisted.matched fun p hp q hq heq => ?_)
    have hps := ha.simple p (mem_sortBy.mp hp)
    have hqs := hb.simple q (mem_sortBy.mp hq)
    rw [hsame _ _ hps.1 hqs.1 heq.1, hsame _ _ hps.2 hqs.2 heq.2]
  refine ⟨hlisted, congrArg String.ofList ?_, key_eq_iff.mpr ?_⟩
  · rw [chars_eq (acyclic_map ha.simple), chars_eq (acyclic_map hb.simple)]
    exact congrArg (enclosed "<<<" ">>>") (hread _ fun _ _ => chars_eq_of_equal_simple)
  · rw [keyChars_eq (acyclic_map ha.simple), keyChars_eq (acyclic_map hb.simple)]
    exact congrArg (enclosed "<<<" ">>>") (hread _ fun _ _ => Built.keyChars_eq)

/-! ## A key that is there twice -/

/-- The first of two integers that equal one decimal is replaced by the decimal, and that by the other
integer, which is there already. -/
def foldingChanges (m n : Int64) (x : Float) (first second : Value) : List (MapChange Value Value) :=
  [.insert (.int m) .null, .insert (.int n) second, .insert (.decimal x) .null, .insert (.int n) first]

/-- A small table whose entries lie in one bucket. -/
def oneBucket (hash : UInt64) (slots : List (Collection.Slot Value Value)) : Table Value Value :=
  ⟨(Array.replicate 5 []).modify (Table.bucketOf 5 hash) fun _ => slots, slots.length⟩

section OneBucket

variable (hash : UInt64) (slots : List (Collection.Slot Value Value))

theorem size_oneBucket : (oneBucket hash slots).size = 5 := by
  simp only [oneBucket, Table.size, Array.size_modify, Array.size_replicate]

theorem bucket_oneBucket : (oneBucket hash slots).bucket hash = slots := by
  have hlt : Table.bucketOf 5 hash < 5 := Table.bucketOf_lt (by decide) hash
  rw [Table.bucket, size_oneBucket]
  simp [oneBucket, hlt, Array.getElem_modify]

theorem slots_oneBucket : (oneBucket hash slots).slots = slots := by
  have hlt : Table.bucketOf 5 hash <
      (Array.replicate 5 ([] : List (Collection.Slot Value Value))).size := by
    rw [Array.size_replicate]
    exact Table.bucketOf_lt (by decide) hash
  obtain ⟨before, after, hold, hnew⟩ := Table.slots_modify_split hlt
  rw [Table.flatten_replicate_nil] at hold
  obtain ⟨⟨rfl, -⟩, rfl⟩ : (before = [] ∧ _ = []) ∧ after = [] := by
    simpa only [List.append_eq_nil_iff] using hold.symm
  show ((Array.replicate 5 []).modify (Table.bucketOf 5 hash) fun _ => slots).toList.flatten = slots
  rw [hnew, List.nil_append, List.append_nil]

/-- A change of the bucket of the hash is a change of all slots. -/
theorem modify_oneBucket
    (change : List (Collection.Slot Value Value) → List (Collection.Slot Value Value)) :
    (oneBucket hash slots).buckets.modify (Table.bucketOf 5 hash) change =
      (oneBucket hash (change slots)).buckets := by
  refine Array.ext (by simp only [oneBucket, Array.size_modify]) fun index _ _ => ?_
  simp only [oneBucket, Array.getElem_modify]
  split <;> rfl

/-- The empty table has nothing in the bucket of any hash. -/
theorem empty_eq_oneBucket : (Table.empty : Table Value Value) = oneBucket hash [] := by
  refine congrArg (Table.mk · 0) (Array.ext (by simp only [Array.size_modify]; rfl) fun index hi _ => ?_)
  simp [Array.getElem_modify]

variable {hash slots} {rule : KeyRule Value} {key : Value} (hhash : rule.hash key = hash) (value : Value)

include hhash

/-- A new key is put behind the slots of its hash while there is room. -/
theorem insert_oneBucket_new (hnew : ∀ slot ∈ slots, rule.same slot.key key = false)
    (hlength : slots.length < 5) :
    (oneBucket hash slots).insert rule key value =
      oneBucket hash (slots ++ [⟨hash, key, value⟩]) := by
  have hlocate : (oneBucket hash slots).locate hash (fun entry => rule.same entry key) = none := by
    rw [Table.locate, bucket_oneBucket, List.findIdx?_eq_none_iff]
    exact hnew
  have hsize : ∀ count ≤ 5, Collection.resized 5 count = 5 := by decide
  rw [Table.insert_eq, hhash, hlocate, Table.place_none, Table.addSlot]
  have hmodify := modify_oneBucket hash slots (· ++ [Collection.Slot.mk hash key value])
  rw [show (oneBucket hash slots).buckets.size = 5 from size_oneBucket hash slots, hmodify]
  have hcount : (oneBucket hash slots).count + 1 =
      (slots ++ [Collection.Slot.mk hash key value]).length := by
    rw [List.length_append]
    rfl
  rw [hcount]
  have hle : (oneBucket hash (slots ++ [Collection.Slot.mk hash key value])).count ≤ 5 :=
    hcount.symm.trans_le hlength
  have hfit : (oneBucket hash (slots ++ [Collection.Slot.mk hash key value])).fit =
      oneBucket hash (slots ++ [Collection.Slot.mk hash key value]) := by
    rw [Table.fit, size_oneBucket, if_pos (hsize _ hle)]
  exact hfit

/-- A key that is there at the front keeps its slot and gets the new value. -/
theorem insert_oneBucket_at {old : Collection.Slot Value Value}
    {rest : List (Collection.Slot Value Value)}
    (hsame : rule.same old.key key = true) :
    (oneBucket hash (old :: rest)).insert rule key value =
      oneBucket hash (⟨old.hash, key, value⟩ :: rest) := by
  have hlocate :
      (oneBucket hash (old :: rest)).locate hash (fun entry => rule.same entry key) = some 0 := by
    rw [Table.locate, bucket_oneBucket, List.findIdx?_cons, hsame]
    rfl
  rw [Table.insert_eq, hhash, hlocate, Table.place_some, size_oneBucket, modify_oneBucket]
  rfl

end OneBucket

/-- What the changes leave when a decimal is the same key as one whole number and then as the other. -/
theorem run_foldingChanges {rule : KeyRule Value} {hash : UInt64} {m n : Int64} {x : Float}
    (hhash : ∀ key ∈ [.int m, .int n, .decimal x], rule.hash key = hash)
    (hmn : rule.same (.int m) (.int n) = false) (hmx : rule.same (.int m) (.decimal x) = true)
    (hxn : rule.same (.decimal x) (.int n) = true) (first second : Value) :
    (runChanges (MapChange.apply rule) Table.empty (foldingChanges m n x first second)).2 =
      oneBucket hash [⟨hash, .int n, first⟩, ⟨hash, .int n, second⟩] := by
  have hm := hhash (.int m) (by simp)
  have hn := hhash (.int n) (by simp)
  have hx := hhash (.decimal x) (by simp)
  have hone : Table.empty.insert rule (.int m) .null =
      oneBucket hash [⟨hash, .int m, .null⟩] := by
    rw [empty_eq_oneBucket hash]
    exact insert_oneBucket_new hm _ (by simp) (by decide)
  have htwo : (oneBucket hash [⟨hash, .int m, .null⟩]).insert rule (.int n) second =
      oneBucket hash [⟨hash, .int m, .null⟩, ⟨hash, .int n, second⟩] :=
    insert_oneBucket_new hn _ (by simpa using hmn) (by simp)
  have hthree : (oneBucket hash [⟨hash, .int m, .null⟩, ⟨hash, .int n, second⟩]).insert rule
      (.decimal x) .null = oneBucket hash [⟨hash, .decimal x, .null⟩, ⟨hash, .int n, second⟩] :=
    insert_oneBucket_at hx _ hmx
  have hfour : (oneBucket hash [⟨hash, .decimal x, .null⟩, ⟨hash, .int n, second⟩]).insert rule
      (.int n) first = oneBucket hash [⟨hash, .int n, first⟩, ⟨hash, .int n, second⟩] :=
    insert_oneBucket_at hn _ hxn
  simp only [foldingChanges, Collection.snd_runChanges_cons, MapChange.snd_apply_insert, hone, htwo, hthree,
    hfour, Collection.snd_runChanges_nil]

theorem entries_oneBucket (hash : UInt64) (n : Int64) (first second : Value) :
    (oneBucket hash [⟨hash, .int n, first⟩, ⟨hash, .int n, second⟩]).entries =
      [(.int n, first), (.int n, second)] := by
  rw [Table.entries, slots_oneBucket]
  rfl

/-- The hash of the key text of a decimal. -/
def decimalHash (hash : String → UInt64) (x : Float) : UInt64 :=
  hash (String.ofList (Number.decimalKey x))

/-- The keys of the changes are numbers of the kind. -/
theorem numbersOf_foldingChanges {kind : Value → Prop} {m n : Int64} {x : Float} (hm : kind (.int m))
    (hn : kind (.int n)) (hx : kind (.decimal x)) (first second : Value) :
    store.NumbersOf kind (foldingChanges m n x first second) := by
  have hatom : ∀ {key part : Value}, key.isAtomic = true → store.Within key part → key = part := by
    rintro key part hatom (rfl | hinside)
    · rfl
    · obtain ⟨_, hheld, _⟩ := Relation.TransGen.head'_iff.mp hinside
      rw [held_of_isAtomic hatom] at hheld
      cases hheld
  simp only [NumbersOf, foldingChanges, List.forall_mem_cons, List.not_mem_nil, false_implies,
    implies_true, and_true, MapChange.key]
  refine ⟨fun part h _ => hatom rfl h ▸ hm, fun part h _ => hatom rfl h ▸ hn,
    fun part h _ => hatom rfl h ▸ hx, fun part h _ => hatom rfl h ▸ hn⟩

/-- In every store these changes leave a map that has a key twice. -/
theorem mapLeft_twice {store : Store} {hash : String → UInt64} {m n : Int64} {x : Float} (hne : m ≠ n)
    (hm : (ofWhole m == x) = true) (hn : (ofWhole n == x) = true) {first second : Value}
    (hfirst : store.Simple first) (hsecond : store.Simple second) {ref : Ref .map}
    (htable : store.table ref = oneBucket (decimalHash hash x)
      [⟨decimalHash hash x, .int n, first⟩, ⟨decimalHash hash x, .int n, second⟩]) :
    store.MapLeft hash (foldingChanges m n x first second) ref := by
  have hread : ∀ key, key.isAtomic = true →
      store.key key = String.ofList (store.keyStep store.keyChars store.order key) := fun key hkey =>
    congrArg String.ofList (keyChars_eq (acyclic_of_isAtomic hkey))
  have hhash : ∀ key ∈ [.int m, .int n, .decimal x],
      (store.keyRuleBy hash).hash key = decimalHash hash x := by
    simp only [List.forall_mem_cons, List.not_mem_nil, false_implies, implies_true, and_true]
    refine ⟨congrArg hash ((hread _ rfl).trans ?_), congrArg hash ((hread _ rfl).trans ?_),
      congrArg hash (hread _ rfl)⟩
    · exact congrArg String.ofList (Number.decimalKey_eq_of_beq hm)
    · exact congrArg String.ofList (Number.decimalKey_eq_of_beq hn)
  have hmn : (store.keyRuleBy hash).same (.int m) (.int n) = false := beq_false_of_ne hne
  have hxn : (store.keyRuleBy hash).same (.decimal x) (.int n) = true := (Number.beq_comm x _).trans hn
  refine ⟨htable.trans (run_foldingChanges hhash hmn hm hxn first second).symm, fun entry he => ?_⟩
  rw [htable, entries_oneBucket] at he
  have hkey : store.Simple (.int n) := .atom rfl rfl
  rcases List.mem_pair.mp he with rfl | rfl
  · exact ⟨hkey, hfirst⟩
  · exact ⟨hkey, hsecond⟩

/-- Entries of one key stay as they are when they are sorted. -/
theorem sortBy_twice (store : Store) (n : Int64) (first second : Value) :
    sortBy (fun p q => store.order p.1 q.1) [(.int n, first), (.int n, second)] =
      [(.int n, first), (.int n, second)] := by
  have heq : store.order (.int n) (.int n) = .eq :=
    compare_eq_iff_eq.mpr (rfl : n.toInt = n.toInt)
  simp [sortBy, List.mergeSort, heq]

/-- The text of a map that has one key twice. -/
theorem chars_twice {ref : Ref .map} {n k l : Int64} (h : store.Acyclic (.map ref))
    (hentries : (store.table ref).entries = [(.int n, .int k), (.int n, .int l)]) :
    store.chars (.map ref) = enclosed "<<<" ">>>"
      [Number.wholeText n.toInt ++ " => ".toList ++ Number.wholeText k.toInt,
        Number.wholeText n.toInt ++ " => ".toList ++ Number.wholeText l.toInt] := by
  have hchars : ∀ n, store.chars (.int n) = Number.wholeText n.toInt := fun n =>
    chars_eq (acyclic_of_isAtomic rfl)
  refine (chars_eq h).trans (congrArg (enclosed "<<<" ">>>") ?_)
  rw [hentries, sortBy_twice, List.map_cons, List.map_cons, List.map_nil, hchars, hchars, hchars]

/-- **What maps show is decided by what they hold exactly where no integers fold.** Whatever the hashes
and whatever has been added and removed, sets with equal simple elements show the same. Maps with equal
simple entries do so for keys whose numbers are of some kind if and only if no two different integers of
this kind equal one decimal of it. -/
theorem contents_decide_iff (kind : Value → Prop) :
    (∀ (store : Store) (hash hash' : String → UInt64) (changes changes' : List (SetChange Value))
      (a b : Ref .set), store.SetLeft hash changes a → store.SetLeft hash' changes' b →
      Matched (fun p q => store.equal p q = true) (store.keySet a).keys (store.keySet b).keys →
      store.SetsShowAlike a b) ∧
    ((∀ (store : Store) (hash hash' : String → UInt64) (changes changes' : List (MapChange Value Value))
      (a b : Ref .map), store.NumbersOf kind changes → store.NumbersOf kind changes' →
      store.MapLeft hash changes a → store.MapLeft hash' changes' b →
      Matched store.EntriesEqual (store.table a).entries (store.table b).entries →
      store.MapsShowAlike a b) ↔ ¬ Folds kind) := by
  refine ⟨fun _ _ _ _ _ _ _ ha hb hmatch => sets_show_alike ha hb hmatch, ?_, ?_⟩
  · rintro hall ⟨m, n, x, hm, hn, hx, hne, heqm, heqn⟩
    let store := { bare with maps := #[oneBucket (decimalHash Text.hash x)
      [⟨decimalHash Text.hash x, .int n, .null⟩, ⟨decimalHash Text.hash x, .int n, .null⟩]] }
    have hnull : store.Simple .null := .atom rfl rfl
    have hleft : store.MapLeft Text.hash (foldingChanges m n x .null .null) ⟨0⟩ :=
      mapLeft_twice hne heqm heqn hnull hnull rfl
    have hkind : store.NumbersOf kind (foldingChanges m n x .null .null) :=
      numbersOf_foldingChanges hm hn hx _ _
    have hself : ∀ {value}, store.Simple value → store.equal value value = true :=
      (lawful_simple Text.hash).refl _
    have hshow := hall store Text.hash Text.hash _ _ ⟨0⟩ ⟨0⟩ hkind hkind hleft hleft
      ⟨fun p hp => ⟨p, hp, hself (hleft.simple p hp).1, hself (hleft.simple p hp).2⟩,
        fun p hp => ⟨p, hp, hself (hleft.simple p hp).1, hself (hleft.simple p hp).2⟩⟩
    have hentries : store.sortedEntries ⟨0⟩ = [(.int n, .null), (.int n, .null)] := by
      show sortBy _ (oneBucket _ _).entries = _
      rw [entries_oneBucket, sortBy_twice]
    have hascending := hshow.listed.ascending
    rw [hentries, List.pairwise_pair, orderLaws_simple.self (.atom rfl rfl)] at hascending
    cases hascending
  · intro hfold store hash hash' changes changes' a b hkind hkind' ha hb hmatch
    exact maps_show_alike hfold hkind hkind' ha hb hmatch

/-- The double nearest to `2 ^ 53 + 1` is `2 ^ 53`: two maps with the same entries, whose keys and values
are integers, and two texts. -/
theorem texts_differ_at_fold :
    let hash := decimalHash Text.hash (ofWhole 9007199254740992)
    let store := { bare with maps := #[
      oneBucket hash [⟨hash, .int 9007199254740992, .int 1⟩, ⟨hash, .int 9007199254740992, .int 2⟩],
      oneBucket hash [⟨hash, .int 9007199254740992, .int 2⟩, ⟨hash, .int 9007199254740992, .int 1⟩]] }
    let changes := foldingChanges 9007199254740993 9007199254740992 (ofWhole 9007199254740992)
    store.MapLeft Text.hash (changes (.int 1) (.int 2)) ⟨0⟩ ∧
      store.MapLeft Text.hash (changes (.int 2) (.int 1)) ⟨1⟩ ∧
      (store.table ⟨0⟩).entries.Perm (store.table ⟨1⟩).entries ∧
      store.text (.map ⟨0⟩) ≠ store.text (.map ⟨1⟩) ∧
      ¬ (store.sortedEntries ⟨0⟩).Pairwise fun p q => store.order p.1 q.1 = .lt := by
  intro hash store changes
  have hne : (9007199254740993 : Int64) ≠ 9007199254740992 := by decide
  have hint : ∀ n, store.Simple (.int n) := fun n => .atom rfl rfl
  have hleft : store.MapLeft Text.hash (changes (.int 1) (.int 2)) ⟨0⟩ :=
    mapLeft_twice hne (by decide) (by decide) (hint 1) (hint 2) rfl
  have hright : store.MapLeft Text.hash (changes (.int 2) (.int 1)) ⟨1⟩ :=
    mapLeft_twice hne (by decide) (by decide) (hint 2) (hint 1) rfl
  have hfirst : (store.table ⟨0⟩).entries =
      [(.int 9007199254740992, .int 1), (.int 9007199254740992, .int 2)] := entries_oneBucket _ _ _ _
  have hsecond : (store.table ⟨1⟩).entries =
      [(.int 9007199254740992, .int 2), (.int 9007199254740992, .int 1)] := entries_oneBucket _ _ _ _
  refine ⟨hleft, hright, ?_, ?_, ?_⟩
  · rw [hfirst, hsecond]
    exact .swap _ _ _
  · intro heq
    have heq : store.chars (.map ⟨0⟩) = store.chars (.map ⟨1⟩) := String.ofList_injective heq
    rw [chars_twice (acyclic_map hleft.simple) hfirst,
      chars_twice (acyclic_map hright.simple) hsecond] at heq
    exact absurd heq (by decide +kernel)
  · rw [sortedEntries, sortedTable, hfirst, sortBy_twice, List.pairwise_pair,
      orderLaws_simple.self (hint _)]
    decide

end Store

end Ckl
