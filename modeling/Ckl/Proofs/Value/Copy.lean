import Ckl.Proofs.Value.Literal

/-!
# Copies

A value of another store is a copy if it is written as the same tree. Copies of values whose keys are in
order read as these: they are equal, have keys and are ordered as the values are, whatever storages they
use and whatever else is in their store (`Literals.equal_copies`, `Literals.keyChars_copies`,
`Literals.order_copies`). The first two go from the values inside to those that hold them (`Agrees.step`).
-/

namespace Ckl

open Collection (Table KeySet KeyRule)
open Source (Node Form)

section Lists

variable {α β : Type} {related : α → β → Prop}

/-- What is on the left is related to something on the right, -/
theorem exists_of_mem_left {as : List α} {bs : List β} (h : List.Forall₂ related as bs) :
    ∀ a ∈ as, ∃ b ∈ bs, related a b := by
  induction h with
  | nil => exact nofun
  | cons hab _ ih =>
    refine List.forall_mem_cons.mpr ⟨⟨_, List.mem_cons_self, hab⟩, fun a ha => ?_⟩
    obtain ⟨b, hb, hab⟩ := ih a ha
    exact ⟨b, List.mem_cons_of_mem _ hb, hab⟩

/-- and what is on the right to something on the left. -/
theorem exists_of_mem_right {as : List α} {bs : List β} (h : List.Forall₂ related as bs) :
    ∀ b ∈ bs, ∃ a ∈ as, related a b :=
  exists_of_mem_left (List.Forall₂.flip (R := fun b a => related a b) h)

/-- The first ones are related, -/
theorem exists_of_head? {as : List α} {bs : List β} (h : List.Forall₂ related as bs) {b : β}
    (hb : b ∈ bs.head?) : ∃ a ∈ as.head?, related a b := by
  cases h with
  | nil => cases hb
  | cons hab =>
    cases hb
    exact ⟨_, rfl, hab⟩

/-- and the last ones. -/
theorem exists_of_getLast? {as : List α} {bs : List β} (h : List.Forall₂ related as bs) {b : β}
    (hb : b ∈ bs.getLast?) : ∃ a ∈ as.getLast?, related a b := by
  rw [← List.head?_reverse] at hb ⊢
  exact exists_of_head? (List.forall₂_reverse_iff.mpr h) hb

variable {as cs : List α} {bs ds : List β}

/-- Matching elements of two lists can be asked for in related lists. -/
theorem matched_iff {r : α → α → Prop} {s : β → β → Prop} (hab : List.Forall₂ related as bs)
    (hcd : List.Forall₂ related cs ds)
    (h : ∀ a b c d, related a b → related c d → (r a c ↔ s b d)) :
    (∀ a ∈ as, ∃ c ∈ cs, r a c) ↔ ∀ b ∈ bs, ∃ d ∈ ds, s b d := by
  constructor
  · intro hall b hb
    obtain ⟨a, ha, hab⟩ := exists_of_mem_right hab b hb
    obtain ⟨c, hc, hac⟩ := hall a ha
    obtain ⟨d, hd, hcd⟩ := exists_of_mem_left hcd c hc
    exact ⟨d, hd, (h a b c d hab hcd).mp hac⟩
  · intro hall a ha
    obtain ⟨b, hb, hab⟩ := exists_of_mem_left hab a ha
    obtain ⟨d, hd, hbd⟩ := hall b hb
    obtain ⟨c, hc, hcd⟩ := exists_of_mem_right hcd d hd
    exact ⟨c, hc, (h a b c d hab hcd).mpr hbd⟩

/-- Related lists stand in a relation itemwise if that is so of related items. -/
theorem forall₂_iff_of_related {r : α → α → Prop} {s : β → β → Prop}
    (hab : List.Forall₂ related as bs) (hcd : List.Forall₂ related cs ds)
    (h : ∀ a b c d, related a b → related c d → (r a c ↔ s b d)) :
    List.Forall₂ r as cs ↔ List.Forall₂ s bs ds := by
  induction hab generalizing cs ds with
  | nil =>
    cases hcd with
    | nil => exact iff_of_true .nil .nil
    | cons => exact iff_of_false nofun nofun
  | cons hab _ ih =>
    cases hcd with
    | nil => exact iff_of_false nofun nofun
    | cons hcd hcds => rw [List.forall₂_cons, List.forall₂_cons, h _ _ _ _ hab hcd, ih hcds]

/-- The order of lists is that of related lists. -/
theorem orderLists_eq_of_related {order : α → α → Ordering} {order' : β → β → Ordering}
    (hab : List.Forall₂ related as bs) (hcd : List.Forall₂ related cs ds)
    (h : ∀ a ∈ as, ∀ b c d, related a b → related c d → order a c = order' b d) :
    orderLists order as cs = orderLists order' bs ds := by
  induction hab generalizing cs ds with
  | nil => cases hcd <;> rfl
  | cons hab _ ih =>
    cases hcd with
    | nil => rfl
    | cons hcd hcds =>
      simp only [orderLists, h _ List.mem_cons_self _ _ _ hab hcd,
        ih hcds fun a ha => h a (List.mem_cons_of_mem _ ha)]

end Lists

/-- Whether a value is an atom is told by its type, -/
theorem Value.isAtomic_eq_of_type {a b : Value} (h : a.type = b.type) : a.isAtomic = b.isAtomic := by
  cases a <;> cases b <;> first | rfl | cases h

/-- and so is its family. -/
theorem Value.family_eq_of_type {a b : Value} (h : a.type = b.type) : a.family = b.family := by
  cases a <;> cases b <;> first | rfl | cases h

namespace Store

variable {store other : Store}

/-- A value of another store that is written as the same tree. -/
structure Copy (store other : Store) (value copy : Value) : Prop where
  literal : other.Literal copy
  script_eq : other.script copy = store.script value

/-- What a value and its copy have in common: the same atom, or parts that are related one by one. -/
inductive Mirrors (store other : Store) (related : Value → Value → Prop) : Value → Value → Prop
  | atom {value : Value} : value.isAtomic = true → Mirrors store other related value value
  | list {a b : Ref .list} : List.Forall₂ related (store.items a).toList (other.items b).toList →
      Mirrors store other related (.list a) (.list b)
  | set {a b : Ref .set} : List.Forall₂ related (store.sortedKeys a) (other.sortedKeys b) →
      Mirrors store other related (.set a) (.set b)
  | map {a b : Ref .map} :
      List.Forall₂ (fun p q => related p.1 q.1 ∧ related p.2 q.2) (store.sortedEntries a)
        (other.sortedEntries b) →
      Mirrors store other related (.map a) (.map b)
  | object {a b : Ref .object} :
      List.Forall₂ (fun p q => p.1 = q.1 ∧ related p.2 q.2) (store.members a).entries
        (other.members b).entries →
      Mirrors store other related (.object a) (.object b)

/-- What mirrors a value is of its type. -/
theorem Mirrors.type_eq {related : Value → Value → Prop} {value copy : Value}
    (h : Mirrors store other related value copy) : value.type = copy.type := by
  cases h <;> rfl

/-- The relation between what is held may be replaced by one that is implied where it matters. -/
theorem Mirrors.imp {related closer : Value → Value → Prop} {value copy : Value}
    (h : Mirrors store other related value copy)
    (himp : ∀ p ∈ store.held value, ∀ q, related p q → closer p q) :
    Mirrors store other closer value copy := by
  cases h with
  | atom hatom => exact .atom hatom
  | list hitems => exact .list (forall₂_imp_of_mem hitems fun p hp q _ => himp p hp q)
  | set hkeys =>
    exact .set (forall₂_imp_of_mem hkeys fun p hp q _ => himp p (mem_sortedKeys.mp hp) q)
  | map hentries =>
    refine .map (forall₂_imp_of_mem hentries fun p hp q _ h => ?_)
    have hp := mem_sortedEntries.mp hp
    exact ⟨himp _ (mem_held_map.mpr ⟨p, hp, .inl rfl⟩) _ h.1,
      himp _ (mem_held_map.mpr ⟨p, hp, .inr rfl⟩) _ h.2⟩
  | object hmembers =>
    refine .object (forall₂_imp_of_mem hmembers fun p hp q _ h => ⟨h.1, ?_⟩)
    exact himp _ (List.mem_map_of_mem (f := Prod.snd) hp) _ h.2

/-- Lists with the same images are related by them. -/
theorem forall₂_of_map_eq {α β γ : Type} {f : α → γ} {g : β → γ} :
    ∀ {as : List α} {bs : List β}, as.map f = bs.map g → List.Forall₂ (fun a b => f a = g b) as bs
  | [], [], _ => .nil
  | [], _ :: _, h => nomatch h
  | _ :: _, [], h => nomatch h
  | _ :: _, _ :: _, h => .cons (List.cons.inj h).1 (forall₂_of_map_eq (List.cons.inj h).2)

/-- A value and its copy are the same atom or have copies as their parts. -/
theorem Copy.mirrors {value copy : Value} (h : Copy store other value copy)
    (hvalue : store.Literal value) : Mirrors store other (Copy store other) value copy := by
  have hscript := h.script_eq
  have hheld := h.literal.held
  rw [Store.script_eq h.literal.acyclic, Store.script_eq hvalue.acyclic] at hscript
  obtain ⟨hliteral, -⟩ := h
  -- the trees agree, so that value and copy are of one type and their parts agree in order
  cases hvalue with
  | null =>
    cases hliteral with
    | null => exact .atom rfl
    | _ => cases hscript
  | boolean value =>
    cases hliteral with
    | boolean value => cases hscript; exact .atom rfl
    | _ => cases hscript
  | int =>
    cases hliteral with
    | int => cases hscript; exact .atom rfl
    | _ => cases hscript
  | string =>
    cases hliteral with
    | string => cases hscript; exact .atom rfl
    | _ => cases hscript
  | list =>
    cases hliteral with
    | list _ hitems =>
      have hmap := Form.list.inj (Node.mk.inj hscript).2
      refine .list (List.Forall₂.flip (forall₂_imp_of_mem (forall₂_of_map_eq hmap) ?_))
      exact fun q hq p _ heq => ⟨hheld q hq, heq⟩
    | _ => cases hscript
  | set =>
    cases hliteral with
    | set =>
      have hmap := Form.set.inj (Node.mk.inj hscript).2
      refine .set (List.Forall₂.flip (forall₂_imp_of_mem (forall₂_of_map_eq hmap) ?_))
      exact fun q hq p _ heq => ⟨hheld q (mem_sortedKeys.mp hq), heq⟩
    | _ => cases hscript
  | map =>
    cases hliteral with
    | map =>
      have hmap := Form.map.inj (Node.mk.inj hscript).2
      rw [List.map_map, List.map_map] at hmap
      refine .map (List.Forall₂.flip (forall₂_imp_of_mem (forall₂_of_map_eq hmap) ?_))
      intro q hq p _ heq
      have hq := mem_sortedEntries.mp hq
      obtain ⟨hkey, hvalue⟩ := Source.MapItem.entry.inj heq
      exact ⟨⟨hheld _ (mem_held_map.mpr ⟨q, hq, .inl rfl⟩), hkey⟩,
        ⟨hheld _ (mem_held_map.mpr ⟨q, hq, .inr rfl⟩), hvalue⟩⟩
    | _ => cases hscript
  | object =>
    cases hliteral with
    | object =>
      have hmap := Form.object.inj (Node.mk.inj hscript).2
      refine .object (List.Forall₂.flip (forall₂_imp_of_mem (forall₂_of_map_eq hmap) ?_))
      intro q hq p _ heq
      obtain ⟨hname, hvalue⟩ := Source.Member.mk.inj heq
      exact ⟨hname.symm, hheld _ (List.mem_map_of_mem (f := Prod.snd) hq), hvalue⟩
    | _ => cases hscript

/-- The storage of a value exists, and is sound if it is a table. -/
def Placed (store : Store) : Value → Prop
  | .list ref => ref.index < store.lists.size
  | .set ref => ref.index < store.sets.size ∧ (store.keySet ref).Sound store.keyRule
  | .map ref => ref.index < store.maps.size ∧ (store.table ref).Sound store.keyRule
  | .object ref => ref.index < store.objects.size
  | _ => True

/-- A copy is of the same type. -/
theorem Copy.type_eq {value copy : Value} (h : Copy store other value copy)
    (hvalue : store.Literal value) : copy.type = value.type := (h.mirrors hvalue).type_eq.symm

/-- A value in a sound storage, whose parts are copies, is a copy. -/
theorem Mirrors.copy {value copy : Value} (h : Mirrors store other (Copy store other) value copy)
    (hvalue : store.Literal value) (hplaced : other.Placed copy) : Copy store other value copy := by
  have hparts := hvalue.held
  -- once the copy can be written out it is written as the value is
  suffices hliteral : other.Literal copy by
    refine ⟨hliteral, ?_⟩
    rw [Store.script_eq hliteral.acyclic, Store.script_eq hvalue.acyclic]
    cases h with
    | atom hatom => cases hvalue <;> first | rfl | cases hatom
    | list hitems =>
      have hmap := map_eq_of_forall₂ (hitems.imp fun _ _ hcopy => hcopy.script_eq.symm)
      simp only [scriptStep, hmap]
    | set hkeys =>
      have hmap := map_eq_of_forall₂ (hkeys.imp fun _ _ hcopy => hcopy.script_eq.symm)
      simp only [scriptStep, hmap]
    | map hentries =>
      have hmap := map_eq_of_forall₂ (hentries.imp fun _ _ hcopy =>
        congrArg₂ Prod.mk hcopy.1.script_eq.symm hcopy.2.script_eq.symm)
      simp only [scriptStep, hmap]
    | object hmembers =>
      have hmap := map_eq_of_forall₂ (hmembers.imp fun p q hcopy =>
        show Source.Member.mk p.1 (store.script p.2) = ⟨q.1, other.script q.2⟩ by
          rw [hcopy.1, hcopy.2.script_eq])
      simp only [scriptStep, hmap]
  cases h with
  | atom hatom =>
    cases hvalue with
    | null => exact .null
    | boolean value => exact .boolean value
    | int hmin => exact .int hmin
    | string value => exact .string value
    | _ => cases hatom
  | list hitems =>
    refine .list hplaced fun q hq => ?_
    obtain ⟨p, _, hcopy⟩ := exists_of_mem_right hitems q hq
    exact hcopy.literal
  | set hkeys =>
    cases hvalue with
    | set _ _ _ hfirst hlast =>
    refine .set hplaced.1 hplaced.2 (fun q hq => ?_) (fun q hq => ?_) fun q hq => ?_
    · obtain ⟨p, _, hcopy⟩ := exists_of_mem_right hkeys q (mem_sortedKeys.mpr hq)
      exact hcopy.literal
    · obtain ⟨p, hp, hcopy⟩ := exists_of_head? hkeys hq
      rw [hcopy.type_eq (hparts p (mem_sortedKeys.mp (List.mem_of_mem_head? hp)))]
      exact hfirst p hp
    · obtain ⟨p, hp, hcopy⟩ := exists_of_getLast? hkeys hq
      rw [hcopy.type_eq (hparts p (mem_sortedKeys.mp (List.mem_of_mem_getLast? hp)))]
      exact hlast p hp
  | map hentries =>
    cases hvalue with
    | map _ _ _ hvalues hlast =>
    refine .map hplaced.1 hplaced.2 (fun q hq => ?_) (fun q hq => ?_) fun q hq => ?_
    · obtain ⟨p, _, hcopy⟩ := exists_of_mem_right hentries q (mem_sortedEntries.mpr hq)
      exact hcopy.1.literal
    · obtain ⟨p, _, hcopy⟩ := exists_of_mem_right hentries q (mem_sortedEntries.mpr hq)
      exact hcopy.2.literal
    · obtain ⟨p, hp, hcopy⟩ := exists_of_getLast? hentries hq
      rw [hcopy.2.type_eq (hvalues p (mem_sortedEntries.mp (List.mem_of_mem_getLast? hp)))]
      exact hlast p hp
  | object hmembers =>
    cases hvalue with
    | object _ hnames _ =>
    refine .object hplaced (fun q hq => ?_) fun q hq => ?_
    · obtain ⟨p, hp, hname, _⟩ := exists_of_mem_right hmembers q hq
      exact hname ▸ hnames p hp
    · obtain ⟨p, _, _, hcopy⟩ := exists_of_mem_right hmembers q hq
      exact hcopy.literal

/-! ## Values that can be written out and compared -/

/-- Values that can be written out, with all that they hold, whose keys are totally ordered. -/
structure Literals (store : Store) (among : Value → Prop) : Prop where
  literal : ∀ value, among value → store.Literal value
  held : ∀ value, among value → ∀ part ∈ store.held value, among part
  ordered : store.KeysOrdered among

/-- A key is held by what it is a key of. -/
theorem IsKey.exists_holder {among : Value → Prop} {key : Value} (h : store.IsKey among key) :
    ∃ holder, among holder ∧ key ∈ store.held holder := by
  rcases h with ⟨ref, hr, hk⟩ | ⟨ref, hr, hk⟩
  · exact ⟨_, hr, hk⟩
  · obtain ⟨slot, hs, rfl⟩ := mem_keys.mp hk
    exact ⟨_, hr, mem_held_map.mpr ⟨_, Table.entry_mem hs, .inl rfl⟩⟩

/-- There are no decimals in literals. -/
theorem Literal.ne_decimal {value : Value} (h : store.Literal value) (x : Float) :
    value ≠ .decimal x := by
  cases h <;> exact nofun

/-- Literals with all they hold are sortable. -/
theorem sortable_of_literal {among : Value → Prop} (hliteral : ∀ value, among value → store.Literal value)
    (hheld : ∀ value, among value → ∀ part ∈ store.held value, among part) : store.Sortable among where
  items _ hr := hheld _ hr
  acyclic value hv := (hliteral value hv).acyclic
  numbers x hx := absurd rfl ((hliteral _ hx).ne_decimal x)

namespace Literals

variable {among : Value → Prop} (h : store.Literals among)

include h

/-- So they are a universe of values, -/
theorem isUniverse : store.Universe among where
  held := h.held
  acyclic value hv := (h.literal value hv).acyclic
  sets ref hr := by
    cases h.literal _ hr with
    | set _ hsound => exact hsound
  maps ref hr := by
    cases h.literal _ hr with
    | map _ hsound => exact hsound

/-- and all of them can be sorted. -/
theorem sortable : store.Sortable among := sortable_of_literal h.literal h.held

/-- Such values are lawful keys. -/
theorem lawful : store.keyRule.Lawful among := by
  have hkeys : ∀ p q, among p → among q → store.equal p q = true → store.keyChars p = store.keyChars q :=
    fun p q hp hq => keyChars_eq_of_equal h.isUniverse h.ordered hp hq
  have hkey : ∀ p, store.IsKey among p → among p := by
    intro p hp
    obtain ⟨holder, hholder, hp⟩ := hp.exists_holder
    exact h.held holder hholder p hp
  have hlaws := h.isUniverse.equalityLaws
    (fun p q hp hq heq => key_eq_iff.mpr (hkeys p q (hkey p hp) (hkey q hq) heq))
    fun ⟨_, _, x, _, _, hx, _⟩ => (h.literal _ hx).ne_decimal x rfl
  refine ⟨⟨hlaws.symm, hlaws.trans, fun p q hp hq heq => ?_⟩, fun p hp => h.sortable.equal_self hp⟩
  exact congrArg (fun key => Text.hash (String.ofList key)) (hkeys p q hp hq heq)

end Literals

/-! ## Copies are equal as the values are -/

/-- Related values of two stores are equal in one if they are in the other, and have one key. -/
structure Agrees (store other : Store) (related : Value → Value → Prop) : Prop where
  equal : ∀ a b c d, related a b → related c d → other.equal b d = store.equal a c
  keyChars : ∀ a b, related a b → other.keyChars b = store.keyChars a

/-- Keys that are lawful on one side are so on the other. -/
theorem Agrees.lawful {among : Value → Prop} {related : Value → Value → Prop}
    (h : Agrees store other related) (hlaws : store.keyRule.Lawful among)
    (hamong : ∀ a b, related a b → among a) :
    other.keyRule.Lawful fun b => ∃ a, related a b where
  refl := by
    rintro b ⟨a, hab⟩
    exact (h.equal a b a b hab hab).trans (hlaws.refl a (hamong a b hab))
  symm := by
    rintro b d ⟨a, hab⟩ ⟨c, hcd⟩ heq
    have hac := (h.equal a b c d hab hcd).symm.trans heq
    exact (h.equal c d a b hcd hab).trans (hlaws.symm a c (hamong a b hab) (hamong c d hcd) hac)
  trans := by
    rintro b d f ⟨a, hab⟩ ⟨c, hcd⟩ ⟨e, hef⟩ hbd hdf
    have hac := (h.equal a b c d hab hcd).symm.trans hbd
    have hce := (h.equal c d e f hcd hef).symm.trans hdf
    exact (h.equal a b e f hab hef).trans
      (hlaws.trans a c e (hamong a b hab) (hamong c d hcd) (hamong e f hef) hac hce)
  hash_eq := by
    rintro b d ⟨a, hab⟩ ⟨c, hcd⟩ heq
    have hac := (h.equal a b c d hab hcd).symm.trans heq
    have hash : ∀ {p q}, related p q → other.keyRule.hash q = store.keyRule.hash p := fun hpq =>
      congrArg (fun key => Text.hash (String.ofList key)) (h.keyChars _ _ hpq)
    rw [hash hab, hash hcd]
    exact hlaws.hash_eq a c (hamong a b hab) (hamong c d hcd) hac

/-- The members of objects are listed by their names, whatever their values are. -/
theorem sorted_members_eq {key key' : Value → List Char} {as bs : List (String × Value)}
    (h : List.Forall₂ (fun p q => p.1 = q.1 ∧ key p.2 = key' q.2) as bs) :
    (sortBy (fun p q => compare p.1 q.1) as).map (fun entry => entry.1.toList ++ '=' :: key entry.2) =
      (sortBy (fun p q => compare p.1 q.1) bs).map
        fun entry => entry.1.toList ++ '=' :: key' entry.2 := by
  let read (key : Value → List Char) (entry : String × Value) : String × List Char :=
    (entry.1, key entry.2)
  have hsort : ∀ (key : Value → List Char) (entries : List (String × Value)),
      (sortBy (fun p q => compare p.1 q.1) entries).map
          (fun entry => entry.1.toList ++ '=' :: key entry.2) =
        (sortBy (fun p q => compare p.1 q.1) (entries.map (read key))).map
          fun entry => entry.1.toList ++ '=' :: entry.2 := by
    intro key entries
    have hmap := List.map_mergeSort (r := fun p q : String × Value => compare p.1 q.1 != .gt)
      (s := fun p q : String × List Char => compare p.1 q.1 != .gt) (f := read key) (l := entries)
      fun _ _ _ _ => rfl
    rw [sortBy, sortBy, ← hmap, List.map_map]
    rfl
  have hread : as.map (read key) = bs.map (read key') :=
    map_eq_of_forall₂ (h.imp fun p q hpq => Prod.ext hpq.1 hpq.2)
  rw [hsort key as, hsort key' bs, hread]

/-- What mirrors a value has the text of its key. -/
theorem keyChars_of_mirrors {related : Value → Value → Prop} (h : Agrees store other related)
    {a b : Value} (ha : store.Acyclic a) (hb : other.Acyclic b)
    (hmirrors : Mirrors store other related a b) : other.keyChars b = store.keyChars a := by
  cases hmirrors with
  | atom hatom => exact keyChars_atom store hatom
  | list hitems =>
    rw [keyChars_eq ha, keyChars_eq hb]
    refine congrArg (enclosed "[" "]") (map_eq_of_forall₂ (List.Forall₂.flip ?_))
    exact hitems.imp fun p q hpq => h.keyChars p q hpq
  | set hkeys =>
    rw [keyChars_eq ha, keyChars_eq hb]
    refine congrArg (enclosed "<<" ">>") (map_eq_of_forall₂ (List.Forall₂.flip ?_))
    exact hkeys.imp fun p q hpq => h.keyChars p q hpq
  | map hentries =>
    rw [keyChars_eq ha, keyChars_eq hb]
    refine congrArg (enclosed "<<<" ">>>") (map_eq_of_forall₂ (List.Forall₂.flip ?_))
    refine hentries.imp fun p q hpq => ?_
    show other.keyChars q.1 ++ _ ++ other.keyChars q.2 = _
    rw [h.keyChars _ _ hpq.1, h.keyChars _ _ hpq.2]
  | object hmembers =>
    rw [keyChars_eq ha, keyChars_eq hb]
    refine congrArg (enclosed "<*" "*>") (sorted_members_eq (List.Forall₂.flip ?_))
    exact hmembers.imp fun p q hpq => ⟨hpq.1.symm, h.keyChars _ _ hpq.2⟩

/-- Without decimals, values of different types are not equal. -/
theorem type_eq_of_equal {a b : Value} (ha : store.Literal a) (hb : store.Literal b)
    (h : store.equal a b = true) : a.type = b.type := by
  cases (equal_iff ha.acyclic hb.acyclic).mp h with
  | decimals => exact absurd rfl (ha.ne_decimal _)
  | wholeDecimal => exact absurd rfl (hb.ne_decimal _)
  | decimalWhole => exact absurd rfl (ha.ne_decimal _)
  | _ => rfl

section Step

variable {among : Value → Prop} {related : Value → Value → Prop} (hliterals : store.Literals among)
  (hagrees : Agrees store other related) (hrelated : ∀ p q, related p q → among p)

include hliterals hagrees hrelated

/-- Related lists are equal where the lists are, -/
theorem equal_of_related_lists {a b c d : Ref .list} (ha : among (.list a)) (hc : among (.list c))
    (hb : other.Literal (.list b)) (hd : other.Literal (.list d))
    (hab : List.Forall₂ related (store.items a).toList (other.items b).toList)
    (hcd : List.Forall₂ related (store.items c).toList (other.items d).toList) :
    other.equal (.list b) (.list d) = true ↔ store.equal (.list a) (.list c) = true := by
  have hacyclic := hliterals.isUniverse.acyclic
  have hcopies := hagrees.lawful hliterals.lawful hrelated
  rw [equal_lists_iff hcopies.refl hb.acyclic hd.acyclic fun q hq =>
      (exists_of_mem_right hab q hq).imp fun _ h => h.2,
    equal_lists_iff hliterals.lawful.refl (hacyclic _ ha) (hacyclic _ hc) (hliterals.held _ ha)]
  exact (forall₂_iff_of_related hab hcd fun p q r s hpq hrs => by rw [hagrees.equal p q r s hpq hrs]).symm

/-- Copies of equal sets are equal, and copies of different ones are not. -/
theorem equal_of_related_sets {a b c d : Ref .set} (ha : among (.set a)) (hc : among (.set c))
    (hb : other.Literal (.set b)) (hd : other.Literal (.set d))
    (hab : List.Forall₂ related (store.sortedKeys a) (other.sortedKeys b))
    (hcd : List.Forall₂ related (store.sortedKeys c) (other.sortedKeys d)) :
    other.equal (.set b) (.set d) = true ↔ store.equal (.set a) (.set c) = true := by
  have hacyclic := hliterals.isUniverse.acyclic
  have hsound := hliterals.isUniverse.sets
  have hcopies := hagrees.lawful hliterals.lawful hrelated
  have hsound' : ∀ ref, other.Literal (.set ref) → (other.keySet ref).Sound other.keyRule := by
    intro ref hr
    cases hr with
    | set _ hsound => exact hsound
  rw [equal_sets_iff hcopies hb.acyclic hd.acyclic (hsound' b hb).toShelved (hsound' d hd)
      (fun q hq => (exists_of_mem_right hab q hq).imp fun _ h => h.2)
      fun q hq => (exists_of_mem_right hcd q hq).imp fun _ h => h.2,
    equal_sets_iff hliterals.lawful (hacyclic _ ha) (hacyclic _ hc) (hsound a ha).toShelved
      (hsound c hc) (fun p hp => hliterals.held _ ha p (mem_sortedKeys.mp hp))
      fun p hp => hliterals.held _ hc p (mem_sortedKeys.mp hp),
    hab.length_eq, hcd.length_eq]
  refine and_congr_right fun _ => (matched_iff hab hcd fun p q r s hpq hrs => ?_).symm
  rw [hagrees.equal r s p q hrs hpq]

/-- related maps where the maps are, -/
theorem equal_of_related_maps {a b c d : Ref .map} (ha : among (.map a)) (hc : among (.map c))
    (hb : other.Literal (.map b)) (hd : other.Literal (.map d))
    (hab : List.Forall₂ (fun p q => related p.1 q.1 ∧ related p.2 q.2) (store.sortedEntries a)
      (other.sortedEntries b))
    (hcd : List.Forall₂ (fun p q => related p.1 q.1 ∧ related p.2 q.2) (store.sortedEntries c)
      (other.sortedEntries d)) :
    other.equal (.map b) (.map d) = true ↔ store.equal (.map a) (.map c) = true := by
  have hacyclic := hliterals.isUniverse.acyclic
  have hsound := hliterals.isUniverse.maps
  have hcopies := hagrees.lawful hliterals.lawful hrelated
  have hsound' : ∀ ref, other.Literal (.map ref) → (other.table ref).Sound other.keyRule := by
    intro ref hr
    cases hr with
    | map _ hsound => exact hsound
  have hamong : ∀ ref, among (.map ref) → ∀ entry ∈ store.sortedEntries ref,
      among entry.1 ∧ among entry.2 := by
    intro ref hr entry he
    have he := mem_sortedEntries.mp he
    exact ⟨hliterals.held _ hr _ (mem_held_map.mpr ⟨entry, he, .inl rfl⟩),
      hliterals.held _ hr _ (mem_held_map.mpr ⟨entry, he, .inr rfl⟩)⟩
  rw [equal_maps_iff hcopies hb.acyclic hd.acyclic (hsound' b hb).toShelved (hsound' d hd)
      (fun q hq => by
        obtain ⟨p, _, hkey, hvalue⟩ := exists_of_mem_right hab q hq
        exact ⟨⟨_, hkey⟩, _, hvalue⟩)
      fun q hq => by
        obtain ⟨p, _, hkey, _⟩ := exists_of_mem_right hcd q hq
        exact ⟨_, hkey⟩,
    equal_maps_iff hliterals.lawful (hacyclic _ ha) (hacyclic _ hc) (hsound a ha).toShelved
      (hsound c hc) (hamong a ha) fun entry he => (hamong c hc entry he).1,
    hab.length_eq, hcd.length_eq]
  refine and_congr_right fun _ => (matched_iff hab hcd fun p q r s hpq hrs => ?_).symm
  rw [hagrees.equal _ _ _ _ hrs.1 hpq.1, hagrees.equal _ _ _ _ hpq.2 hrs.2]

/-- and related objects where the objects are. -/
theorem equal_of_related_objects {a b c d : Ref .object} (ha : among (.object a))
    (hc : among (.object c)) (hb : other.Literal (.object b)) (hd : other.Literal (.object d))
    (hab : List.Forall₂ (fun p q => p.1 = q.1 ∧ related p.2 q.2) (store.members a).entries
      (other.members b).entries)
    (hcd : List.Forall₂ (fun p q => p.1 = q.1 ∧ related p.2 q.2) (store.members c).entries
      (other.members d).entries) :
    other.equal (.object b) (.object d) = true ↔ store.equal (.object a) (.object c) = true := by
  have hacyclic := hliterals.isUniverse.acyclic
  have hcopies := hagrees.lawful hliterals.lawful hrelated
  rw [equal_objects_iff hcopies.refl hb.acyclic hd.acyclic fun q hq => by
      obtain ⟨p, _, _, hvalue⟩ := exists_of_mem_right hab q hq
      exact ⟨_, hvalue⟩,
    equal_objects_iff hliterals.lawful.refl (hacyclic _ ha) (hacyclic _ hc) fun member hm =>
      hliterals.held _ ha _ (List.mem_map_of_mem (f := Prod.snd) hm),
    hab.length_eq, hcd.length_eq]
  refine and_congr_right fun _ => (matched_iff hab hcd fun p q r s hpq hrs => ?_).symm
  rw [hagrees.equal _ _ _ _ hpq.2 hrs.2, hpq.1, hrs.1]

/-- Copies are equal as the values are, if this holds of the parts. -/
theorem equal_of_mirrors {a b c d : Value} (ha : among a) (hc : among c) (hb : other.Literal b)
    (hd : other.Literal d) (hab : Mirrors store other related a b)
    (hcd : Mirrors store other related c d) : other.equal b d = store.equal a c := by
  rw [Bool.eq_iff_iff]
  -- values of different types are not equal, and the types of copies are those of the values
  by_cases htype : a.type = c.type
  · cases hab with
    | atom hatom =>
      cases hcd with
      | atom hatom' => rw [equal_atoms store hatom hatom']
      | _ => cases hatom.symm.trans (Value.isAtomic_eq_of_type htype)
    | list hab =>
      cases hcd with
      | list hcd => exact equal_of_related_lists hliterals hagrees hrelated ha hc hb hd hab hcd
      | atom hatom => cases hatom.symm.trans (Value.isAtomic_eq_of_type htype.symm)
      | _ => cases htype
    | set hab =>
      cases hcd with
      | set hcd => exact equal_of_related_sets hliterals hagrees hrelated ha hc hb hd hab hcd
      | atom hatom => cases hatom.symm.trans (Value.isAtomic_eq_of_type htype.symm)
      | _ => cases htype
    | map hab =>
      cases hcd with
      | map hcd => exact equal_of_related_maps hliterals hagrees hrelated ha hc hb hd hab hcd
      | atom hatom => cases hatom.symm.trans (Value.isAtomic_eq_of_type htype.symm)
      | _ => cases htype
    | object hab =>
      cases hcd with
      | object hcd => exact equal_of_related_objects hliterals hagrees hrelated ha hc hb hd hab hcd
      | atom hatom => cases hatom.symm.trans (Value.isAtomic_eq_of_type htype.symm)
      | _ => cases htype
  · refine iff_of_false (fun h => htype ?_) fun h => htype ?_
    · rw [hab.type_eq, hcd.type_eq]
      exact type_eq_of_equal hb hd h
    · exact type_eq_of_equal (hliterals.literal a ha) (hliterals.literal c hc) h

/-- One step up: what holds of the parts of copies holds of the copies. -/
theorem Agrees.step {whole : Value → Value → Prop} (hamong : ∀ a b, whole a b → among a)
    (hcopy : ∀ a b, whole a b → Copy store other a b)
    (hparts : ∀ a b, whole a b → ∀ p ∈ store.held a, ∀ q, Copy store other p q → related p q) :
    Agrees store other whole := by
  have hmirrors : ∀ a b, whole a b → Mirrors store other related a b := fun a b h =>
    ((hcopy a b h).mirrors (hliterals.literal a (hamong a b h))).imp (hparts a b h)
  refine ⟨fun a b c d hab hcd => ?_, fun a b hab => ?_⟩
  · exact equal_of_mirrors hliterals hagrees hrelated (hamong a b hab) (hamong c d hcd)
      (hcopy a b hab).literal (hcopy c d hcd).literal (hmirrors a b hab) (hmirrors c d hcd)
  · exact keyChars_of_mirrors hagrees (hliterals.isUniverse.acyclic a (hamong a b hab))
      (hcopy a b hab).literal.acyclic (hmirrors a b hab)

end Step

/-! ## All readings -/

/-- Copies agree with the literals that they are copied from. -/
theorem Literals.agrees {among : Value → Prop} (h : store.Literals among) :
    Agrees store other fun a b => among a ∧ Copy store other a b := by
  have hlevels : ∀ depth, Agrees store other fun a b =>
      (among a ∧ store.Shallow depth a) ∧ Copy store other a b := by
    intro depth
    induction depth with
    | zero =>
      have hnone : Agrees store other fun _ _ => False :=
        ⟨fun _ _ _ _ h => h.elim, fun _ _ h => h.elim⟩
      refine Agrees.step h hnone (fun _ _ h => h.elim) (fun _ _ h => h.1.1) (fun _ _ h => h.2) ?_
      intro a b hab p hp
      rw [show store.held a = [] from hab.1.2] at hp
      cases hp
    | succ depth ih =>
      refine Agrees.step h ih (fun _ _ h => h.1.1) (fun _ _ h => h.1.1) (fun _ _ h => h.2) ?_
      intro a b hab p hp q hpq
      exact ⟨⟨h.held a hab.1.1 p hp, hab.1.2 p hp⟩, hpq⟩
  have hdeep : ∀ a b, among a ∧ Copy store other a b →
      (among a ∧ store.Shallow store.containerCount a) ∧ Copy store other a b :=
    fun a b hab => ⟨⟨hab.1, shallow_of_acyclic (h.isUniverse.acyclic a hab.1)⟩, hab.2⟩
  exact ⟨fun a b c d hab hcd => (hlevels _).equal a b c d (hdeep a b hab) (hdeep c d hcd),
    fun a b hab => (hlevels _).keyChars a b (hdeep a b hab)⟩

/-- A copy has the text of what it is copied from. -/
theorem Copy.chars_eq {value copy : Value} (h : Copy store other value copy)
    (hvalue : store.Literal value) : other.chars copy = store.chars value := by
  rw [← chars_script h.literal, ← chars_script hvalue, h.script_eq]

/-- A literal is a copy of itself. -/
theorem Literal.copy_self {value : Value} (h : store.Literal value) : Copy store store value value :=
  ⟨h, rfl⟩

namespace Literals

variable {among : Value → Prop} (h : store.Literals among) {a b c d : Value}

include h

/-- Copies are equal if the values are, and only then. -/
theorem equal_copies (ha : among a) (hc : among c) (hab : Copy store other a b)
    (hcd : Copy store other c d) : other.equal b d = store.equal a c :=
  h.agrees.equal a b c d ⟨ha, hab⟩ ⟨hc, hcd⟩

/-- Copies are the same keys. -/
theorem keyChars_copies (ha : among a) (hab : Copy store other a b) :
    other.keyChars b = store.keyChars a :=
  h.agrees.keyChars a b ⟨ha, hab⟩

/-- Values with one text are equal. -/
theorem equal_of_chars_eq (ha : among a) (hc : among c) (heq : store.chars a = store.chars c) :
    store.equal a c = true := by
  have hscript := script_eq_of_chars_eq (h.literal a ha) (h.literal c hc) heq
  rw [h.equal_copies ha ha (h.literal a ha).copy_self ⟨h.literal c hc, hscript.symm⟩]
  exact h.sortable.equal_self ha

/-- Where texts decide the order, they do so for copies too: no two texts are the same there. -/
theorem byText_copies (ha : among a) (hc : among c) (hab : Copy store other a b)
    (hcd : Copy store other c d) (hne : store.equal a c ≠ true) :
    other.byText b d = store.byText a c := by
  have htexts : compare (store.chars a) (store.chars c) ≠ .eq := by
    intro heq
    exact hne (h.equal_of_chars_eq ha hc (Std.LawfulEqOrd.compare_eq_iff_eq.mp heq))
  rw [byText, byText, hab.chars_eq (h.literal a ha), hcd.chars_eq (h.literal c hc)]
  cases ho : compare (store.chars a) (store.chars c) with
  | eq => exact absurd ho htexts
  | _ => rfl

omit h in
/-- Atoms of one kind are ordered in the same way in all stores. -/
theorem order_alike_atoms (ha : a.isAtomic = true) (hc : c.isAtomic = true) (halike : a.Alike c) :
    other.order a c = store.order a c := by
  rw [order_eq (acyclic_of_isAtomic ha) (acyclic_of_isAtomic hc),
    order_eq (acyclic_of_isAtomic ha) (acyclic_of_isAtomic hc)]
  cases a with
  | boolean => obtain ⟨_, rfl⟩ := halike.boolean; simp only [orderStep]
  | string => obtain ⟨_, rfl⟩ := halike.string; simp only [orderStep]
  | date => obtain ⟨_, rfl⟩ := halike.date; simp only [orderStep]
  | int =>
    cases c with
    | int => simp only [orderStep]
    | decimal => simp only [orderStep]
    | _ => cases halike.2
  | decimal =>
    cases c with
    | int => simp only [orderStep]
    | decimal => simp only [orderStep]
    | _ => cases halike.2
  | list => cases ha
  | _ => exact absurd rfl halike.1

/-- Copies are ordered as the values are. -/
theorem order_copies (ha : among a) (hc : among c) (hab : Copy store other a b)
    (hcd : Copy store other c d) : other.order b d = store.order a c := by
  have hacyclic := h.isUniverse.acyclic a ha
  induction hacyclic generalizing b c d with
  | intro a hparts ih =>
    have hacyclic : store.Acyclic a := .intro a hparts
    have hmirrors := (hab.mirrors (h.literal a ha)).imp fun p hp q hpq =>
      (⟨h.held a ha p hp, hpq⟩ : among p ∧ Copy store other p q)
    have hmirrors' := (hcd.mirrors (h.literal c hc)).imp fun p hp q hpq =>
      (⟨h.held c hc p hp, hpq⟩ : among p ∧ Copy store other p q)
    by_cases halike : a.Alike c
    · cases hmirrors with
      | atom hatom =>
        cases hmirrors' with
        | atom hatom' => exact order_alike_atoms hatom hatom' halike
        | list =>
          obtain ⟨_, rfl⟩ := halike.symm.list
          cases hatom
        | _ => exact absurd rfl halike.symm.1
      | list hitems =>
        obtain ⟨_, rfl⟩ := halike.list
        cases hmirrors' with
        | atom hatom => cases hatom
        | list hitems' =>
          rw [order_eq hacyclic (h.isUniverse.acyclic _ hc),
            order_eq hab.literal.acyclic hcd.literal.acyclic]
          refine (orderLists_eq_of_related hitems hitems' fun p hp q r s hpq hrs => ?_).symm
          exact (ih p hp hpq.1 hrs.1 hpq.2 hrs.2).symm
      | _ => exact absurd rfl halike.1
    · have halike' : ¬ b.Alike d := by
        rw [Value.Alike, Value.family_eq_of_type hmirrors.type_eq.symm,
          Value.family_eq_of_type hmirrors'.type_eq.symm]
        exact halike
      rw [order_of_not_alike hacyclic (h.isUniverse.acyclic c hc) halike,
        order_of_not_alike hab.literal.acyclic hcd.literal.acyclic halike',
        h.equal_copies ha hc hab hcd]
      by_cases hequal : store.equal a c = true
      · rw [if_pos hequal, if_pos hequal]
      · rw [if_neg hequal, if_neg hequal, h.byText_copies ha hc hab hcd hequal]

end Literals

end Store

end Ckl
