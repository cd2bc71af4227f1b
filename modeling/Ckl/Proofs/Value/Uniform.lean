import Ckl.Proofs.Value.Copy

/-!
# Keys that are written in one way

The order of values fails to be total where equal values have different texts, because another text can
come between these. Of the values that can be written out only objects can be equal and have different
texts, if they list their members in different orders. Where this does not happen inside of keys, keys are
totally ordered (`literals_of_uniform`): the texts of the types begin with characters of their own, and
values with one text are equal. Ordering keys takes the order of the keys inside of them, so that the proof
goes from depth to depth.
-/

namespace Ckl.Store

variable {store : Store} {among : Value → Prop}

/-- Equal values have one text. -/
def Uniform (store : Store) (among : Value → Prop) : Prop :=
  ∀ p q, among p → among q → store.equal p q = true → store.chars p = store.chars q

/-! ## How texts begin -/

/-- The codes of the characters that the text of a value can begin with. -/
def leads (value : Value) (code : Nat) : Prop :=
  match value with
  | .string _ => code = 39
  | .int _ => 45 ≤ code ∧ code ≤ 57
  | .boolean _ => code = 70 ∨ code = 84
  | .null => code = 78
  | .list _ => code = 91
  | _ => code = 60

theorem Literal.begins {value : Value} (h : store.Literal value) :
    ∃ c rest, store.chars value = c :: rest ∧ leads value c.toNat := by
  rw [chars_eq h.acyclic]
  cases h with
  | null => exact ⟨_, _, rfl, rfl⟩
  | boolean value =>
    cases value with
    | false => exact ⟨_, _, rfl, .inl rfl⟩
    | true => exact ⟨_, _, rfl, .inr rfl⟩
  | @int value =>
    obtain ⟨c, rest, hchars, hbegins⟩ := Number.wholeText_begins value.toInt
    have hcode := code_of_begins hbegins
    have hrank := Number.leading_wholeRank value.toInt
    exact ⟨c, rest, hchars, by omega, by omega⟩
  | string => exact ⟨_, _, rfl, rfl⟩
  | list => exact ⟨_, _, rfl, rfl⟩
  | set => exact ⟨_, _, rfl, rfl⟩
  | map => exact ⟨_, _, rfl, rfl⟩
  | object => exact ⟨_, _, rfl, rfl⟩

/-- What begins with a character outside of some range, and stands behind a text that begins with one in
it, stands behind all of these. -/
theorem byText_of_range {a b c : Value} (ha : store.Literal a) (hb : store.Literal b)
    (hc : store.Literal c) {low high : Nat} (hla : ∀ code, leads a code → low ≤ code ∧ code ≤ high)
    (hlb : ∀ code, leads b code → low ≤ code ∧ code ≤ high)
    (hlc : ∀ code, leads c code → code < low ∨ high < code) (hlt : store.byText b c = .lt) :
    store.byText a c = .lt := by
  obtain ⟨d, ds, had, hd⟩ := ha.begins
  obtain ⟨e, es, hbe, he⟩ := hb.begins
  obtain ⟨f, fs, hcf, hf⟩ := hc.begins
  have hd := hla _ hd
  have he := hlb _ he
  have hf := hlc _ hf
  have hdf : d ≠ f := by
    rintro rfl
    omega
  have hef : e ≠ f := by
    rintro rfl
    omega
  rw [byText_lt_iff hbe hcf hef, char_lt_iff] at hlt
  rw [byText_lt_iff had hcf hdf, char_lt_iff]
  omega

/-- Integers, texts and lists begin with characters in a range in which no other values begin. -/
theorem exists_range {b : Value} (hb : store.Literal b) (hfamily : b.family ≠ none)
    (hboolean : b.family ≠ some .boolean) :
    ∃ low high, (∀ a, store.Literal a → b.Alike a → ∀ code, leads a code → low ≤ code ∧ code ≤ high) ∧
      ∀ c, store.Literal c → ¬ b.Alike c → ∀ code, leads c code → code < low ∨ high < code := by
  cases hb with
  | boolean => exact absurd rfl hboolean
  | int =>
    refine ⟨45, 57, fun a ha halike code hcode => ?_, fun c hc hapart code hcode => ?_⟩
    · cases ha with
      | int => exact hcode
      | _ => cases halike.2
    · cases hc with
      | int => exact absurd ⟨hfamily, rfl⟩ hapart
      | _ => simp only [leads] at hcode; omega
  | string =>
    refine ⟨39, 39, fun a ha halike code hcode => ?_, fun c hc hapart code hcode => ?_⟩
    · obtain ⟨_, rfl⟩ := halike.string
      exact ⟨hcode.ge, hcode.le⟩
    · cases hc with
      | string => exact absurd ⟨hfamily, rfl⟩ hapart
      | _ => simp only [leads] at hcode; omega
  | list =>
    refine ⟨91, 91, fun a ha halike code hcode => ?_, fun c hc hapart code hcode => ?_⟩
    · obtain ⟨_, rfl⟩ := halike.list
      exact ⟨hcode.ge, hcode.le⟩
    · cases hc with
      | list => exact absurd ⟨hfamily, rfl⟩ hapart
      | _ => simp only [leads] at hcode; omega
  | _ => exact absurd rfl hfamily

/-! ## The order of uniform values -/

namespace Literals

variable (h : store.Literals among) (huniform : store.Uniform among)

include h huniform

/-- No value that can be written out stands between two others against their order. -/
theorem noneBetween : store.NoneBetween among := by
  intro a b c ha hb hc hab hac hbc hle hlt
  have hla := h.literal a ha
  have hlb := h.literal b hb
  have hlc := h.literal c hc
  rcases hab.alike_or_equal h.sortable ha hb with halike | ⟨_, heq⟩
  · by_cases hboolean : b.family = some .boolean
    · cases hlb with
      | boolean =>
        obtain ⟨_, rfl⟩ := halike.symm.boolean
        exact (byText_laws store).lt_of_le_of_lt trivial trivial trivial (byText_booleans hle) hlt
      | _ => cases hboolean
    · obtain ⟨low, high, hin, hout⟩ := exists_range hlb halike.symm.1 hboolean
      exact byText_of_range hla hlb hlc (hin a hla halike.symm) (hin b hlb ⟨halike.symm.1, rfl⟩)
        (hout c hlc fun h => hbc (.inl h)) hlt
  · -- equal values have one text, and no other value has it
    have htext := huniform a b ha hb heq
    have hother : store.chars b ≠ store.chars c := fun heq =>
      hbc (.inr (h.equal_of_chars_eq hb hc heq))
    rw [byText, Ordering.then_eq_lt] at hlt ⊢
    rw [htext]
    refine hlt.imp id fun hlt => absurd (Std.LawfulEqOrd.compare_eq_iff_eq.mp hlt.1) hother

/-- So the values are totally ordered. -/
theorem orderLaws : OrderLaws store.order among :=
  h.sortable.orderLaws ⟨h.lawful.symm, h.lawful.trans⟩ (h.noneBetween huniform)

end Literals

/-! ## From depth to depth -/

/-- A value itself and all that is inside of it. -/
def Within (store : Store) (value part : Value) : Prop := value = part ∨ store.Inside value part

theorem Within.held {value part : Value} (h : store.Within value part) :
    ∀ inner ∈ store.held part, store.Within value inner := by
  intro inner hinner
  rcases h with rfl | hinside
  · exact .inr (.single hinner)
  · exact .inr (hinside.tail hinner)

/-- What passes from values to all that they hold passes to all that is inside of them. -/
theorem Within.satisfies {value part : Value} (h : store.Within value part) (hvalue : among value)
    (hheld : ∀ value, among value → ∀ part ∈ store.held value, among part) : among part := by
  rcases h with rfl | hinside
  · exact hvalue
  · induction hinside with
    | single hp => exact hheld value hvalue _ hp
    | tail _ hp ih => exact hheld _ ih _ hp

/-- A key of the sets and maps among some values, or a value inside of one. -/
def KeyPart (store : Store) (among : Value → Prop) (part : Value) : Prop :=
  ∃ key, store.IsKey among key ∧ store.Within key part

theorem KeyPart.held {part : Value} (h : store.KeyPart among part) :
    ∀ inner ∈ store.held part, store.KeyPart among inner := by
  intro inner hinner
  obtain ⟨key, hkey, hwithin⟩ := h
  exact ⟨key, hkey, hwithin.held inner hinner⟩

/-- Keys among values that can be sorted are ordered if these are. -/
theorem keysOrdered_of_orderLaws {part : Value → Prop} (hsortable : store.Sortable part)
    (hlaws : OrderLaws store.order part) (hkeys : ∀ key, store.IsKey among key → part key) :
    store.KeysOrdered among where
  laws := hlaws.mono hkeys
  eq_iff p q hp hq := hsortable.order_eq_iff (hkeys p hp) (hkeys q hq)

/-- The values of some depth. -/
def upTo (store : Store) (among : Value → Prop) (depth : Nat) (value : Value) : Prop :=
  among value ∧ store.Shallow depth value

theorem isKey_upTo_succ (hheld : ∀ value, among value → ∀ part ∈ store.held value, among part)
    {depth : Nat} {key : Value} (h : store.IsKey (store.upTo among (depth + 1)) key) :
    store.upTo among depth key := by
  obtain ⟨holder, hholder, hkey⟩ := h.exists_holder
  exact ⟨hheld holder hholder.1 key hkey, hholder.2 key hkey⟩

theorem not_isKey_upTo_zero {key : Value} : ¬ store.IsKey (store.upTo among 0) key := by
  intro h
  obtain ⟨holder, hholder, hkey⟩ := h.exists_holder
  rw [show store.held holder = [] from hholder.2] at hkey
  cases hkey

theorem upTo_held (hheld : ∀ value, among value → ∀ part ∈ store.held value, among part) {depth : Nat}
    {value : Value} (h : store.upTo among depth value) :
    ∀ part ∈ store.held value, store.upTo among depth part := by
  intro part hp
  refine ⟨hheld value h.1 part hp, ?_⟩
  cases depth with
  | zero =>
    rw [show store.held value = [] from h.2] at hp
    cases hp
  | succ depth => exact (h.2 part hp).succ

section Levels

variable (hliteral : ∀ value, among value → store.Literal value)
  (hheld : ∀ value, among value → ∀ part ∈ store.held value, among part)

include hliteral hheld

/-- Uniform values, with all that they hold, are totally ordered. -/
theorem orderLaws_of_uniform (huniform : store.Uniform among) : OrderLaws store.order among := by
  have hlevels : ∀ depth, store.Literals (store.upTo among depth) := by
    intro depth
    refine ⟨fun value hv => hliteral value hv.1, fun value hv => upTo_held hheld hv, ?_⟩
    induction depth with
    | zero =>
      exact ⟨⟨fun p _ hp => absurd hp not_isKey_upTo_zero,
        fun p _ _ hp => absurd hp not_isKey_upTo_zero⟩, fun p _ hp => absurd hp not_isKey_upTo_zero⟩
    | succ depth ih =>
      -- the keys of this depth are values of the depth below
      have hbelow : store.Literals (store.upTo among depth) :=
        ⟨fun value hv => hliteral value hv.1, fun value hv => upTo_held hheld hv, ih⟩
      have hlaws := hbelow.orderLaws fun p q hp hq => huniform p q hp.1 hq.1
      exact keysOrdered_of_orderLaws hbelow.sortable hlaws fun key => isKey_upTo_succ hheld
  have hlaws := (hlevels store.containerCount).orderLaws fun p q hp hq => huniform p q hp.1 hq.1
  exact hlaws.mono fun value hv => ⟨hv, shallow_of_acyclic (hliteral value hv).acyclic⟩

/-- **Where keys are written in one way.** Values that can be written out, with all that they hold, are
literals if the keys among them and what is inside of these are uniform. -/
theorem literals_of_uniform (huniform : store.Uniform (store.KeyPart among)) : store.Literals among := by
  have hpart : ∀ part, store.KeyPart among part → store.Literal part := by
    rintro part ⟨key, hkey, hwithin⟩
    obtain ⟨holder, hholder, hkey⟩ := hkey.exists_holder
    exact hliteral part (hwithin.satisfies (hheld holder hholder key hkey) hheld)
  have hlaws := orderLaws_of_uniform hpart (fun _ hp => hp.held) huniform
  have hsortable := sortable_of_literal hpart fun _ hp => hp.held
  exact ⟨hliteral, hheld, keysOrdered_of_orderLaws hsortable hlaws fun key hk => ⟨key, hk, .inl rfl⟩⟩

end Levels

/-- A value that can be written out, with all that is inside of it. -/
theorem Literal.literals {value : Value} (h : store.Literal value)
    (huniform : store.Uniform (store.KeyPart (store.Within value))) :
    store.Literals (store.Within value) :=
  literals_of_uniform (fun _ hpart => hpart.satisfies h fun _ => Literal.held) (fun _ => Within.held)
    huniform

/-! ## Atoms as keys -/

/-- Atoms are uniform: equal ones are the same. -/
theorem uniform_of_atoms
    (hkeys : ∀ key, store.IsKey among key → store.Literal key ∧ key.isAtomic = true) :
    store.Uniform (store.KeyPart among) := by
  have hpart : ∀ part, store.KeyPart among part → store.Literal part ∧ part.isAtomic = true := by
    rintro part ⟨key, hkey, rfl | hinside⟩
    · exact hkeys key hkey
    · obtain ⟨inner, hinner, _⟩ := Relation.TransGen.head'_iff.mp hinside
      exact absurd hinner (not_mem_held_of_isAtomic (hkeys key hkey).2 inner)
  intro p q hp hq hequal
  obtain ⟨hp, hatom⟩ := hpart p hp
  have hq := (hpart q hq).1
  cases (equal_iff hp.acyclic hq.acyclic).mp hequal with
  | refl => rfl
  | decimals => exact absurd rfl (hp.ne_decimal _)
  | wholeDecimal => exact absurd rfl (hq.ne_decimal _)
  | decimalWhole => exact absurd rfl (hp.ne_decimal _)
  | _ => cases hatom

/-- Angles do not meet in a set of atoms. -/
theorem literal_set_of_atoms {ref : Ref .set} (hindex : ref.index < store.sets.size)
    (hsound : (store.keySet ref).Sound store.keyRule)
    (hkeys : ∀ key ∈ (store.keySet ref).keys, store.Literal key ∧ key.isAtomic = true) :
    store.Literal (.set ref) := by
  have htype : ∀ key ∈ store.sortedKeys ref, key.type ∉ [.set, .map, .object] := by
    intro key hkey
    obtain ⟨hliteral, hatom⟩ := hkeys key (mem_sortedKeys.mp hkey)
    cases hliteral <;> first | (cases hatom; done) | simp [Value.type]
  refine .set hindex hsound (fun key hkey => (hkeys key hkey).1) (fun key hkey => ?_) fun key hkey => ?_
  · exact htype key (List.mem_of_mem_head? hkey)
  · intro hset
    exact htype key (List.mem_of_mem_getLast? hkey) (hset ▸ List.mem_cons_self)

end Ckl.Store
