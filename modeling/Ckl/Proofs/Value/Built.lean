import Ckl.Proofs.Number.Numeral
import Ckl.Proofs.Value.Order

/-!
# Atoms and lists of them

The values that are built of some atoms by lists alone are the usual keys. Equality is symmetric and
transitive among them if no integers fold (`equalityLaws_built`). If they are plain, too, they are
totally ordered: their texts begin with different characters, by which the types come one after the
other, but for the minus sign, and only a pattern comes between it and the digits. So a pattern stands
between the two zeros, although these are equal (`ZerosApart`), and nothing else can go wrong
(`orderLaws_built`).
-/

namespace Ckl

open Number (Rank Begins wholeRank)

/-- Values that are some atoms, or lists of values that are. -/
inductive Store.Built (store : Store) (atoms : Value → Prop) : Value → Prop
  | atom {value : Value} : value.isAtomic = true → atoms value → Built store atoms value
  | list {ref : Ref .list} : (∀ item ∈ (store.items ref).toList, Built store atoms item) →
      Built store atoms (.list ref)

namespace Store

variable {store : Store} {atoms : Value → Prop}

/-- An atomic value is built only if it is one of the atoms. -/
theorem Built.of_isAtomic {value : Value} (h : store.Built atoms value)
    (ha : value.isAtomic = true) : atoms value := by
  cases h with
  | atom _ hv => exact hv
  | list => cases ha

/-- The parts of a built value are built. -/
theorem Built.held {value : Value} (h : store.Built atoms value) :
    ∀ p ∈ store.held value, store.Built atoms p := by
  cases h with
  | atom ha =>
    intro p hp
    rw [held_of_isAtomic ha] at hp
    cases hp
  | list hitems => exact hitems

/-- A built value does not lead back to itself. -/
theorem Built.acyclic {value : Value} (h : store.Built atoms value) : store.Acyclic value := by
  induction h with
  | atom ha => exact acyclic_of_isAtomic ha
  | list _ ih => exact .intro _ ih

/-- Built values are a universe without sets and maps. -/
theorem universe_built (store : Store) (atoms : Value → Prop) :
    store.Universe (store.Built atoms) where
  held _ h := h.held
  acyclic _ h := h.acyclic
  sets ref h := by
    cases h with
    | atom ha => cases ha
  maps ref h := by
    cases h with
    | atom ha => cases ha

/-- Among built values there are neither sets nor maps, and so no keys. -/
theorem not_isKey_built {key : Value} : ¬ store.IsKey (store.Built atoms) key := by
  rintro (⟨ref, h, _⟩ | ⟨ref, h, _⟩) <;>
    · cases h with
      | atom ha => cases ha

/-- Among built values equality is symmetric and transitive, if no integers fold. -/
theorem equalityLaws_built (hfold : ¬ Folds atoms) : store.EqualityLaws (store.Built atoms) := by
  refine (universe_built store atoms).equalityLaws (fun _ _ h => (not_isKey_built h).elim) ?_
  rintro ⟨m, n, x, hm, hn, hx, hrest⟩
  exact hfold ⟨m, n, x, hm.of_isAtomic rfl, hn.of_isAtomic rfl, hx.of_isAtomic rfl, hrest⟩

/-- Built values can be sorted if none of their atoms is a decimal that differs from itself. -/
theorem sortable_built (hnumbers : ∀ x, atoms (.decimal x) → (x == x) = true) :
    store.Sortable (store.Built atoms) where
  items _ h := h.held
  acyclic _ h := h.acyclic
  numbers x h := hnumbers x (h.of_isAtomic rfl)

end Store

/-! ## How texts begin -/

/-- The character that the text of a value begins with, if it is the same for all of its type. -/
def Value.mark : Value → Option Char
  | .null => some 'N'
  | .boolean value => some (if value then 'T' else 'F')
  | .string _ => some '\''
  | .pattern _ => some '/'
  | .list _ => some '['
  | _ => none

/-- Atoms that are numbers or that have a mark. Dates are not: they are written as digits. -/
def Value.isPlain : Value → Bool
  | .null | .boolean _ | .int _ | .string _ | .pattern _ => true
  | .decimal x => x == x
  | _ => false

/-- A pattern and the two zeros, between which it stands by its text. -/
def ZerosApart (atoms : Value → Prop) : Prop :=
  atoms (.decimal (-0.0)) ∧ (atoms (.int 0) ∨ atoms (.decimal 0.0)) ∧ ∃ source, atoms (.pattern source)

namespace Store

variable {store : Store} {atoms : Value → Prop}

/-- The text of a value that has a mark begins with it. -/
theorem chars_of_mark {value : Value} {c : Char} (h : store.Acyclic value) (hm : value.mark = some c) :
    ∃ rest, store.chars value = c :: rest := by
  rw [chars_eq h]
  cases value with
  | null => cases hm; exact ⟨_, rfl⟩
  | boolean x => cases x <;> cases hm <;> exact ⟨_, rfl⟩
  | string => cases hm; exact ⟨_, rfl⟩
  | pattern => cases hm; exact ⟨_, rfl⟩
  | list => cases hm; exact ⟨_, rfl⟩
  | _ => cases hm

/-- The text of a number begins with its sign or a digit. -/
theorem chars_of_rank (store : Store) {value : Value} {p : Rank} (hp : rankOf? value = some p) :
    ∃ c rest, store.chars value = c :: rest ∧ Begins p c := by
  cases value with
  | int n =>
    cases hp
    exact Number.wholeText_begins _
  | decimal x => exact Number.decimalText_begins hp
  | _ => cases hp

/-- Different characters at the beginning decide the order by texts. -/
theorem byText_lt_iff {a b : Value} {c d : Char} {cs ds : List Char} (ha : store.chars a = c :: cs)
    (hb : store.chars b = d :: ds) (hne : c ≠ d) : store.byText a b = .lt ↔ c < d := by
  have hcompare : compare c d = .lt ↔ c < d := compareOfLessAndEq_eq_lt
  have hlt : (compare c d).then (compare cs ds) = compare c d := by
    cases ho : compare c d with
    | eq => exact absurd (Std.LawfulEqOrd.compare_eq_iff_eq.mp ho) hne
    | _ => rfl
  rw [byText, ha, hb, List.compare_cons_cons, hlt, ← hcompare]
  cases ho : compare c d with
  | eq => exact absurd (Std.LawfulEqOrd.compare_eq_iff_eq.mp ho) hne
  | _ => rfl

/-! ## What stands between what -/

/-- Characters are ordered by their codes. -/
theorem char_lt_iff {c d : Char} : c < d ↔ c.toNat < d.toNat := UInt32.lt_iff_toNat_lt

/-- The code of the first character of a number, by its rank. -/
theorem code_of_begins {p : Rank} {c : Char} (h : Begins p c) :
    c.toNat = 45 ∧ (ofLex p).1 ≤ 0 ∨
      (48 ≤ c.toNat ∧ c.toNat ≤ 57) ∧ 0 ≤ (ofLex p).1 ∧ (ofLex p).1 ≤ 1 ∨
        c.toNat = 105 ∧ (ofLex p).1 = 2 := by
  cases h with
  | minus h => exact .inl ⟨rfl, h⟩
  | infinity h => exact .inr (.inr ⟨rfl, h⟩)
  | digit hc hlow hhigh =>
    refine .inr (.inl ⟨?_, hlow, hhigh⟩)
    simp only [Char.isDigit, Bool.and_eq_true, decide_eq_true_eq] at hc
    exact ⟨UInt32.le_iff_toNat_le.mp hc.1, UInt32.le_iff_toNat_le.mp hc.2⟩

/-- The code of the first character of anything else. -/
theorem code_of_mark {value : Value} {c : Char} (h : value.mark = some c) :
    c.toNat = 39 ∨ c.toNat = 47 ∧ (∃ source, value = .pattern source) ∨
      70 ≤ c.toNat ∧ c.toNat ≤ 91 := by
  cases value with
  | string => cases h; exact .inl rfl
  | pattern source => cases h; exact .inr (.inl ⟨rfl, source, rfl⟩)
  | boolean x => cases x <;> cases h <;> exact .inr (.inr (by decide))
  | null => cases h; exact .inr (.inr (by decide))
  | list => cases h; exact .inr (.inr (by decide))
  | _ => cases h

/-- A marked value that is behind a number is behind all that are not greater, but for a pattern between
the two zeros. -/
theorem byText_of_number_le {a b c : Value} {p q : Rank} {mark : Char} (hp : rankOf? a = some p)
    (hq : rankOf? b = some q) (hle : p ≤ q) (hc : store.Acyclic c) (hm : c.mark = some mark)
    (hlt : store.byText b c = .lt) :
    store.byText a c = .lt ∨ (∃ source, c = .pattern source) ∧ (ofLex p).1 = 0 ∧ (ofLex q).1 = 0 ∧
      (∃ d rest, store.chars a = d :: rest ∧ d.isDigit = true) ∧
      ∃ rest, store.chars b = '-' :: rest := by
  obtain ⟨d, ds, ha, hd⟩ := chars_of_rank store hp
  obtain ⟨e, es, hb, he⟩ := chars_of_rank store hq
  obtain ⟨cs, hcs⟩ := chars_of_mark hc hm
  have hlead : (ofLex p).1 ≤ (ofLex q).1 := Prod.Lex.monotone_fst _ _ hle
  have hmark := code_of_mark hm
  have hdcode := code_of_begins hd
  have hecode := code_of_begins he
  have hned : d ≠ mark := by
    rintro rfl
    omega
  have hnee : e ≠ mark := by
    rintro rfl
    omega
  rw [byText_lt_iff hb hcs hnee, char_lt_iff] at hlt
  rw [byText_lt_iff ha hcs hned, char_lt_iff]
  by_cases hdm : d.toNat < mark.toNat
  · exact .inl hdm
  · -- the number begins with a digit, the greater one with a minus sign, and the mark is between
    obtain ⟨hslash, hpattern⟩ : mark.toNat = 47 ∧ ∃ source, c = .pattern source := by
      rcases hmark with h | h | h
      · omega
      · exact h
      · omega
    have hminus : '-'.toNat = 45 := rfl
    obtain rfl : e = '-' := Char.toNat_inj.mp (by omega)
    refine .inr ⟨hpattern, by omega, by omega, ?_, es, hb⟩
    cases hd with
    | digit hdigit => exact ⟨d, ds, ha, hdigit⟩
    | minus => omega
    | infinity => omega

/-- The numbers of the rank of zero. -/
theorem eq_zero_of_rankOf? {value : Value} {p : Rank} (hp : rankOf? value = some p)
    (hzero : (ofLex p).1 = 0) : value = .int 0 ∨ value = .decimal 0.0 ∨ value = .decimal (-0.0) := by
  cases value with
  | int n =>
    cases hp
    refine .inl (congrArg Value.int (Int64.toInt_inj.mp (?_ : n.toInt = 0)))
    by_contra hne
    have hsize : Number.sizeRank n.toInt.natAbs = toLex (1, toLex _) := if_neg fun h => hne (by omega)
    unfold wholeRank at hzero
    rw [hsize] at hzero
    split at hzero <;> cases hzero
  | decimal x => exact .inr ((Number.eq_zero_of_rank hp hzero).imp (congrArg _) (congrArg _))
  | _ => cases hp

theorem chars_zero : store.chars (.int 0) = ['0'] := by
  rw [chars_eq (acyclic_of_isAtomic rfl)]
  show Number.wholeText 0 = ['0']
  decide

theorem chars_decimal_zero : store.chars (.decimal 0.0) = ['0', '.', '0'] := by
  rw [chars_eq (acyclic_of_isAtomic rfl)]
  show Number.decimalText 0.0 = ['0', '.', '0']
  decide +kernel

theorem chars_negative_zero : store.chars (.decimal (-0.0)) = ['-', '0', '.', '0'] := by
  rw [chars_eq (acyclic_of_isAtomic rfl)]
  show Number.decimalText (-0.0) = ['-', '0', '.', '0']
  decide +kernel

/-- What has a rank is a number. -/
theorem family_of_rankOf? {value : Value} {p : Rank} (h : rankOf? value = some p) :
    value.family = some .decimal := by
  cases value with
  | int => rfl
  | decimal => rfl
  | _ => cases h

/-- The truth values are in the order of their texts. -/
theorem byText_booleans {x y : Bool} (hle : store.order (.boolean x) (.boolean y) ≠ .gt) :
    store.byText (.boolean x) (.boolean y) ≠ .gt := by
  have hself := (byText_laws store).self (a := .boolean x) trivial
  cases x <;> cases y
  · rw [hself]; exact nofun
  · have hacyclic : ∀ z, store.Acyclic (.boolean z) := fun _ => acyclic_of_isAtomic rfl
    obtain ⟨cs, hcs⟩ := chars_of_mark (hacyclic false) rfl
    obtain ⟨ds, hds⟩ := chars_of_mark (hacyclic true) rfl
    rw [(byText_lt_iff hcs hds (by decide)).mpr (by decide)]
    exact nofun
  · exact absurd rfl hle
  · rw [hself]; exact nofun

/-! ## Plain values -/

section Plain

variable (hplain : ∀ value, atoms value → value.isPlain = true)

include hplain

/-- Plain values can be sorted. -/
theorem sortable_plain : store.Sortable (store.Built atoms) :=
  sortable_built fun _ h => hplain _ h

/-- A plain value is a number or has a mark. -/
theorem rank_or_mark {value : Value} (h : store.Built atoms value) :
    (∃ p, rankOf? value = some p) ∨ ∃ mark, value.mark = some mark := by
  cases h with
  | list => exact .inr ⟨_, rfl⟩
  | atom ha hv =>
    have hv := hplain value hv
    cases value with
    | int n => exact .inl ⟨_, rfl⟩
    | decimal x => exact .inl (Number.beq_self_iff.mp hv)
    | null => exact .inr ⟨_, rfl⟩
    | boolean => exact .inr ⟨_, rfl⟩
    | string => exact .inr ⟨_, rfl⟩
    | pattern => exact .inr ⟨_, rfl⟩
    | _ => cases hv

/-- Only texts begin with a quotation mark, and only lists with a bracket. -/
theorem exists_begin_ne {value : Value} (h : store.Built atoms value) {mark : Char}
    (hmark : mark = '\'' ∨ mark = '[') (hne : value.mark ≠ some mark) :
    ∃ c rest, store.chars value = c :: rest ∧ c ≠ mark := by
  rcases rank_or_mark hplain h with ⟨p, hp⟩ | ⟨c, hc⟩
  · obtain ⟨c, rest, hchars, hbegins⟩ := chars_of_rank store hp
    have hcode := code_of_begins hbegins
    have hquote : '\''.toNat = 39 := rfl
    have hbracket : '['.toNat = 91 := rfl
    refine ⟨c, rest, hchars, ?_⟩
    rintro rfl
    rcases hmark with rfl | rfl <;> omega
  · obtain ⟨rest, hchars⟩ := chars_of_mark h.acyclic hc
    refine ⟨c, rest, hchars, ?_⟩
    rintro rfl
    exact hne hc

/-- Values of one mark are before the same values of other marks. -/
theorem byText_of_same_mark {a b c : Value} {mark : Char} (ha : store.Built atoms a)
    (hb : store.Built atoms b) (hc : store.Built atoms c) (hmark : mark = '\'' ∨ mark = '[')
    (hma : a.mark = some mark) (hmb : b.mark = some mark) (hmc : c.mark ≠ some mark)
    (hlt : store.byText b c = .lt) : store.byText a c = .lt := by
  obtain ⟨e, rest, hcs, hne⟩ := exists_begin_ne hplain hc hmark hmc
  obtain ⟨as, has⟩ := chars_of_mark ha.acyclic hma
  obtain ⟨bs, hbs⟩ := chars_of_mark hb.acyclic hmb
  rw [byText_lt_iff hbs hcs hne.symm] at hlt
  rw [byText_lt_iff has hcs hne.symm]
  exact hlt

/-- What is apart from numbers and behind one of them is behind all that are not greater. -/
theorem byText_of_numbers (hzeros : ¬ ZerosApart atoms) {a b c : Value} (ha : store.Built atoms a)
    (hb : store.Built atoms b) (hc : store.Built atoms c) (hna : a.family = some .decimal)
    (hnb : b.family = some .decimal) (hapart : ¬ b.Alike c) (hle : store.order a b ≠ .gt)
    (hlt : store.byText b c = .lt) : store.byText a c = .lt := by
  have hs : store.Sortable (store.Built atoms) := sortable_plain hplain
  obtain ⟨p, hp⟩ := hs.exists_rank ha hna
  obtain ⟨q, hq⟩ := hs.exists_rank hb hnb
  rcases rank_or_mark hplain hc with ⟨r, hr⟩ | ⟨mark, hm⟩
  · refine absurd ⟨?_, hnb.trans (family_of_rankOf? hr).symm⟩ hapart
    rw [hnb]
    exact nofun
  rcases byText_of_number_le hp hq (rank_le_of_order hp hq hle) hc.acyclic hm hlt with
    h | ⟨⟨source, rfl⟩, hpzero, hqzero, ⟨d, rest, hd, hdigit⟩, rest', hminus⟩
  · exact h
  -- the pattern stands between a zero without and a zero with a minus sign
  have hzero : atoms (.int 0) ∨ atoms (.decimal 0.0) := by
    rcases eq_zero_of_rankOf? hp hpzero with rfl | rfl | rfl
    · exact .inl (ha.of_isAtomic rfl)
    · exact .inr (ha.of_isAtomic rfl)
    · rw [chars_negative_zero] at hd
      cases hd
      exact absurd hdigit (by decide)
  have hnegative : atoms (.decimal (-0.0)) := by
    rcases eq_zero_of_rankOf? hq hqzero with rfl | rfl | rfl
    · rw [chars_zero] at hminus
      cases hminus
    · rw [chars_decimal_zero] at hminus
      cases hminus
    · exact hb.of_isAtomic rfl
  exact absurd ⟨hnegative, hzero, source, hc.of_isAtomic rfl⟩ hzeros

/-- Among plain values none stands between two others against their order, unless a pattern stands
between two zeros. -/
theorem noneBetween_built (hzeros : ¬ ZerosApart atoms) : store.NoneBetween (store.Built atoms) := by
  have hs : store.Sortable (store.Built atoms) := sortable_plain hplain
  intro a b c ha hb hc hab hac hbc hle hlt
  have hapart : ¬ b.Alike c := fun h => hbc (.inl h)
  -- `c` is of another kind than `b`, so its first character decides, except among numbers
  rcases hab.alike_or_equal hs ha hb with halike | ⟨hnone, heq⟩
  · cases b with
    | boolean y =>
      obtain ⟨x, rfl⟩ := halike.symm.boolean
      exact (byText_laws store).lt_of_le_of_lt trivial trivial trivial (byText_booleans hle) hlt
    | string y =>
      obtain ⟨x, rfl⟩ := halike.symm.string
      refine byText_of_same_mark hplain ha hb hc (.inl rfl) rfl rfl (fun h => ?_) hlt
      cases c with
      | string => exact hapart ⟨nofun, rfl⟩
      | boolean z => cases z <;> cases h
      | _ => cases h
    | list r =>
      obtain ⟨r', rfl⟩ := halike.symm.list
      refine byText_of_same_mark hplain ha hb hc (.inr rfl) rfl rfl (fun h => ?_) hlt
      cases c with
      | list => exact hapart ⟨nofun, rfl⟩
      | boolean z => cases z <;> cases h
      | _ => cases h
    | int n => exact byText_of_numbers hplain hzeros ha hb hc halike.2 rfl hapart hle hlt
    | decimal x => exact byText_of_numbers hplain hzeros ha hb hc halike.2 rfl hapart hle hlt
    | date => exact absurd (hplain _ (hb.of_isAtomic rfl)) Bool.false_ne_true
    | _ => exact absurd rfl halike.symm.1
  · cases (equal_iff ha.acyclic hb.acyclic).mp heq with
    | refl => exact hlt
    | decimals => cases hnone
    | wholeDecimal => cases hnone
    | decimalWhole => cases hnone
    | list => cases hnone
    | set => cases ha with
      | atom hatom => cases hatom
    | map => cases ha with
      | atom hatom => cases hatom
    | object => cases ha with
      | atom hatom => cases hatom

/-- **Plain values are totally ordered** if no integers fold and no pattern is between two zeros. -/
theorem orderLaws_built (hfold : ¬ Folds atoms) (hzeros : ¬ ZerosApart atoms) :
    OrderLaws store.order (store.Built atoms) := by
  have hs : store.Sortable (store.Built atoms) := sortable_plain hplain
  exact hs.orderLaws (equalityLaws_built hfold) (noneBetween_built hplain hzeros)

end Plain

end Store

end Ckl
