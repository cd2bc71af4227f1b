import Ckl.Eval
import Ckl.Proofs.Value.AtomSets
import Mathlib.Data.List.TakeWhile
import Mathlib.Data.String.Basic

/-!
# Texts that pass as dates and times

What passes as a date or a time is measured in bytes and then read field by field. A field leaves out the
blanks before it and may have fewer digits than its width, so more texts pass than those that are
digits throughout (`dates_and_times_accepted`): `2024 1 1` has eight bytes and is read as a date. Among texts of
digits just those pass that name a date or a time.
-/

namespace Ckl.Calendar

open Format (skipBlanks takeNumber readNumber readFrom)
open Number (ofDigits areDigits readNatural)
open String (utf8Len)

/-! ## Digits in front of a text -/

/-- The digits in front of a text: all that stand there, but no more than `width`. -/
structure Leading (width : Nat) (digits rest : List Char) : Prop where
  ne_nil : digits ≠ []
  isDigit : ∀ c ∈ digits, c.isDigit = true
  length_le : digits.length ≤ width
  complete : digits.length < width → ∀ c ∈ rest.head?, c.isDigit = false

/-- Digits are no blanks, -/
theorem isBlank_of_isDigit {c : Char} (h : c.isDigit = true) : Text.isBlank c = false := by
  have hc : 48 ≤ c.toNat ∧ c.toNat ≤ 57 := by
    simpa [Char.isDigit, UInt32.le_iff_toNat_le] using h
  simp only [Text.isBlank, Bool.or_eq_false_iff, Bool.and_eq_false_imp, decide_eq_true_eq,
    decide_eq_false_iff_not, beq_eq_false_iff_ne]
  omega

/-- and one byte each. -/
theorem utf8Size_of_isDigit {c : Char} (h : c.isDigit = true) : c.utf8Size = 1 := by
  simp only [Char.isDigit, Bool.and_eq_true, decide_eq_true_eq, UInt32.le_iff_toNat_le] at h
  rw [Char.utf8Size, if_pos (UInt32.le_iff_toNat_le.mpr (h.2.trans (by decide)))]

/-- What does not begin with a digit has no digits in front. -/
theorem takeWhile_eq_nil_of_head {cs : List Char} (h : ∀ c ∈ cs.head?, c.isDigit = false) :
    cs.takeWhile Char.isDigit = [] := by
  cases cs with
  | nil => rfl
  | cons c cs => simp [h c rfl]

/-- Digits are taken up to the width. -/
theorem Leading.takeWhile_take {width : Nat} {digits rest : List Char} (h : Leading width digits rest) :
    ((digits ++ rest).take width).takeWhile Char.isDigit = digits := by
  have hrest : (rest.take (width - digits.length)).takeWhile Char.isDigit = [] := by
    refine takeWhile_eq_nil_of_head fun c hc => ?_
    rw [List.head?_take] at hc
    split at hc
    · cases hc
    · exact h.complete (by omega) c hc
  rw [List.take_append, List.take_of_length_le h.length_le, List.takeWhile_append_of_pos h.isDigit, hrest,
    List.append_nil]

/-- What has been taken leads the text. -/
theorem leading_takeWhile {width : Nat} {cs digits : List Char}
    (htaken : (cs.take width).takeWhile Char.isDigit = digits) (hne : digits ≠ []) :
    Leading width digits (cs.drop digits.length) := by
  have htake : cs.take width = digits ++ (cs.take width).dropWhile Char.isDigit := by
    rw [← htaken, List.takeWhile_append_dropWhile]
  refine ⟨hne, ?_, ?_, fun hlt c hc => ?_⟩
  · rw [← htaken]
    exact fun c hc => List.mem_takeWhile_imp hc
  · have hlength := congrArg List.length htake
    simp only [List.length_take, List.length_append] at hlength
    omega
  · -- the first character behind the digits is the first one that is no digit
    have hdrop : (cs.take width).dropWhile Char.isDigit =
        (cs.drop digits.length).take (width - digits.length) := by
      have hbehind := congrArg (List.drop digits.length) htake
      rwa [List.drop_left, List.drop_take, eq_comm] at hbehind
    have hhead := List.head?_dropWhile_not Char.isDigit (cs.take width)
    rw [hdrop, List.head?_take, if_neg (by omega), hc] at hhead
    exact hhead

/-- A number is taken from a text if digits lead it. -/
theorem takeNumber_eq_some_iff {width n : Nat} {cs rest : List Char} :
    takeNumber width cs = some (n, rest) ↔
      ∃ digits, cs = digits ++ rest ∧ Leading width digits rest ∧ n = ofDigits digits := by
  unfold takeNumber
  constructor
  · intro h
    simp only [Option.ite_none_left_eq_some, List.isEmpty_iff, Option.some.injEq, Prod.mk.injEq] at h
    obtain ⟨hne, rfl, rfl⟩ := h
    refine ⟨_, ?_, leading_takeWhile rfl hne, rfl⟩
    have hprefix := (List.takeWhile_prefix Char.isDigit).trans (List.take_prefix width cs)
    exact (List.prefix_iff_eq_append.mp hprefix).symm
  · rintro ⟨digits, rfl, hleading, rfl⟩
    simp [hleading.takeWhile_take, hleading.ne_nil]

/-! ## Fields -/

/-- A text begins with a number: behind blanks, digits lead it. -/
def BeginsWithNumber (width : Nat) (cs : List Char) (n : Nat) (rest : List Char) : Prop :=
  ∃ digits, skipBlanks cs = digits ++ rest ∧ Leading width digits rest ∧ n = ofDigits digits

/-- A text begins with a year: a number of at most four digits, or a sign before any number of digits. -/
inductive BeginsWithYear (cs : List Char) : Int → List Char → Prop
  | plain {n : Nat} {rest : List Char} : BeginsWithNumber 4 cs n rest → BeginsWithYear cs n rest
  | plus {digits rest : List Char} : skipBlanks cs = '+' :: (digits ++ rest) →
    Leading (digits ++ rest).length digits rest → BeginsWithYear cs (ofDigits digits) rest
  | minus {digits rest : List Char} : skipBlanks cs = '-' :: (digits ++ rest) →
    Leading (digits ++ rest).length digits rest → BeginsWithYear cs (-ofDigits digits) rest

/-- The fields after a number at the beginning of a text. -/
theorem takeNumber_bind_eq_some_iff (say : Nat → Option Fields) {width : Nat} {cs rest : List Char}
    {after : Fields} :
    (do
      let (n, rest) ← takeNumber width cs
      return (← say n, rest)) = some (after, rest) ↔
      ∃ digits, cs = digits ++ rest ∧ Leading width digits rest ∧ say (ofDigits digits) = some after := by
  simp only [Option.bind_eq_bind, Option.bind_eq_some_iff, Prod.exists, takeNumber_eq_some_iff]
  constructor
  · rintro ⟨n, left, ⟨digits, hcs, hleading, rfl⟩, fields, hsay, heq⟩
    cases heq
    exact ⟨digits, hcs, hleading, hsay⟩
  · rintro ⟨digits, hcs, hleading, hsay⟩
    exact ⟨_, rest, ⟨digits, hcs, hleading, rfl⟩, after, hsay, rfl⟩

/-- A field other than the year is read from one digit up to its width, after blanks. -/
theorem readNumber_eq_some_iff {field : NumberField} (hfield : field ≠ .year) {fields after : Fields}
    {cs rest : List Char} : readNumber field fields cs = some (after, rest) ↔
      ∃ n, BeginsWithNumber field.width cs n rest ∧ field.set fields n = some after := by
  have hread : readNumber field fields cs = (do
      let (n, rest) ← takeNumber field.width (skipBlanks cs)
      return (← field.set fields n, rest)) := by
    cases field <;> first | rfl | exact absurd rfl hfield
  rw [hread, takeNumber_bind_eq_some_iff (field.set fields)]
  constructor
  · rintro ⟨digits, hcs, hleading, hset⟩
    exact ⟨_, ⟨digits, hcs, hleading, rfl⟩, hset⟩
  · rintro ⟨_, ⟨digits, hcs, hleading, rfl⟩, hset⟩
    exact ⟨digits, hcs, hleading, hset⟩

/-- A year is read with a sign if it has one. -/
theorem readNumber_year_eq_some_iff {fields after : Fields} {cs rest : List Char} :
    readNumber .year fields cs = some (after, rest) ↔
      ∃ year, BeginsWithYear cs year rest ∧ fields.withYear year = some after := by
  unfold readNumber
  constructor
  · intro h
    split at h
    · next hs =>
      obtain ⟨digits, rfl, hleading, hset⟩ :=
        (takeNumber_bind_eq_some_iff fun n => fields.withYear (-n)).mp h
      exact ⟨_, .minus hs hleading, hset⟩
    · next hs =>
      obtain ⟨digits, rfl, hleading, hset⟩ :=
        (takeNumber_bind_eq_some_iff fun n => fields.withYear n).mp h
      exact ⟨_, .plus hs hleading, hset⟩
    · obtain ⟨digits, hcs, hleading, hset⟩ := (takeNumber_bind_eq_some_iff _).mp h
      exact ⟨_, .plain ⟨digits, hcs, hleading, rfl⟩, hset⟩
  · rintro ⟨_, hyear, hset⟩
    cases hyear with
    | plus hcs hleading =>
      simp only [hcs]
      exact (takeNumber_bind_eq_some_iff fun n => fields.withYear n).mpr
        ⟨_, rfl, hleading, hset⟩
    | minus hcs hleading =>
      simp only [hcs]
      exact (takeNumber_bind_eq_some_iff fun n => fields.withYear (-n)).mpr
        ⟨_, rfl, hleading, hset⟩
    | plain hnumber =>
      obtain ⟨digits, hcs, hleading, rfl⟩ := hnumber
      -- a number without a sign begins with a digit, so it is not taken for one with a sign
      have hdigit : ∀ c t, skipBlanks cs = c :: t → c.isDigit = true := by
        intro c t hs
        obtain ⟨d, ds, rfl⟩ := List.exists_cons_of_ne_nil hleading.ne_nil
        rw [hcs, List.cons_append] at hs
        cases hs
        exact hleading.isDigit c List.mem_cons_self
      split
      · next hs => exact absurd (hdigit _ _ hs) (by decide)
      · next hs => exact absurd (hdigit _ _ hs) (by decide)
      · exact (takeNumber_bind_eq_some_iff _).mpr ⟨digits, hcs, hleading, hset⟩

/-! ## Texts that are read as dates and times -/

/-- A text is read as a date: it is a year, a month and a day, and there is such a day. -/
def ReadsAsDate (cs : List Char) : Prop :=
  ∃ year month day afterYear afterMonth, BeginsWithYear cs year afterYear ∧
    BeginsWithNumber 2 afterYear month afterMonth ∧ BeginsWithNumber 2 afterMonth day [] ∧
    (⟨year, month, day⟩ : Civil).isValid = true

/-- A text is read as an hour: digits, perhaps behind a plus sign. -/
def ReadsAsHour (cs : List Char) : Prop :=
  ∃ digits, (cs = digits ∨ cs = '+' :: digits) ∧ digits ≠ [] ∧ (∀ c ∈ digits, c.isDigit = true) ∧
    ofDigits digits < 24

/-- A text is read as a date of eight bytes with an hour behind it. -/
def ReadsAsDateWithHour (cs : List Char) : Prop :=
  ∃ front back, cs = front ++ back ∧ utf8Len front = 8 ∧ ReadsAsDate front ∧ ReadsAsHour back

/-- A text is read as a time: it is an hour and a minute. -/
def ReadsAsTime (cs : List Char) : Prop :=
  ∃ hour minute afterHour, BeginsWithNumber 2 cs hour afterHour ∧
    BeginsWithNumber 2 afterHour minute [] ∧ hour < 24 ∧ minute < 60

/-! ### Fields that say a day or a time -/

/-- A month that has days is one of the twelve. -/
theorem month_of_monthLength_pos {year : Int} {month : Nat} (h : 1 ≤ monthLength year month) :
    1 ≤ month ∧ month ≤ 12 := by
  unfold monthLength at h
  split at h <;> omega

/-- No month has more than 31 days. -/
theorem monthLength_le (year : Int) (month : Nat) : monthLength year month ≤ 31 := by
  have hleap : (if isLeapYear year then 29 else 28) ≤ 31 := by split <;> decide
  unfold monthLength
  split <;> first | exact hleap | decide

theorem within_eq_some_iff {low high n m : Nat} :
    within low high n = some m ↔ (low ≤ n ∧ n ≤ high) ∧ n = m := by
  rw [within, Option.ite_none_right_eq_some, Option.some.injEq]

/-- A year is taken as it is read, within its bounds, -/
theorem withYear_eq_some_iff {fields : Fields} {year : Int} :
    ({} : Fields).withYear year = some fields ↔
      (-2147483648 ≤ year ∧ year ≤ 2147483647) ∧ { year := some year } = fields := by
  simp [Fields.withYear, agree]

/-- and so are a month -/
theorem withMonth_eq_some_iff {year : Option Int} {fields : Fields} {month : Nat} :
    ({ year } : Fields).withMonth month = some fields ↔
      (1 ≤ month ∧ month ≤ 12) ∧ { year, month := some month } = fields := by
  simp [Fields.withMonth, agree, Option.bind_eq_some_iff, within_eq_some_iff, and_assoc]

/-- and a day. -/
theorem withDay_eq_some_iff {year : Option Int} {month : Option Nat} {fields : Fields} {day : Nat} :
    ({ year, month } : Fields).withDay day = some fields ↔
      (1 ≤ day ∧ day ≤ 31) ∧ { year, month, day := some day } = fields := by
  simp [Fields.withDay, agree, Option.bind_eq_some_iff, within_eq_some_iff, and_assoc]

/-- The three fields name a date if the month has such a day and the year is within the calendar. -/
theorem date?_isSome_iff (year : Int) (month day : Nat) :
    ({ year := some year, month := some month, day := some day } : Fields).date?.isSome = true ↔
      (⟨year, month, day⟩ : Civil).isValid = true := by
  simp [Fields.date?, Fields.fullYear?, Fields.agreesWithDay, dayNumber?]

/-- The fields of a date say one just if there is such a day. -/
theorem exists_date_iff (year : Int) (month day : Nat) :
    (∃ withYear withMonth withDay : Fields, ({} : Fields).withYear year = some withYear ∧
      withYear.withMonth month = some withMonth ∧ withMonth.withDay day = some withDay ∧
      withDay.date?.isSome = true) ↔ (⟨year, month, day⟩ : Civil).isValid = true := by
  constructor
  · rintro ⟨withYear, withMonth, withDay, hyear, hmonth, hday, hdate⟩
    obtain ⟨-, rfl⟩ := withYear_eq_some_iff.mp hyear
    obtain ⟨-, rfl⟩ := withMonth_eq_some_iff.mp hmonth
    obtain ⟨-, rfl⟩ := withDay_eq_some_iff.mp hday
    exact (date?_isSome_iff year month day).mp hdate
  · intro hvalid
    have hbounds := hvalid
    simp only [Civil.isValid, Bool.and_eq_true, decide_eq_true_eq] at hbounds
    unfold firstYear lastYear at hbounds
    have hmonth := month_of_monthLength_pos (hbounds.1.2.trans hbounds.2)
    have hday := hbounds.2.trans (monthLength_le year month)
    exact ⟨_, _, _, withYear_eq_some_iff.mpr ⟨by omega, rfl⟩, withMonth_eq_some_iff.mpr ⟨hmonth, rfl⟩,
      withDay_eq_some_iff.mpr ⟨⟨hbounds.1.2, hday⟩, rfl⟩, (date?_isSome_iff year month day).mpr hvalid⟩

/-- The fields of a time say one just if there is such an hour and such a minute. -/
theorem exists_time_iff (hour minute : Nat) :
    (∃ withHour withMinute : Fields, ({} : Fields).withHour hour = some withHour ∧
      withHour.withMinute minute = some withMinute ∧ withMinute.time?.isSome = true) ↔
      hour < 24 ∧ minute < 60 := by
  rw [Nat.lt_succ_iff (n := 23), Nat.lt_succ_iff (n := 59)]
  simp [Fields.withHour, Fields.withAfternoon, Fields.withMinute, agree, Option.bind_eq_some_iff,
    within_eq_some_iff, Fields.time?]

/-! ### What the tests ask -/

/-- Fields are read one after the other, -/
theorem readFrom_cons_eq_some_iff {item : FormatItem} {items : Format} {fields result : Fields}
    {cs : List Char} : readFrom fields (item :: items) cs = some result ↔
      ∃ after rest, Format.readItem item fields cs = some (after, rest) ∧
        readFrom after items rest = some result := by
  simp only [readFrom, Option.bind_eq_bind, Option.bind_eq_some_iff, Prod.exists]

/-- up to the end of the text. -/
theorem readFrom_nil_eq_some_iff {fields result : Fields} {cs : List Char} :
    readFrom fields [] cs = some result ↔ cs = [] ∧ fields = result := by
  cases cs <;> simp [readFrom]

/-- A compact date is read from a year, a month and a day. -/
theorem readDay_isSome_iff (text : String) :
    (compactDate.readDay text).isSome = true ↔ ReadsAsDate text.toList := by
  have hformat : compactDate = [.number .year, .number .month, .number .day] := rfl
  simp only [Format.readDay, Option.isSome_bind, Option.any_eq_true, Format.read, hformat,
    readFrom_cons_eq_some_iff, readFrom_nil_eq_some_iff, Format.readItem, readNumber_year_eq_some_iff,
    readNumber_eq_some_iff (by decide : NumberField.month ≠ .year),
    readNumber_eq_some_iff (by decide : NumberField.day ≠ .year), ReadsAsDate, ← exists_date_iff]
  constructor
  · rintro ⟨fields, ⟨withYear, afterYear, ⟨year, hyear, hsay⟩, withMonth, afterMonth, ⟨month, hmonth, hsay'⟩,
      withDay, _, ⟨day, hday, hsay''⟩, rfl, rfl⟩, hdate⟩
    exact ⟨year, month, day, afterYear, afterMonth, hyear, hmonth, hday, withYear, withMonth, withDay, hsay,
      hsay', hsay'', hdate⟩
  · rintro ⟨year, month, day, afterYear, afterMonth, hyear, hmonth, hday, withYear, withMonth, withDay, hsay,
      hsay', hsay'', hdate⟩
    exact ⟨withDay, ⟨withYear, afterYear, ⟨year, hyear, hsay⟩, withMonth, afterMonth, ⟨month, hmonth, hsay'⟩,
      withDay, [], ⟨day, hday, hsay''⟩, rfl, rfl⟩, hdate⟩

/-- A compact time is read from an hour and a minute. -/
theorem readTime_isSome_iff (text : String) :
    ((compactTime.read text).bind Fields.time?).isSome = true ↔ ReadsAsTime text.toList := by
  have hformat : compactTime = [.number .hour, .number .minute] := rfl
  simp only [Option.isSome_bind, Option.any_eq_true, Format.read, hformat,
    readFrom_cons_eq_some_iff, readFrom_nil_eq_some_iff, Format.readItem,
    readNumber_eq_some_iff (by decide : NumberField.hour ≠ .year),
    readNumber_eq_some_iff (by decide : NumberField.minute ≠ .year), ReadsAsTime, ← exists_time_iff]
  constructor
  · rintro ⟨fields, ⟨withHour, afterHour, ⟨hour, hhour, hsay⟩, withMinute, _, ⟨minute, hminute, hsay'⟩, rfl,
      rfl⟩, htime⟩
    exact ⟨hour, minute, afterHour, hhour, hminute, withHour, withMinute, hsay, hsay', htime⟩
  · rintro ⟨hour, minute, afterHour, hhour, hminute, withHour, withMinute, hsay, hsay', htime⟩
    exact ⟨withMinute, ⟨withHour, afterHour, ⟨hour, hhour, hsay⟩, withMinute, [],
      ⟨minute, hminute, hsay'⟩, rfl, rfl⟩, htime⟩

/-- An hour is a number up to 23, perhaps with a sign. -/
theorem isHour_iff (cs : List Char) : isHour cs = true ↔ ReadsAsHour cs := by
  have hbody (body : List Char) :
      (if areDigits body then some (ofDigits body) else none).any (· < 24) = true ↔
        body ≠ [] ∧ (∀ c ∈ body, c.isDigit = true) ∧ ofDigits body < 24 := by
    simp [areDigits, Option.any_eq_true, and_assoc]
  unfold isHour readNatural
  split
  · next rest =>
    rw [hbody]
    refine ⟨fun h => ⟨rest, .inr rfl, h⟩, ?_⟩
    rintro ⟨digits, rfl | heq, h⟩
    · exact absurd (h.2.1 '+' List.mem_cons_self) (by decide)
    · cases heq
      exact h
  · next hsign =>
    rw [hbody]
    refine ⟨fun h => ⟨cs, .inl rfl, h⟩, ?_⟩
    rintro ⟨digits, rfl | heq, h⟩
    · exact h
    · exact (hsign digits heq).elim

/-- A text is split at a number of bytes if a character begins there. -/
theorem splitBytes_eq_some_iff {size : Nat} {cs front back : List Char} :
    splitBytes size cs = some (front, back) ↔ cs = front ++ back ∧ utf8Len front = size := by
  fun_induction splitBytes size cs generalizing front back with
  | case1 cs =>
    simp only [Option.some.injEq, Prod.mk.injEq, String.utf8Len_eq_zero]
    constructor
    · rintro ⟨rfl, rfl⟩
      exact ⟨rfl, rfl⟩
    · rintro ⟨rfl, rfl⟩
      exact ⟨rfl, rfl⟩
  | case2 size =>
    refine iff_of_false nofun ?_
    rintro ⟨hnil, hlen⟩
    rw [(List.append_eq_nil_iff.mp hnil.symm).1] at hlen
    cases hlen
  | case3 size c cs hne hfits ih =>
    simp only [Option.map_eq_some_iff, Prod.exists, Prod.mk.injEq, ih]
    constructor
    · rintro ⟨front, back, ⟨rfl, hlen⟩, rfl, rfl⟩
      exact ⟨rfl, by rw [String.utf8Len_cons]; omega⟩
    · rintro ⟨hcs, hlen⟩
      cases front with
      | nil => exact (hne hlen.symm).elim
      | cons d front =>
        cases hcs
        rw [String.utf8Len_cons] at hlen
        exact ⟨front, back, ⟨rfl, by omega⟩, rfl, rfl⟩
  | case4 size c cs hne hfits =>
    refine iff_of_false nofun ?_
    rintro ⟨hcs, hlen⟩
    cases front with
    | nil => exact hne hlen.symm
    | cons d front =>
      cases hcs
      rw [String.utf8Len_cons] at hlen
      omega

/-- The test of dates asks for eight bytes that read as a date, -/
theorem isDate_iff (text : String) :
    isDate text = true ↔ utf8Len text.toList = 8 ∧ ReadsAsDate text.toList := by
  rw [isDate, Bool.and_eq_true, beq_iff_eq, readDay_isSome_iff, String.utf8Len_toList]

/-- for ten if the hour belongs to them, -/
theorem isDateWithHour_iff (text : String) :
    isDateWithHour text = true ↔ utf8Len text.toList = 10 ∧ ReadsAsDateWithHour text.toList := by
  simp only [isDateWithHour, ReadsAsDateWithHour, Bool.and_eq_true, beq_iff_eq, Option.any_eq_true,
    Prod.exists, splitBytes_eq_some_iff, readDay_isSome_iff, isHour_iff, String.toList_ofList, and_assoc,
    String.utf8Len_toList]

/-- and that of times for four bytes. -/
theorem isTime_iff (text : String) :
    isTime text = true ↔ utf8Len text.toList = 4 ∧ ReadsAsTime text.toList := by
  rw [isTime, Bool.and_eq_true, beq_iff_eq, readTime_isSome_iff, String.utf8Len_toList]

/-! ## Texts of digits -/

/-- Eight digits that name a day: its year, its month and its day. -/
def NamesDate (cs : List Char) : Prop :=
  cs.length = 8 ∧ (∀ c ∈ cs, c.isDigit = true) ∧
    (⟨ofDigits (cs.take 4), ofDigits ((cs.drop 4).take 2), ofDigits (cs.drop 6)⟩ : Civil).isValid = true

/-- Ten digits that name a day and an hour of it. -/
def NamesDateWithHour (cs : List Char) : Prop :=
  cs.length = 10 ∧ (∀ c ∈ cs, c.isDigit = true) ∧ NamesDate (cs.take 8) ∧ ofDigits (cs.drop 8) ≤ 23

/-- Four digits that name an hour and a minute. -/
def NamesTime (cs : List Char) : Prop :=
  cs.length = 4 ∧ (∀ c ∈ cs, c.isDigit = true) ∧ ofDigits (cs.take 2) ≤ 23 ∧ ofDigits (cs.drop 2) ≤ 59

section Digits

variable {cs rest : List Char} (hcs : ∀ c ∈ cs, c.isDigit = true)

include hcs

/-- Digits are as many bytes as characters. -/
theorem utf8Len_of_digits : utf8Len cs = cs.length := by
  induction cs with
  | nil => rfl
  | cons c cs ih =>
    have hsize : c.utf8Size = 1 := utf8Size_of_isDigit (hcs c List.mem_cons_self)
    rw [String.utf8Len_cons, ih fun d hd => hcs d (List.mem_cons_of_mem c hd), hsize, List.length_cons]

/-- There are no blanks among them. -/
theorem skipBlanks_of_digits : skipBlanks cs = cs := by
  cases cs with
  | nil => rfl
  | cons c cs => simp [skipBlanks, isBlank_of_isDigit (hcs c List.mem_cons_self)]

/-- A field of such a width takes as many digits as there are, up to the width. -/
theorem leading_of_digits {width : Nat} (hne : cs ≠ []) (hwidth : 0 < width) :
    Leading width (cs.take width) (cs.drop width) where
  ne_nil := by simp [hne, hwidth.ne']
  isDigit c hc := hcs c (List.mem_of_mem_take hc)
  length_le := List.length_take_le width cs
  complete hlt := by
    rw [List.drop_eq_nil_of_le (by rw [List.length_take] at hlt; omega)]
    exact nofun

/-- From a text of digits as many are taken as the width allows. -/
theorem beginsWithNumber_iff_of_digits {width n : Nat} (hwidth : 0 < width) :
    BeginsWithNumber width cs n rest ↔ cs ≠ [] ∧ n = ofDigits (cs.take width) ∧ rest = cs.drop width := by
  unfold BeginsWithNumber
  rw [skipBlanks_of_digits hcs]
  constructor
  · rintro ⟨digits, rfl, hleading, rfl⟩
    have htake : (digits ++ rest).take width = digits := by
      rw [← List.takeWhile_eq_self_iff.mpr fun c hc => hcs c (List.mem_of_mem_take hc),
        hleading.takeWhile_take]
    have hdrop := List.take_append_drop width (digits ++ rest)
    rw [htake, List.append_cancel_left_eq] at hdrop
    exact ⟨List.append_ne_nil_of_left_ne_nil hleading.ne_nil rest, by rw [htake], hdrop.symm⟩
  · rintro ⟨hne, rfl, rfl⟩
    exact ⟨cs.take width, (List.take_append_drop width cs).symm, leading_of_digits hcs hne hwidth, rfl⟩

/-- The year takes four of them. -/
theorem beginsWithYear_iff_of_digits {year : Int} : BeginsWithYear cs year rest ↔
    cs ≠ [] ∧ year = ofDigits (cs.take 4) ∧ rest = cs.drop 4 := by
  have hnumber {n : Nat} : BeginsWithNumber 4 cs n rest ↔
      cs ≠ [] ∧ n = ofDigits (cs.take 4) ∧ rest = cs.drop 4 :=
    beginsWithNumber_iff_of_digits hcs (by decide)
  constructor
  · intro h
    cases h with
    | plain h =>
      obtain ⟨hne, rfl, hrest⟩ := hnumber.mp h
      exact ⟨hne, rfl, hrest⟩
    | plus hsign =>
      rw [skipBlanks_of_digits hcs] at hsign
      exact absurd (hcs '+' (hsign ▸ List.mem_cons_self)) (by decide)
    | minus hsign =>
      rw [skipBlanks_of_digits hcs] at hsign
      exact absurd (hcs '-' (hsign ▸ List.mem_cons_self)) (by decide)
  · rintro ⟨hne, rfl, hrest⟩
    exact .plain (hnumber.mpr ⟨hne, rfl, hrest⟩)

/-- On eight digits the reading is the one that is expected: four, two and two of them. -/
theorem readsAsDate_iff_of_digits (hlen : cs.length = 8) : ReadsAsDate cs ↔ NamesDate cs := by
  have hmonth : ∀ c ∈ cs.drop 4, c.isDigit = true := fun c hc => hcs c (List.mem_of_mem_drop hc)
  have hday : ∀ c ∈ cs.drop 6, c.isDigit = true := fun c hc => hcs c (List.mem_of_mem_drop hc)
  have hnone : cs ≠ [] ∧ cs.drop 4 ≠ [] ∧ cs.drop 6 ≠ [] := by
    simp only [ne_eq, ← List.length_eq_zero_iff, List.length_drop]
    omega
  have hlast : (cs.drop 6).length ≤ 2 := by
    rw [List.length_drop]
    omega
  constructor
  · rintro ⟨year, month, day, afterYear, afterMonth, hy, hm, hd, hvalid⟩
    obtain ⟨-, rfl, rfl⟩ := (beginsWithYear_iff_of_digits hcs).mp hy
    obtain ⟨-, rfl, rfl⟩ := (beginsWithNumber_iff_of_digits hmonth (by decide)).mp hm
    rw [List.drop_drop] at hd
    obtain ⟨-, rfl, -⟩ := (beginsWithNumber_iff_of_digits hday (by decide)).mp hd
    rw [List.take_of_length_le hlast] at hvalid
    exact ⟨hlen, hcs, hvalid⟩
  · rintro ⟨-, -, hvalid⟩
    refine ⟨_, _, _, _, cs.drop 6, (beginsWithYear_iff_of_digits hcs).mpr ⟨hnone.1, rfl, rfl⟩,
      (beginsWithNumber_iff_of_digits hmonth (by decide)).mpr ⟨hnone.2.1, rfl, by rw [List.drop_drop]⟩,
      (beginsWithNumber_iff_of_digits hday (by decide)).mpr
        ⟨hnone.2.2, rfl, (List.drop_eq_nil_of_le hlast).symm⟩, ?_⟩
    rw [List.take_of_length_le hlast]
    exact hvalid

/-- So is that of an hour, -/
theorem readsAsHour_iff_of_digits (hne : cs ≠ []) : ReadsAsHour cs ↔ ofDigits cs ≤ 23 := by
  constructor
  · rintro ⟨digits, rfl | rfl, -, -, hbound⟩
    · omega
    · exact absurd (hcs '+' List.mem_cons_self) (by decide)
  · intro hbound
    exact ⟨cs, .inl rfl, hne, hcs, by omega⟩

/-- that of a date with an hour -/
theorem readsAsDateWithHour_iff_of_digits (hlen : cs.length = 10) :
    ReadsAsDateWithHour cs ↔ NamesDateWithHour cs := by
  have hfront : ∀ c ∈ cs.take 8, c.isDigit = true := fun c hc => hcs c (List.mem_of_mem_take hc)
  have hback : ∀ c ∈ cs.drop 8, c.isDigit = true := fun c hc => hcs c (List.mem_of_mem_drop hc)
  have hfrontlen : (cs.take 8).length = 8 := by
    rw [List.length_take]
    omega
  have hne : cs.drop 8 ≠ [] := by
    simp only [ne_eq, ← List.length_eq_zero_iff, List.length_drop]
    omega
  constructor
  · rintro ⟨front, back, rfl, hsize, hdate, hhour⟩
    rw [utf8Len_of_digits fun c hc => hcs c (List.mem_append_left back hc)] at hsize
    rw [List.take_left' hsize] at hfront
    rw [List.drop_left' hsize] at hback hne
    refine ⟨hlen, hcs, ?_, ?_⟩
    · rw [List.take_left' hsize]
      exact (readsAsDate_iff_of_digits hfront hsize).mp hdate
    · rw [List.drop_left' hsize]
      exact (readsAsHour_iff_of_digits hback hne).mp hhour
  · rintro ⟨-, -, hdate, hhour⟩
    exact ⟨cs.take 8, cs.drop 8, (List.take_append_drop 8 cs).symm,
      (utf8Len_of_digits hfront).trans hfrontlen,
      (readsAsDate_iff_of_digits hfront hfrontlen).mpr hdate,
      (readsAsHour_iff_of_digits hback hne).mpr hhour⟩

/-- and that of a time. -/
theorem readsAsTime_iff_of_digits (hlen : cs.length = 4) : ReadsAsTime cs ↔ NamesTime cs := by
  have hminute : ∀ c ∈ cs.drop 2, c.isDigit = true := fun c hc => hcs c (List.mem_of_mem_drop hc)
  have hnone : cs ≠ [] ∧ cs.drop 2 ≠ [] := by
    simp only [ne_eq, ← List.length_eq_zero_iff, List.length_drop]
    omega
  have hlast : (cs.drop 2).length ≤ 2 := by
    rw [List.length_drop]
    omega
  constructor
  · rintro ⟨hour, minute, afterHour, hh, hm, hbounds⟩
    obtain ⟨-, rfl, rfl⟩ := (beginsWithNumber_iff_of_digits hcs (by decide)).mp hh
    obtain ⟨-, rfl, -⟩ := (beginsWithNumber_iff_of_digits hminute (by decide)).mp hm
    rw [List.take_of_length_le hlast] at hbounds
    exact ⟨hlen, hcs, by omega⟩
  · rintro ⟨-, -, hbounds⟩
    refine ⟨_, _, cs.drop 2, (beginsWithNumber_iff_of_digits hcs (by decide)).mpr ⟨hnone.1, rfl, rfl⟩,
      (beginsWithNumber_iff_of_digits hminute (by decide)).mpr
        ⟨hnone.2, rfl, (List.drop_eq_nil_of_le hlast).symm⟩, ?_⟩
    rw [List.take_of_length_le hlast]
    omega

end Digits

/-- Of the texts of a size, those of digits pass if they name something, the others if they are read. -/
theorem passes_iff {cs : List Char} {size : Nat} {reads names : Prop}
    (hnames : names → cs.length = size ∧ ∀ c ∈ cs, c.isDigit = true)
    (hdigits : (∀ c ∈ cs, c.isDigit = true) → cs.length = size → (reads ↔ names)) :
    utf8Len cs = size ∧ reads ↔
      names ∨ utf8Len cs = size ∧ (∃ c ∈ cs, c.isDigit = false) ∧ reads := by
  by_cases hall : ∀ c ∈ cs, c.isDigit = true
  · have hother : ¬ ∃ c ∈ cs, c.isDigit = false := by
      rintro ⟨c, hc, hfalse⟩
      rw [hall c hc] at hfalse
      cases hfalse
    rw [utf8Len_of_digits hall]
    constructor
    · rintro ⟨hlen, hreads⟩
      exact .inl ((hdigits hall hlen).mp hreads)
    · rintro (h | ⟨_, hexists, _⟩)
      · exact ⟨(hnames h).1, (hdigits hall (hnames h).1).mpr h⟩
      · exact absurd hexists hother
  · have hother : ∃ c ∈ cs, c.isDigit = false := by simpa using hall
    constructor
    · rintro ⟨hlen, hreads⟩
      exact .inr ⟨hlen, hother, hreads⟩
    · rintro (h | ⟨hlen, _, hreads⟩)
      · exact absurd (hnames h).2 hall
      · exact ⟨hlen, hreads⟩

end Ckl.Calendar

namespace Ckl

open Calendar

/-- **What passes as a date or a time.** A text passes if it is the digits of a date, of a date with an hour
or of a time, and no other text of digits does. Of the texts in which other characters stand those pass
that have as many bytes and are read field by field. -/
theorem dates_and_times_accepted (evaluator : Evaluator) (frame : FrameRef) (position : Source.Position)
    (store : Store) (text : String) :
    (∃ answer, invoke evaluator (.builtin .isDate) (Builtin.positional [.string text]) frame position
        store = .ok (.boolean answer) store ∧
      (answer = true ↔ NamesDate text.toList ∨ text.utf8ByteSize = 8 ∧
        (∃ c ∈ text.toList, c.isDigit = false) ∧ ReadsAsDate text.toList)) ∧
    (∃ answer, invoke evaluator (.builtin .isDate)
        [⟨none, .string text⟩, ⟨some "with_hour", .boolean true⟩] frame position store =
          .ok (.boolean answer) store ∧
      (answer = true ↔ NamesDateWithHour text.toList ∨ text.utf8ByteSize = 10 ∧
        (∃ c ∈ text.toList, c.isDigit = false) ∧ ReadsAsDateWithHour text.toList)) ∧
    ∃ answer, invoke evaluator (.builtin .isTime) (Builtin.positional [.string text]) frame position
        store = .ok (.boolean answer) store ∧
      (answer = true ↔ NamesTime text.toList ∨ text.utf8ByteSize = 4 ∧
        (∃ c ∈ text.toList, c.isDigit = false) ∧ ReadsAsTime text.toList) := by
  rw [← String.utf8Len_toList]
  refine ⟨⟨isDate text, rfl, ?_⟩, ⟨isDateWithHour text, rfl, ?_⟩, isTime text, rfl, ?_⟩
  · rw [isDate_iff]
    exact passes_iff (fun h => ⟨h.1, h.2.1⟩) readsAsDate_iff_of_digits
  · rw [isDateWithHour_iff]
    exact passes_iff (fun h => ⟨h.1, h.2.1⟩) readsAsDateWithHour_iff_of_digits
  · rw [isTime_iff]
    exact passes_iff (fun h => ⟨h.1, h.2.1⟩) readsAsTime_iff_of_digits

/-- Blanks before a field, an hour with a sign and an hour of one digit pass, though none of these texts
consists of digits. -/
theorem blanks_and_signs_accepted :
    invoke (evaluator 0) (.builtin .isDate) (Builtin.positional [.string "2024 1 1"]) ⟨0⟩ default
        Store.bare = .ok (.boolean true) Store.bare ∧ ¬ NamesDate "2024 1 1".toList ∧
    invoke (evaluator 0) (.builtin .isDate)
        [⟨none, .string "20240101+5"⟩, ⟨some "with_hour", .boolean true⟩] ⟨0⟩ default Store.bare =
      .ok (.boolean true) Store.bare ∧ ¬ NamesDateWithHour "20240101+5".toList ∧
    invoke (evaluator 0) (.builtin .isTime) (Builtin.positional [.string " 1 2"]) ⟨0⟩ default
        Store.bare = .ok (.boolean true) Store.bare ∧ ¬ NamesTime " 1 2".toList := by
  have hsplit : splitBytes 8 "20240101+5".toList = some ("20240101".toList, "+5".toList) :=
    splitBytes_eq_some_iff.mpr ⟨rfl, rfl⟩
  have hhour : isDateWithHour "20240101+5" = true := by
    rw [isDateWithHour, hsplit]
    rfl
  refine ⟨rfl, fun h => ?_, ?_, fun h => ?_, rfl, fun h => ?_⟩
  · exact absurd (h.2.1 ' ' (by decide)) (by decide)
  · show EStateM.Result.ok (Value.boolean (isDateWithHour "20240101+5")) Store.bare = _
    rw [hhour]
  · exact absurd (h.2.1 '+' (by decide)) (by decide)
  · exact absurd (h.2.1 ' ' (by decide)) (by decide)

end Ckl
