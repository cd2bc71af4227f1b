import Ckl.Proofs.Source.Division
import Ckl.Proofs.Source.Lexing
import Ckl.Proofs.Source.Lines

/-!
# The longest tokens

One rule settles how a text is divided into tokens: white space and comments are passed over, and every token
is the longest one of its kind that can stand at its place. `LongestToken` is this rule for one token, said
without the functions that scan: a word is the longest run of its characters, a number the longest run of
digits with its fraction, and a symbol the longest one of the table that stands there. Quoted texts and
patterns go up to what closes them first, and two slashes are always the beginning of a pattern.

`LongestMatch` is the rule for whole texts. `scan_longest` says that the tokens of a text are the one division
that obeys it, and that a text which has no tokens cannot be divided so at all.
-/

namespace Ckl.Source

/-! ## The longest text of a kind -/

/-- A text of a kind at the beginning of `cs`, where no longer text of the kind stands. -/
structure Longest (kind : List Char → Prop) (cs taken : List Char) : Prop where
  begins : taken <+: cs
  ofKind : kind taken
  greatest : ∀ other, other <+: cs → kind other → other.length ≤ taken.length

/-- There is at most one longest beginning of a kind. -/
theorem Longest.unique {kind : List Char → Prop} {cs taken other : List Char}
    (h : Longest kind cs taken) (hother : Longest kind cs other) : taken = other := by
  have hle := hother.greatest taken h.begins h.ofKind
  have hge := h.greatest other hother.begins hother.ofKind
  exact (List.prefix_of_prefix_length_le h.begins hother.begins hle).eq_of_length
    (Nat.le_antisymm hle hge)

/-- Characters that all meet a condition. -/
def RunOf (keep : Char → Bool) (run : List Char) : Prop := ∀ c ∈ run, keep c = true

/-- The longest run from the front is what `takeWhile` takes. -/
theorem longest_takeWhile (keep : Char → Bool) (cs : List Char) :
    Longest (RunOf keep) cs (cs.takeWhile keep) where
  begins := List.takeWhile_prefix keep
  ofKind := List.all_eq_true.mp List.all_takeWhile
  greatest other hbegins hrun := by
    obtain ⟨behind, rfl⟩ := hbegins
    rw [List.takeWhile_append_of_pos hrun, List.length_append]
    exact Nat.le_add_right _ _

/-- A run is the longest exactly if `takeWhile` takes it. -/
theorem longest_run_iff {keep : Char → Bool} {cs run : List Char} :
    Longest (RunOf keep) cs run ↔ run = cs.takeWhile keep :=
  ⟨fun h => h.unique (longest_takeWhile keep cs), fun h => h ▸ longest_takeWhile keep cs⟩

/-- A run that begins with a character which it keeps. -/
theorem longest_run_cons_iff {keep : Char → Bool} {c : Char} {rest run : List Char}
    (hc : keep c = true) :
    Longest (RunOf keep) (c :: rest) run ↔ run = c :: rest.takeWhile keep := by
  rw [longest_run_iff, List.takeWhile_cons_of_pos hc]

/-! ## Symbols -/

/-- The characters of some symbol. -/
def Symbol.Spelled (chars : List Char) : Prop := ∃ mark : Symbol, mark.chars = chars

namespace Symbol

/-- What is read is the longest symbol of the table that the text begins with. -/
theorem read_eq_some_iff {cs : List Char} {mark : Symbol} :
    read cs = some mark ↔ Longest Spelled cs mark.chars := by
  rw [read_iff]
  constructor
  · rintro ⟨hbegins, hgreatest⟩
    refine ⟨hbegins, ⟨mark, rfl⟩, ?_⟩
    rintro _ hother ⟨other, rfl⟩
    exact hgreatest other hother
  · exact fun h => ⟨h.begins, fun other hother => h.greatest _ hother ⟨other, rfl⟩⟩

end Symbol

/-! ## One token -/

/-- What a word is: a truth value or a keyword if the whole of it spells one, and a name otherwise. -/
inductive WordIs : List Char → Lexeme → Prop where
  | boolean (value : Bool) : WordIs (Lexeme.boolean value).text.toList (.boolean value)
  | keyword (word : Keyword) : WordIs word.text.toList (.keyword word)
  | name {word : List Char} : (∀ value, word ≠ (Lexeme.boolean value).text.toList) →
    (∀ reserved : Keyword, word ≠ reserved.text.toList) → WordIs word (.name (String.ofList word))

/-- The token at the beginning of a text, and the characters that it takes. -/
inductive LongestToken : List Char → Lexeme → List Char → Prop where
  | word {c : Char} {rest run : List Char} {lexeme : Lexeme} : beginsName c = true →
    Longest (RunOf continuesName) (c :: rest) run → WordIs run lexeme →
    LongestToken (c :: rest) lexeme run
  /-- Digits, behind which there is no point with a digit. -/
  | whole {cs digits : List Char} : digits ≠ [] → Longest (RunOf Char.isDigit) cs digits →
    (∀ d behind, cs = digits ++ '.' :: d :: behind → d.isDigit = false) →
    LongestToken cs (.whole (String.ofList digits)) digits
  /-- Digits, a point, and the digits behind it. -/
  | decimal {digits behind fraction : List Char} : digits ≠ [] →
    Longest (RunOf Char.isDigit) (digits ++ '.' :: behind) digits →
    fraction ≠ [] → Longest (RunOf Char.isDigit) behind fraction →
    LongestToken (digits ++ '.' :: behind) (.decimal (String.ofList (digits ++ '.' :: fraction)))
      (digits ++ '.' :: fraction)
  /-- A quoted text up to the first mark that no backslash belongs to. -/
  | string {mark : Char} {content : String} {written rest : List Char} :
    mark = '"' ∨ mark = '\'' → WrittenAs mark content.toList written →
    LongestToken (mark :: written ++ mark :: rest) (.string content) (mark :: written ++ [mark])
  /-- A pattern up to the first two slashes behind those that open it. -/
  | pattern {source : String} {rest : List Char} : ¬ ['/', '/'] <:+: source.toList ++ ['/'] →
    LongestToken ('/' :: '/' :: source.toList ++ '/' :: '/' :: rest) (.pattern source)
      ('/' :: '/' :: source.toList ++ ['/', '/'])
  | symbol {cs : List Char} {mark : Symbol} : ¬ ['/', '/'] <+: cs →
    Longest Symbol.Spelled cs mark.chars → LongestToken cs (.symbol mark) mark.chars

/-- The reading of a word by cases is the function `Lexeme.ofWord`. -/
theorem wordIs_iff {word : List Char} {lexeme : Lexeme} :
    WordIs word lexeme ↔ lexeme = Lexeme.ofWord word := by
  have hspells : ∀ text : String, word = text.toList ↔ String.ofList word = text := fun text =>
    ⟨fun h => by rw [h, String.ofList_toList], fun h => by rw [← h, String.toList_ofList]⟩
  constructor
  · intro h
    cases h with
    | boolean value => cases value <;> decide
    | keyword word => cases word <;> decide
    | name hboolean hkeyword =>
      have htrue : String.ofList word ≠ "TRUE" := fun h => hboolean true ((hspells _).mpr h)
      have hfalse : String.ofList word ≠ "FALSE" := fun h => hboolean false ((hspells _).mpr h)
      have hreserved : Keyword.ofText? (String.ofList word) = none :=
        List.find?_eq_none.mpr fun reserved _ htext =>
          hkeyword reserved ((hspells _).mpr (beq_iff_eq.mp htext).symm)
      simp only [Lexeme.ofWord, if_neg htrue, if_neg hfalse, hreserved]
  · rintro rfl
    simp only [Lexeme.ofWord]
    split
    · next htrue => exact (hspells _).mpr htrue ▸ WordIs.boolean true
    split
    · next hfalse => exact (hspells _).mpr hfalse ▸ WordIs.boolean false
    next htrue hfalse =>
    split
    · next reserved hfound =>
      have htext : reserved.text = String.ofList word := by simpa using List.find?_some hfound
      exact (hspells _).mpr htext.symm ▸ WordIs.keyword reserved
    · next hnone =>
      refine .name (fun value h => ?_) fun reserved h => ?_
      · cases value
        · exact hfalse ((hspells _).mp h)
        · exact htrue ((hspells _).mp h)
      · have hmem : reserved ∈ Keyword.all := by cases reserved <;> decide
        exact List.find?_eq_none.mp hnone reserved hmem (beq_iff_eq.mpr ((hspells _).mp h).symm)

/-! ## What is scanned -/

/-- A token is found, with these characters. -/
def Finds {cs : List Char} (found : Except FaultCause (Scanned cs)) (lexeme : Lexeme)
    (taken : List Char) : Prop :=
  ∃ scanned, found = .ok scanned ∧ scanned.lexeme = lexeme ∧ scanned.taken = taken

section Kinds

variable {c : Char} {rest taken : List Char} {lexeme : Lexeme}

/-- A run that is not empty begins with a character that it keeps. -/
theorem Longest.keeps_first {keep : Char → Bool} (hne : taken ≠ [])
    (h : Longest (RunOf keep) (c :: rest) taken) : keep c = true := by
  cases taken with
  | nil => exact absurd rfl hne
  | cons first more =>
    obtain ⟨rfl, -⟩ := List.cons_prefix_cons.mp h.begins
    exact h.ofKind first List.mem_cons_self

/-! ### Words -/

/-- What can begin a name can continue it. -/
theorem continuesName_of_beginsName (h : beginsName c = true) : continuesName c = true := by
  simp only [beginsName, Bool.or_eq_true] at h
  simp only [continuesName, Text.isAlphanumeric, Bool.or_eq_true]
  exact h.imp_left .inl

/-- At a letter or an underscore a word is read. -/
theorem scanToken_of_beginsName (h : beginsName c = true) :
    scanToken c rest = .ok (.ofSpan Lexeme.ofWord continuesName c rest) := if_pos h

/-- Where a name can begin, the longest word is found. -/
theorem finds_word_iff (h : beginsName c = true) : Finds (scanToken c rest) lexeme taken ↔
    Longest (RunOf continuesName) (c :: rest) taken ∧ WordIs taken lexeme := by
  rw [longest_run_cons_iff (continuesName_of_beginsName h), scanToken_of_beginsName h]
  constructor
  · rintro ⟨_, ⟨⟩, rfl, rfl⟩
    exact ⟨rfl, wordIs_iff.mpr rfl⟩
  · rintro ⟨rfl, hword⟩
    exact ⟨_, rfl, (wordIs_iff.mp hword).symm, rfl⟩

/-! ### Numbers -/

/-- At a digit a number is read. -/
theorem scanToken_of_isDigit (h : c.isDigit = true) :
    scanToken c rest = .ok (scanNumber c rest) := by
  simp only [scanToken, (beginsName_of_isDigit h).1, h, if_true, Bool.false_eq_true, if_false]

/-- What stands behind the run is what `dropWhile` leaves. -/
theorem eq_run_append_iff (keep : Char → Bool) (c : Char) (rest behind : List Char) :
    c :: rest = c :: rest.takeWhile keep ++ behind ↔ rest.dropWhile keep = behind := by
  have hsplit : rest.takeWhile keep ++ rest.dropWhile keep = rest := List.takeWhile_append_dropWhile
  constructor
  · intro h
    exact List.append_cancel_left (hsplit.trans (List.cons.inj h).2)
  · rintro rfl
    rw [List.cons_append, hsplit]

/-- The number read at a digit is the longest token there. -/
theorem longestToken_scanNumber (h : c.isDigit = true) :
    LongestToken (c :: rest) (scanNumber c rest).lexeme (scanNumber c rest).taken := by
  have hdigits : Longest (RunOf Char.isDigit) (c :: rest) _ := (longest_run_cons_iff h).mpr rfl
  by_cases hfraction : ∃ d behind, Fraction rest d behind
  · obtain ⟨d, behind, hd⟩ := hfraction
    obtain ⟨hlexeme, htaken, -⟩ := scanNumber_of_fraction c hd
    have hsplit := (eq_run_append_iff _ c _ _).mpr hd.1
    rw [hlexeme, htaken]
    rw [hsplit] at hdigits ⊢
    exact .decimal (List.cons_ne_nil _ _) hdigits (List.cons_ne_nil _ _)
      ((longest_run_cons_iff hd.2).mpr rfl)
  · rw [scanNumber_of_no_fraction c fun d behind hd => hfraction ⟨d, behind, hd⟩]
    refine .whole (List.cons_ne_nil _ _) hdigits fun d behind hsplit => ?_
    by_contra hd
    exact hfraction ⟨d, behind, (eq_run_append_iff _ c _ _).mp hsplit, Bool.not_eq_false _ ▸ hd⟩

/-- Digits without a fraction behind them are read as a whole number. -/
theorem finds_whole (hne : taken ≠ []) (h : Longest (RunOf Char.isDigit) (c :: rest) taken)
    (hend : ∀ d behind, c :: rest = taken ++ '.' :: d :: behind → d.isDigit = false) :
    Finds (scanToken c rest) (.whole (String.ofList taken)) taken := by
  have hdigit := h.keeps_first hne
  rw [longest_run_cons_iff hdigit] at h
  subst h
  refine ⟨_, scanToken_of_isDigit hdigit, ?_⟩
  rw [scanNumber_of_no_fraction]
  · exact ⟨rfl, rfl⟩
  · rintro d behind ⟨hpoint, hd⟩
    rw [hend d behind ((eq_run_append_iff _ _ _ _).mpr hpoint)] at hd
    cases hd

/-- Digits, a point and digits are read as a decimal number. -/
theorem finds_decimal {digits behind fraction : List Char} (hsplit : c :: rest = digits ++ '.' :: behind)
    (hne : digits ≠ []) (h : Longest (RunOf Char.isDigit) (c :: rest) digits)
    (hfraction : fraction ≠ []) (hbehind : Longest (RunOf Char.isDigit) behind fraction) :
    Finds (scanToken c rest) (.decimal (String.ofList (digits ++ '.' :: fraction)))
      (digits ++ '.' :: fraction) := by
  have hdigit := h.keeps_first hne
  rw [longest_run_cons_iff hdigit] at h
  subst h
  cases behind with
  | nil => exact absurd (List.prefix_nil.mp hbehind.begins) hfraction
  | cons d behind =>
    have hd := hbehind.keeps_first hfraction
    rw [longest_run_cons_iff hd] at hbehind
    subst hbehind
    obtain ⟨hlexeme, htaken, -⟩ :=
      scanNumber_of_fraction c ⟨(eq_run_append_iff _ _ _ _).mp hsplit, hd⟩
    exact ⟨_, scanToken_of_isDigit hdigit, hlexeme, htaken⟩

/-! ### Quoted texts -/

/-- At a quotation mark a string is read. -/
theorem scanToken_of_mark (h : c = '"' ∨ c = '\'') : scanToken c rest = scanString c rest := by
  rcases h with rfl | rfl <;> rfl

/-- A written string is spanned up to its mark and unescapes to its content. -/
theorem spanQuoted_of_writtenAs {mark : Char} {content written : List Char} (behind : List Char)
    (hmark : mark ≠ '\\') (h : WrittenAs mark content written) :
    Text.spanQuoted mark (written ++ mark :: behind) = some (written, behind) ∧
      Text.unescape written = content := by
  induction h with
  | nil =>
    rw [List.nil_append, Text.spanQuoted, if_pos rfl]
    · exact ⟨rfl, rfl⟩
    · exact fun d _ heq _ => hmark heq
  | @plain c content written hslash hc _ ih =>
    rw [List.cons_append, Text.spanQuoted, if_neg hc, ih.1, Text.unescape, ih.2]
    · exact ⟨rfl, rfl⟩
    · exact fun d _ heq _ => hslash heq
    · exact fun d _ heq _ => hslash heq
  | @escaped c content written _ ih =>
    rw [List.cons_append, List.cons_append, Text.spanQuoted, ih.1, Text.unescape, ih.2]
    exact ⟨rfl, rfl⟩

/-- The string that is read is the longest token at its mark. -/
theorem longestToken_of_scanString (hmark : c = '"' ∨ c = '\'')
    (h : Finds (scanString c rest) lexeme taken) : LongestToken (c :: rest) lexeme taken := by
  obtain ⟨scanned, h, rfl, rfl⟩ := h
  unfold scanString at h
  split at h
  · cases h
  · next written behind hspan =>
    cases h
    have hcontent : WrittenAs c (String.ofList (Text.unescape written)).toList written :=
      String.toList_ofList ▸ writtenAs_of_spanQuoted hspan
    have hstring : LongestToken (c :: written ++ c :: behind) _ _ := .string hmark hcontent
    rwa [List.cons_append, ← Text.eq_append_of_spanQuoted hspan] at hstring

/-- A string written between its marks is read, whatever stands behind it. -/
theorem finds_string {content : String} {written : List Char} (behind : List Char)
    (hmark : c = '"' ∨ c = '\'') (h : WrittenAs c content.toList written) :
    Finds (scanToken c (written ++ c :: behind)) (.string content) (c :: written ++ [c]) := by
  have hslash : c ≠ '\\' := by rcases hmark with rfl | rfl <;> decide
  obtain ⟨hspan, hcontent⟩ := spanQuoted_of_writtenAs behind hslash h
  rw [scanToken_of_mark hmark]
  unfold scanString
  split
  · next hunclosed => cases hspan.symm.trans hunclosed
  · next hfound =>
    cases hspan.symm.trans hfound
    exact ⟨_, rfl, by rw [hcontent, String.ofList_toList], rfl⟩

/-! ### Patterns -/

/-- A pattern is closed by the first two slashes in a row. -/
theorem spanSlashes_eq_some_iff {cs body after : List Char} :
    Text.spanSlashes cs = some (body, after) ↔
      cs = body ++ '/' :: '/' :: after ∧ ¬ ['/', '/'] <:+: body ++ ['/'] := by
  constructor
  · intro h
    refine ⟨Text.eq_append_of_spanSlashes h, ?_⟩
    fun_induction Text.spanSlashes cs generalizing body after with
    | case1 => cases h
    | case2 =>
      cases h
      decide
    | case3 c rest hpair ih =>
      obtain ⟨⟨inner, behind⟩, hspan, heq⟩ := Option.map_eq_some_iff.mp h
      cases heq
      rw [List.cons_append, List.infix_cons_iff]
      rintro (⟨behind', hfirst⟩ | hinner)
      · -- the slash behind `c` is the first character of what follows, also where that is the closing one
        obtain ⟨rfl, htail⟩ := List.cons.inj hfirst
        have hrest := Text.eq_append_of_spanSlashes hspan
        cases inner with
        | nil => exact hpair _ rfl hrest
        | cons d inner => exact hpair _ rfl (by rw [hrest, ← (List.cons.inj htail).1]; rfl)
      · exact ih hspan hinner
  · rintro ⟨rfl, hnone⟩
    induction body with
    | nil => rfl
    | cons c body ih =>
      rw [List.cons_append, List.infix_cons_iff, not_or] at hnone
      rw [List.cons_append, Text.spanSlashes, ih hnone.2]
      · rfl
      · rintro behind rfl htail
        refine hnone.1 ?_
        cases body with
        | nil => exact ⟨[], rfl⟩
        | cons d body =>
          rw [(List.cons.inj htail).1]
          exact ⟨body ++ ['/'], rfl⟩

/-- The pattern that is read is the longest token at its slashes. -/
theorem longestToken_of_scanPattern (h : Finds (scanPattern rest) lexeme taken) :
    LongestToken ('/' :: '/' :: rest) lexeme taken := by
  obtain ⟨scanned, h, rfl, rfl⟩ := h
  unfold scanPattern at h
  split at h
  · cases h
  · next body behind hspan =>
    cases h
    obtain ⟨hsplit, hnone⟩ := spanSlashes_eq_some_iff.mp hspan
    have hpattern : LongestToken ('/' :: '/' :: (String.ofList body).toList ++ '/' :: '/' :: behind)
        _ _ := .pattern (String.toList_ofList.symm ▸ hnone)
    rwa [String.toList_ofList, List.cons_append, List.cons_append, ← hsplit] at hpattern

/-- A pattern between double slashes is read up to the first double slash. -/
theorem finds_pattern {source : String} (behind : List Char)
    (h : ¬ ['/', '/'] <:+: source.toList ++ ['/']) :
    Finds (scanToken '/' ('/' :: (source.toList ++ '/' :: '/' :: behind))) (.pattern source)
      ('/' :: '/' :: source.toList ++ ['/', '/']) := by
  have hspan : Text.spanSlashes (source.toList ++ '/' :: '/' :: behind) = _ :=
    spanSlashes_eq_some_iff.mpr ⟨rfl, h⟩
  show Finds (scanPattern _) _ _
  unfold scanPattern
  split
  · next hunclosed => cases hspan.symm.trans hunclosed
  · next hfound =>
    cases hspan.symm.trans hfound
    exact ⟨_, rfl, by rw [String.ofList_toList], rfl⟩

/-! ### Symbols -/

/-- No symbol begins like a token of another kind. -/
theorem Symbol.first_class {mark : Symbol} (h : mark.chars <+: c :: rest) :
    endsGap c = true ∧ beginsName c = false ∧ c.isDigit = false ∧ ¬ (c = '"' ∨ c = '\'') := by
  have hall : ∀ mark ∈ all, (mark.chars.head?.all fun first => endsGap first &&
      !beginsName first && !first.isDigit && !(first == '"' || first == '\'')) = true := by decide
  have hfirst : mark.chars.head? = some c := by
    obtain ⟨behind, heq⟩ := h
    cases hchars : mark.chars with
    | nil => exact absurd hchars mark.chars_ne_nil
    | cons first more =>
      rw [hchars, List.cons_append] at heq
      rw [(List.cons.inj heq).1, List.head?_cons]
  have hclass := hall mark (mem_all mark)
  rw [hfirst] at hclass
  simpa [and_assoc] using hclass

/-- Where a symbol stands and no pattern, a symbol is scanned. -/
theorem scanToken_of_symbol {mark : Symbol} (h : mark.chars <+: c :: rest)
    (hslashes : ¬ ['/', '/'] <+: c :: rest) : scanToken c rest = scanSymbol c rest := by
  obtain ⟨-, hname, hdigit, hmark⟩ := Symbol.first_class h
  rw [scanToken, hname, hdigit, if_neg hmark]
  · rfl
  · rintro behind rfl rfl
    exact hslashes ⟨behind, rfl⟩

/-- The symbol that is read is the longest token unless double slashes stand there. -/
theorem longestToken_of_scanSymbol (hslashes : ¬ ['/', '/'] <+: c :: rest)
    (h : Finds (scanSymbol c rest) lexeme taken) : LongestToken (c :: rest) lexeme taken := by
  obtain ⟨scanned, h, rfl, rfl⟩ := h
  unfold scanSymbol at h
  split at h
  · cases h
  · next mark hread =>
    cases h
    exact .symbol hslashes (Symbol.read_eq_some_iff.mp hread)

/-- The longest symbol that is spelled at a place is read there. -/
theorem finds_symbol {mark : Symbol} (hslashes : ¬ ['/', '/'] <+: c :: rest)
    (h : Longest Symbol.Spelled (c :: rest) mark.chars) :
    Finds (scanToken c rest) (.symbol mark) mark.chars := by
  have hread := Symbol.read_eq_some_iff.mpr h
  rw [scanToken_of_symbol h.begins hslashes]
  unfold scanSymbol
  split
  · next hnone => cases hread.symm.trans hnone
  · next hfound =>
    cases hread.symm.trans hfound
    exact ⟨_, rfl, rfl, rfl⟩

/-! ### All kinds -/

/-- What is scanned is the longest token. -/
theorem longestToken_of_scanToken (h : Finds (scanToken c rest) lexeme taken) :
    LongestToken (c :: rest) lexeme taken := by
  by_cases hname : beginsName c = true
  · obtain ⟨hrun, hword⟩ := (finds_word_iff hname).mp h
    exact .word hname hrun hword
  by_cases hdigit : c.isDigit = true
  · rw [scanToken_of_isDigit hdigit] at h
    obtain ⟨_, ⟨⟩, rfl, rfl⟩ := h
    exact longestToken_scanNumber hdigit
  by_cases hmark : c = '"' ∨ c = '\''
  · rw [scanToken_of_mark hmark] at h
    exact longestToken_of_scanString hmark h
  unfold scanToken at h
  rw [if_neg hname, if_neg hdigit, if_neg hmark] at h
  split at h
  · exact longestToken_of_scanPattern h
  · next hslashes =>
    refine longestToken_of_scanSymbol ?_ h
    rintro ⟨behind, heq⟩
    obtain ⟨rfl, rfl⟩ := List.cons.inj heq
    exact hslashes behind rfl rfl

/-- The longest token is scanned. -/
theorem finds_of_longestToken {cs : List Char} (h : LongestToken cs lexeme taken)
    (hcs : c :: rest = cs) : Finds (scanToken c rest) lexeme taken := by
  cases h with
  | word hname hrun hword =>
    cases hcs
    exact (finds_word_iff hname).mpr ⟨hrun, hword⟩
  | whole hne hrun hend =>
    subst hcs
    exact finds_whole hne hrun hend
  | decimal hne hrun hfraction hbehind => exact finds_decimal hcs hne (hcs ▸ hrun) hfraction hbehind
  | string hmark hwritten =>
    cases hcs
    exact finds_string _ hmark hwritten
  | pattern hnone =>
    cases hcs
    exact finds_pattern _ hnone
  | symbol hslashes hlongest =>
    subst hcs
    exact finds_symbol hslashes hlongest

end Kinds

/-! ## Whole texts -/

/-- A text whose first character stands at `start`, divided into its longest tokens, with gaps of white space
and comments before them and behind the last one. -/
inductive LongestMatch : (start : Position) → List Char → Scan → Prop where
  | last {start : Position} {cs : List Char} : FinalGap cs →
    LongestMatch start cs ⟨[], start.afterAll cs⟩
  | token {start : Position} {before taken rest : List Char} {lexeme : Lexeme} {found : Scan} :
    Gap before → LongestToken (taken ++ rest) lexeme taken →
    LongestMatch ((start.afterAll before).afterAll taken) rest found →
    LongestMatch start (before ++ taken ++ rest) (found.cons ⟨lexeme, start.afterAll before⟩)

/-- A comment up to its line end belongs to the gap, and the gap goes on behind it. -/
theorem gap_comment {body : List Char} (hbody : '\n' ∉ body) (rest : List Char) :
    gap false ('#' :: body ++ '\n' :: rest) = '#' :: body ++ '\n' :: gap false rest ∧
      dropGap false ('#' :: body ++ '\n' :: rest) = dropGap false rest := by
  have hend : dropGap true body = [] := by
    rcases gap_inComment body with ⟨-, hdrop, -⟩ | ⟨front, behind, rfl, -⟩
    · exact hdrop
    · simp at hbody
  obtain ⟨hgap, hdrop⟩ := gap_line_of_end rest hend
  simp only [List.cons_append, gap, dropGap, hgap, hdrop]
  exact ⟨rfl, rfl⟩

/-- A gap is passed over, and what is passed over behind it. -/
theorem Gap.gap_append {before : List Char} (h : Gap before) (rest : List Char) :
    gap false (before ++ rest) = before ++ gap false rest ∧
      dropGap false (before ++ rest) = dropGap false rest := by
  induction h with
  | nil => exact ⟨rfl, rfl⟩
  | blank hblank _ ih => simp [gap, dropGap, hblank, ih]
  | @comment body cs hbody _ ih =>
    obtain ⟨hgap, hdrop⟩ := gap_comment hbody (cs ++ rest)
    simp only [List.append_assoc, List.cons_append] at hgap hdrop ⊢
    rw [hgap, hdrop, ih.1, ih.2]
    exact ⟨rfl, rfl⟩

/-- Behind the gap at the end of a text nothing is left. -/
theorem FinalGap.dropGap_eq {cs : List Char} (h : FinalGap cs) : dropGap false cs = [] := by
  rcases h with h | ⟨front, body, rfl, hfront, hbody⟩
  · simpa [dropGap] using (h.gap_append []).2
  · rw [(hfront.gap_append _).2]
    rcases gap_inComment body with ⟨-, hdrop, -⟩ | ⟨before, behind, rfl, -⟩
    · simpa [dropGap, Text.isBlank] using hdrop
    · simp at hbody

/-- No token begins like a gap. -/
theorem LongestToken.endsGap {cs taken : List Char} {lexeme : Lexeme} (h : LongestToken cs lexeme taken) :
    ∃ c rest, cs = c :: rest ∧ endsGap c = true := by
  have ofDigits : ∀ {digits}, digits ≠ [] → Longest (RunOf Char.isDigit) cs digits →
      ∃ c rest, cs = c :: rest ∧ Source.endsGap c = true := by
    intro digits hne hrun
    cases cs with
    | nil => exact absurd (List.prefix_nil.mp hrun.begins) hne
    | cons c rest => exact ⟨c, rest, rfl, (beginsName_of_isDigit (hrun.keeps_first hne)).2⟩
  cases h with
  | word hname => exact ⟨_, _, rfl, endsGap_of_beginsName hname⟩
  | whole hne hrun => exact ofDigits hne hrun
  | decimal hne hrun => exact ofDigits hne hrun
  | string hmark => exact ⟨_, _, rfl, by rcases hmark with rfl | rfl <;> decide⟩
  | pattern => exact ⟨_, _, rfl, by decide⟩
  | symbol _ hlongest =>
    cases cs with
    | nil => exact absurd (List.prefix_nil.mp hlongest.begins) (Symbol.chars_ne_nil _)
    | cons c rest => exact ⟨c, rest, rfl, (Symbol.first_class hlongest.begins).1⟩

/-- What is scanned is a division of the text into longest tokens and gaps. -/
theorem longestMatch_of_scanFrom {start : Position} {cs : List Char} {found : Scan}
    (h : scanFrom start cs = .ok found) : LongestMatch start cs found := by
  fun_induction scanFrom start cs generalizing found with
  | case1 start cs =>
    rename_i hdrop
    cases h
    have hall : gap false cs = cs := by simpa [hdrop] using gap_append_dropGap false cs
    show LongestMatch start cs ⟨[], start.afterAll (gap false cs)⟩
    rw [hall]
    exact .last ((gap_shape cs).2 hdrop)
  | case2 => cases h
  | case3 start cs behind c rest hdrop scanned hscan =>
    rename_i ih
    cases hrest : scanFrom (behind.afterAll scanned.taken) scanned.rest with
    | error fault =>
      rw [hrest] at h
      cases h
    | ok later =>
      rw [hrest] at h
      cases h
      have hcs : cs = gap false cs ++ scanned.taken ++ scanned.rest := by
        rw [List.append_assoc, scanned.split, ← hdrop, gap_append_dropGap]
      have hgap : Gap (gap false cs) := (gap_shape cs).1 (by rw [hdrop]; exact List.cons_ne_nil _ _)
      have htoken : LongestToken (scanned.taken ++ scanned.rest) scanned.lexeme scanned.taken := by
        rw [scanned.split]
        exact longestToken_of_scanToken ⟨scanned, hscan, rfl, rfl⟩
      have hmatch := LongestMatch.token hgap htoken (ih hrest)
      rwa [← hcs] at hmatch

/-- A division of the text into longest tokens and gaps is what is scanned. -/
theorem scanFrom_of_longestMatch {start : Position} {cs : List Char} {found : Scan}
    (h : LongestMatch start cs found) : scanFrom start cs = .ok found := by
  induction h with
  | @last start cs hgap =>
    have hdrop := hgap.dropGap_eq
    have hall : gap false cs = cs := by simpa [hdrop] using gap_append_dropGap false cs
    rw [scanFrom_of_end hdrop, hall]
  | @token start before taken rest lexeme found hgap htoken _ ih =>
    obtain ⟨c, more, hcs, hends⟩ := htoken.endsGap
    obtain ⟨hgapToken, hdropToken⟩ := gap_of_endsGap hends more
    obtain ⟨hskip, hdrop⟩ := hgap.gap_append (c :: more)
    rw [hgapToken, List.append_nil] at hskip
    rw [hdropToken] at hdrop
    obtain ⟨scanned, hscan, rfl, rfl⟩ := finds_of_longestToken htoken hcs.symm
    have hrest : scanned.rest = rest := List.append_cancel_left (scanned.split.trans hcs.symm)
    rw [List.append_assoc, hcs, scanFrom_of_token hdrop hscan, hskip, hrest, ih]
    rfl

/-- **The tokens of a text are the longest ones.** A text has these tokens exactly if they are its one
division into longest tokens: every word is the longest run of letters, numerals and underscores, which is a
keyword or a truth value only if the whole run is; every number is the longest run of digits, together with
a point and the longest run of digits behind it exactly if a digit follows the point; every symbol is the
longest one of the table that stands at its place, where two slashes always open a pattern; and there is no
other such division of the text. -/
theorem scan_longest (file text : String) (found : Scan) :
    scan file text = .ok found ↔
      LongestMatch (.start file) text.toList found ∧
        ∀ other, LongestMatch (.start file) text.toList other → other = found := by
  constructor
  · intro h
    refine ⟨longestMatch_of_scanFrom h, fun other hother => ?_⟩
    exact Except.ok.inj ((scanFrom_of_longestMatch hother).symm.trans h)
  · rintro ⟨h, -⟩
    exact scanFrom_of_longestMatch h

/-- Brackets that touch are read from the left, whatever was meant. -/
example : (scan "" "<<<<1>>>>").toOption.map (·.tokens.map Token.lexeme) =
    some [.symbol .openMap, .symbol .less, .whole "1", .symbol .closeMap, .symbol .greater] := by
  decide +kernel

end Ckl.Source
