import Ckl.Proofs.Text.Quoted
import Ckl.Source.Token.Scan
import Mathlib.Data.List.Basic

/-!
# Texts that are written token by token

`Begins` says that a text begins with a certain token, and what the token leaves. There is one lemma for
each kind of token, with the condition under which it is not longer than it is meant to be: a word, or a
number, must not be continued by what follows, and a symbol must not be the beginning of a longer one.
`Scans` puts such beginnings together.
-/

namespace Ckl.Source

/-- A text without faults, with its tokens. -/
def Scans (cs : List Char) (lexemes : List Lexeme) : Prop :=
  ∀ position, ∃ found, scanFrom position cs = .ok found ∧ found.tokens.map Token.lexeme = lexemes

/-- A character at which a gap ends. -/
def endsGap (c : Char) : Bool := !Text.isBlank c && c != '#'

/-- A text that begins with a token, and what stands behind it. -/
def Begins (cs : List Char) (lexeme : Lexeme) (rest : List Char) : Prop :=
  ∃ c more, cs = c :: more ∧ endsGap c = true ∧
    ∃ scanned, scanToken c more = .ok scanned ∧ scanned.lexeme = lexeme ∧ scanned.rest = rest

theorem scans_nil : Scans [] [] := by
  intro position
  refine ⟨⟨[], position⟩, ?_, rfl⟩
  rw [scanFrom]
  rfl

/-- Where a gap ends there is none to skip. -/
theorem gap_of_endsGap {c : Char} (h : endsGap c = true) (more : List Char) :
    gap false (c :: more) = [] ∧ dropGap false (c :: more) = c :: more := by
  simp only [endsGap, Bool.and_eq_true, Bool.not_eq_true', bne_iff_ne] at h
  simp [gap, dropGap, h.1, h.2]

/-- A lexeme and the scan of what stands behind it. -/
theorem Begins.scans {cs rest : List Char} {lexeme : Lexeme} {lexemes : List Lexeme}
    (h : Begins cs lexeme rest) (hrest : Scans rest lexemes) : Scans cs (lexeme :: lexemes) := by
  obtain ⟨c, more, rfl, hends, scanned, hscan, rfl, rfl⟩ := h
  obtain ⟨hgap, hdrop⟩ := gap_of_endsGap hends more
  intro position
  obtain ⟨found, hfound, htokens⟩ := hrest (position.afterAll scanned.taken)
  refine ⟨found.cons ⟨scanned.lexeme, position⟩, ?_, congrArg (scanned.lexeme :: ·) htokens⟩
  rw [scanFrom, hgap]
  split
  · next heq => rw [hdrop] at heq; cases heq
  · next c' more' heq =>
    rw [hdrop] at heq
    cases heq
    rw [hscan]
    show (scanFrom (position.afterAll scanned.taken) scanned.rest).map _ = _
    rw [hfound]
    rfl

/-- A blank between tokens changes nothing. -/
theorem Scans.blank {cs : List Char} {lexemes : List Lexeme} (h : Scans cs lexemes) :
    Scans (' ' :: cs) lexemes := by
  intro position
  obtain ⟨found, hfound, htokens⟩ := h (position.after ' ')
  refine ⟨found, ?_, htokens⟩
  have hgap : gap false (' ' :: cs) = ' ' :: gap false cs := rfl
  have hdrop : dropGap false (' ' :: cs) = dropGap false cs := rfl
  rw [← hfound, scanFrom.eq_def position, scanFrom.eq_def (position.after ' '), hgap]
  rfl

/-! ## Words -/

/-- Whether what follows a token ends words and numbers before it. -/
def divides (c : Char) : Bool := !continuesName c && c != '.'

/-- A text before which words and numbers end. -/
def Divides (rest : List Char) : Prop := ∀ c ∈ rest.head?, divides c = true

/-- The end of the text divides. -/
theorem divides_nil : Divides [] := nofun

/-- A character that divides, in front of anything. -/
theorem divides_cons {c : Char} {rest : List Char} (h : divides c = true) : Divides (c :: rest) := by
  intro d hd
  cases hd
  exact h

/-- The code points of blanks. -/
def blankPoints : List Nat :=
  [9, 10, 11, 12, 13, 32, 0x85, 0xA0, 0x1680, 0x2000, 0x2001, 0x2002, 0x2003, 0x2004, 0x2005, 0x2006,
    0x2007, 0x2008, 0x2009, 0x200A, 0x2028, 0x2029, 0x202F, 0x205F, 0x3000]

/-- The blank characters are those of the list. -/
theorem mem_blankPoints {c : Char} (h : Text.isBlank c = true) : c.toNat ∈ blankPoints := by
  simp only [Text.isBlank, Bool.or_eq_true, Bool.and_eq_true, decide_eq_true_eq, beq_iff_eq] at h
  simp only [blankPoints, List.mem_cons, List.not_mem_nil, or_false]
  omega

/-- No blank begins a name. -/
theorem endsGap_of_beginsName {c : Char} (h : beginsName c = true) : endsGap c = true := by
  have hnone : ∀ point ∈ blankPoints, beginsName (Char.ofNat point) = false := by decide +kernel
  have hblank : Text.isBlank c = false := by
    by_contra hb
    have hc := hnone _ (mem_blankPoints (Bool.not_eq_false _ ▸ hb))
    rw [Char.ofNat_toNat, h] at hc
    cases hc
  have hnumber : c ≠ '#' := by
    rintro rfl
    exact absurd h (by decide)
  simp [endsGap, hblank, hnumber]

/-- Characters of which the first begins a name and the others continue it. -/
def spellsWord : List Char → Bool
  | [] => false
  | c :: rest => beginsName c && rest.all continuesName

/-- A run ends where a character does not belong to it. -/
theorem takeWhile_append_of_divides {keep : Char → Bool} {cs rest : List Char}
    (hkeep : ∀ c ∈ cs, keep c = true) (hrest : ∀ c ∈ rest.head?, keep c = false) :
    (cs ++ rest).takeWhile keep = cs ∧ (cs ++ rest).dropWhile keep = rest := by
  have hstop : rest.takeWhile keep = [] ∧ rest.dropWhile keep = rest := by
    cases rest with
    | nil => exact ⟨rfl, rfl⟩
    | cons c rest => simp [hrest c rfl]
  rw [List.takeWhile_append_of_pos hkeep, List.dropWhile_append_of_pos hkeep, hstop.1, hstop.2,
    List.append_nil]
  exact ⟨rfl, rfl⟩

/-- A word up to where it ends is read as a whole. -/
theorem begins_word {word rest : List Char} (hword : spellsWord word = true) (hrest : Divides rest) :
    Begins (word ++ rest) (Lexeme.ofWord word) rest := by
  cases word with
  | nil => cases hword
  | cons c cs =>
    simp only [spellsWord, Bool.and_eq_true, List.all_eq_true] at hword
    obtain ⟨hbegins, hcontinues⟩ := hword
    have hstop : ∀ d ∈ rest.head?, continuesName d = false := fun d hd => by
      have hdivides := hrest d hd
      simp only [divides, Bool.and_eq_true, Bool.not_eq_true'] at hdivides
      exact hdivides.1
    obtain ⟨htake, hdrop⟩ := takeWhile_append_of_divides hcontinues hstop
    refine ⟨c, cs ++ rest, rfl, endsGap_of_beginsName hbegins, _, if_pos hbegins, ?_, hdrop⟩
    exact congrArg (fun taken => Lexeme.ofWord (c :: taken)) htake

/-- Whether a word is a name. -/
def isName (word : String) : Bool :=
  spellsWord word.toList && Lexeme.ofWord word.toList == .name word

/-- A name up to where it ends is read as that name. -/
theorem begins_name {word : String} {rest : List Char} (hword : isName word = true)
    (hrest : Divides rest) : Begins (word.toList ++ rest) (.name word) rest := by
  simp only [isName, Bool.and_eq_true, beq_iff_eq] at hword
  have hbegins := begins_word hword.1 hrest
  rwa [hword.2] at hbegins

/-- The text of a keyword is read as the keyword. -/
theorem begins_keyword (word : Keyword) {rest : List Char} (hrest : Divides rest) :
    Begins (word.text.toList ++ rest) (.keyword word) rest := by
  have hspells : spellsWord word.text.toList = true := by cases word <;> decide
  have hword : Lexeme.ofWord word.text.toList = .keyword word := by cases word <;> decide
  exact hword ▸ begins_word hspells hrest

/-- The text of a truth value is read as the value. -/
theorem begins_boolean (value : Bool) {rest : List Char} (hrest : Divides rest) :
    Begins ((if value then "TRUE" else "FALSE").toList ++ rest) (.boolean value) rest := by
  have hspells : spellsWord (if value then "TRUE" else "FALSE").toList = true := by
    cases value <;> decide
  have hword : Lexeme.ofWord (if value then "TRUE" else "FALSE").toList = .boolean value := by
    cases value <;> decide
  exact hword ▸ begins_word hspells hrest

/-! ## Numbers and quoted texts -/

/-- A digit begins no name and ends a gap. -/
theorem beginsName_of_isDigit {c : Char} (h : c.isDigit = true) :
    beginsName c = false ∧ endsGap c = true := by
  have hrange : 48 ≤ c.toNat ∧ c.toNat < 58 := by
    simp only [Char.isDigit, Bool.and_eq_true, decide_eq_true_eq, UInt32.le_iff_toNat_le] at h
    exact ⟨h.1, Nat.lt_succ_of_le h.2⟩
  have hall : ∀ point < 58, 48 ≤ point →
      beginsName (Char.ofNat point) = false ∧ endsGap (Char.ofNat point) = true := by decide +kernel
  have hc := hall c.toNat hrange.2 hrange.1
  rwa [Char.ofNat_toNat] at hc

/-- What divides neither goes on with a number nor begins its fraction. -/
theorem isDigit_of_divides {c : Char} (h : divides c = true) : c.isDigit = false ∧ c ≠ '.' := by
  simp only [divides, Bool.and_eq_true, Bool.not_eq_true', bne_iff_ne] at h
  refine ⟨?_, h.2⟩
  by_contra hd
  have hlt : c.toNat < 128 := by
    have hrange : c.toNat ≤ 57 := by
      have := Bool.not_eq_false _ ▸ hd
      simp only [Char.isDigit, Bool.and_eq_true, decide_eq_true_eq, UInt32.le_iff_toNat_le] at this
      exact this.2
    omega
  have hcontinues : continuesName c = true := by
    simp [continuesName, Text.isAlphanumeric, Text.isNumeric, hlt, Bool.not_eq_false _ ▸ hd]
  rw [h.1] at hcontinues
  cases hcontinues

/-- Without a fraction behind it a number is whole. -/
theorem scanNumber_of_no_point (c : Char) {rest : List Char}
    (h : ∀ d more, rest.dropWhile Char.isDigit ≠ '.' :: d :: more) :
    scanNumber c rest = .ofSpan (fun cs => .whole (String.ofList cs)) Char.isDigit c rest := by
  simp only [scanNumber]

/-- Digits up to where they end are read as a whole number. -/
theorem begins_whole {ds rest : List Char} (hne : ds ≠ []) (hds : ∀ c ∈ ds, c.isDigit = true)
    (hrest : Divides rest) : Begins (ds ++ rest) (.whole (String.ofList ds)) rest := by
  cases ds with
  | nil => exact absurd rfl hne
  | cons c cs =>
    obtain ⟨hname, hends⟩ := beginsName_of_isDigit (hds c List.mem_cons_self)
    have hstop : ∀ d ∈ rest.head?, d.isDigit = false ∧ d ≠ '.' := fun d hd =>
      isDigit_of_divides (hrest d hd)
    obtain ⟨htake, hdrop⟩ := takeWhile_append_of_divides
      (fun d hd => hds d (List.mem_cons_of_mem c hd)) fun d hd => (hstop d hd).1
    have hscan : scanToken c (cs ++ rest) = .ok (scanNumber c (cs ++ rest)) := by
      unfold scanToken
      rw [hname, hds c List.mem_cons_self]
      rfl
    have hnumber := scanNumber_of_no_point c fun d more heq =>
      (hstop '.' (by rw [← hdrop, heq]; rfl)).2 rfl
    refine ⟨c, cs ++ rest, rfl, hends, _, hscan, ?_⟩
    rw [hnumber]
    exact ⟨congrArg (fun taken => Lexeme.whole (String.ofList (c :: taken))) htake, hdrop⟩

/-- A quoted text is read as its content. -/
theorem begins_quote (content rest : List Char) :
    Begins (Text.quote content ++ rest) (.string (String.ofList content)) rest := by
  have hspan := Text.spanQuoted_escapeAll content rest
  refine ⟨'\'', Text.escapeAll content ++ '\'' :: rest, by simp [Text.quote], by decide, ?_⟩
  have hscan : scanToken '\'' (Text.escapeAll content ++ '\'' :: rest) =
      scanString '\'' (Text.escapeAll content ++ '\'' :: rest) := rfl
  rw [hscan]
  unfold scanString
  split
  · next heq => rw [hspan] at heq; cases heq
  · next body after heq =>
    rw [hspan] at heq
    cases heq
    exact ⟨_, rfl, congrArg (fun cs => Lexeme.string (String.ofList cs))
      (Text.unescape_escapeAll content), rfl⟩

/-! ## Symbols -/

/-- All symbols. -/
def Symbol.all : List Symbol :=
  [.plus, .minus, .star, .slash, .percent, .plusAssign, .minusAssign, .starAssign, .slashAssign,
    .percentAssign, .assign, .equal, .notEqual, .unequal, .less, .lessEqual, .greater,
    .greaterEqual, .fatArrow, .arrow, .pipe, .openSet, .closeSet, .openMap, .closeMap, .openObject,
    .closeObject, .spread, .openParen, .closeParen, .openBracket, .closeBracket, .comma, .semicolon]

/-- The characters that stand behind a symbol in longer symbols. -/
def Symbol.continuations (mark : Symbol) : List Char :=
  Symbol.all.filterMap fun other =>
    if mark.chars.isPrefixOf other.chars then other.chars[mark.chars.length]? else none

theorem Symbol.mem_all (mark : Symbol) : mark ∈ all := by
  cases mark <;> decide

/-- Different symbols are spelled differently. -/
theorem Symbol.chars_injective {first second : Symbol} (h : first.chars = second.chars) :
    first = second := by
  have hall : ∀ first ∈ all, ∀ second ∈ all, first.chars = second.chars → first = second := by decide
  exact hall first (mem_all first) second (mem_all second) h

/-- Where a symbol stands, one is read that is at least as long. -/
theorem Symbol.exists_read (mark : Symbol) (rest : List Char) :
    ∃ found, read (mark.chars ++ rest) = some found ∧ mark.chars.length ≤ found.chars.length := by
  cases mark
  all_goals
    simp only [chars, List.cons_append, List.nil_append, read]
    first
      | exact ⟨_, rfl, by decide⟩
      | split <;> first | exact ⟨_, rfl, by decide⟩ | simp_all

/-- **The longest symbol is read**: it stands at the beginning of the text, and no longer one does. -/
theorem Symbol.read_iff {cs : List Char} {mark : Symbol} :
    read cs = some mark ↔
      mark.chars <+: cs ∧ ∀ other : Symbol, other.chars <+: cs → other.chars.length ≤ mark.chars.length := by
  have hlongest : ∀ {found}, read cs = some found → ∀ other : Symbol, other.chars <+: cs →
      other.chars.length ≤ found.chars.length := by
    rintro found h other ⟨rest, rfl⟩
    obtain ⟨reached, hreached, hlength⟩ := exists_read other rest
    cases hreached.symm.trans h
    exact hlength
  refine ⟨fun h => ⟨chars_prefix_of_read h, hlongest h⟩, fun ⟨hbegins, hgreatest⟩ => ?_⟩
  obtain ⟨rest, rfl⟩ := hbegins
  obtain ⟨found, hread, hlength⟩ := exists_read mark rest
  have hfound := chars_prefix_of_read hread
  have hsame := (List.prefix_of_prefix_length_le (List.prefix_append _ _) hfound hlength).eq_of_length
    (Nat.le_antisymm hlength (hgreatest found hfound))
  rw [hread, chars_injective hsame]

section

variable {mark : Symbol} {rest : List Char} (hrest : ∀ c ∈ rest.head?, c ∉ mark.continuations)

include hrest

/-- A symbol that is not continued is the longest one at its place. -/
theorem Symbol.read_append : read (mark.chars ++ rest) = some mark := by
  refine read_iff.mpr ⟨List.prefix_append _ _, fun other hother => Nat.le_of_not_lt fun hlonger => ?_⟩
  obtain ⟨more, hmore⟩ :=
    List.prefix_of_prefix_length_le (List.prefix_append _ _) hother (Nat.le_of_lt hlonger)
  rw [← hmore] at hother hlonger
  cases more with
  | nil => exact absurd hlonger (by simp)
  | cons c more =>
    have hhead : c ∈ rest.head? := by
      obtain ⟨behind, hbehind⟩ := hother
      rw [List.append_assoc, List.append_cancel_left_eq] at hbehind
      rw [← hbehind]
      rfl
    refine absurd (List.mem_filterMap.mpr ⟨other, mem_all other, ?_⟩) (hrest c hhead)
    rw [if_pos (List.isPrefixOf_iff_prefix.mpr ⟨c :: more, hmore⟩), ← hmore,
      List.getElem?_append_right (Nat.le_refl _), Nat.sub_self]
    rfl

/-- A symbol that is neither continued nor the beginning of a pattern. -/
theorem begins_mark (hslash : ∀ more, mark.chars ++ rest ≠ '/' :: '/' :: more) :
    Begins (mark.chars ++ rest) (.symbol mark) rest := by
  have hread := Symbol.read_append hrest
  have hfirst : ∃ c more, mark.chars = c :: more ∧ endsGap c = true ∧ beginsName c = false ∧
      c.isDigit = false ∧ ¬ (c = '"' ∨ c = '\'') := by
    cases mark <;> exact ⟨_, _, rfl, by decide, by decide, by decide, by decide⟩
  obtain ⟨c, more, hchars, hends, hname, hdigit, hquote⟩ := hfirst
  rw [hchars] at hread hslash ⊢
  have hscan : scanToken c (more ++ rest) = scanSymbol c (more ++ rest) := by
    rw [scanToken, hname, hdigit, if_neg hquote]
    · rfl
    · rintro behind rfl heq
      exact hslash behind (congrArg ('/' :: ·) heq)
  refine ⟨c, more ++ rest, rfl, hends, ?_⟩
  rw [hscan]
  unfold scanSymbol
  split
  · next heq => rw [List.cons_append] at hread; rw [hread] at heq; cases heq
  · next found heq =>
    rw [List.cons_append] at hread
    rw [hread] at heq
    cases heq
    refine ⟨_, rfl, rfl, ?_⟩
    show (c :: (more ++ rest)).drop mark.chars.length = rest
    rw [hchars, ← List.cons_append, List.drop_left]

/-- Every symbol, with any text behind it that makes it no longer, is read as itself. -/
theorem begins_symbol (hslash : mark.chars.head? ≠ some '/') :
    Begins (mark.chars ++ rest) (.symbol mark) rest := by
  refine begins_mark hrest fun more heq => hslash ?_
  cases hchars : mark.chars with
  | nil => exact absurd hchars mark.chars_ne_nil
  | cons c cs =>
    rw [hchars, List.cons_append] at heq
    rw [(List.cons.inj heq).1]
    rfl

end

/-! ## Names -/

/-- A word that is read as a name is a name. -/
theorem isName_of_ofWord {word : List Char} {name : String} (hspells : spellsWord word = true)
    (h : Lexeme.ofWord word = .name name) : isName name = true := by
  have hname : String.ofList word = name := by
    simp only [Lexeme.ofWord] at h
    split at h
    · cases h
    split at h
    · cases h
    split at h
    · cases h
    · exact Lexeme.name.inj h
  subst hname
  simp [isName, hspells, h]

/-- A token that is a name is spelled as one. -/
theorem isName_of_scanToken {c : Char} {rest : List Char} {scanned : Scanned (c :: rest)}
    {name : String} (h : scanToken c rest = .ok scanned) (hname : scanned.lexeme = .name name) :
    isName name = true := by
  unfold scanToken at h
  split at h
  · next hbegins =>
    cases h
    refine isName_of_ofWord ?_ hname
    rw [spellsWord, hbegins, List.all_takeWhile]
    rfl
  split at h
  · cases h
    simp only [scanNumber] at hname
    split at hname
    · split at hname <;> cases hname
    · cases hname
  split at h
  · unfold scanString at h
    split at h
    · cases h
    · cases h
      cases hname
  split at h
  · unfold scanPattern at h
    split at h
    · cases h
    · cases h
      cases hname
  · unfold scanSymbol at h
    split at h
    · cases h
    · cases h
      cases hname

/-- Every name among the tokens of a text is spelled as one. -/
theorem isName_of_scanFrom {position : Position} {cs : List Char} {found : Scan} {name : String}
    (h : scanFrom position cs = .ok found) (hname : .name name ∈ found.tokens.map Token.lexeme) :
    isName name = true := by
  fun_induction scanFrom position cs generalizing found with
  | case1 position cs hdrop =>
    cases h
    cases hname
  | case2 position cs c rest hdrop cause hscan => cases h
  | case3 position cs start c rest hdrop scanned hscan =>
    rename_i ih
    cases hbehind : scanFrom (start.afterAll scanned.taken) scanned.rest with
    | error fault =>
      rw [hbehind] at h
      cases h
    | ok behind =>
      rw [hbehind] at h
      cases h
      rcases List.mem_cons.mp hname with hfirst | hlater
      · exact isName_of_scanToken hscan hfirst.symm
      · exact ih hbehind hlater

/-- The names are the words that some text has as a token. -/
theorem isName_iff {name : String} : isName name = true ↔ ∃ file text found,
    scan file text = .ok found ∧ .name name ∈ found.tokens.map Token.lexeme := by
  constructor
  · intro h
    have hbegins := begins_name h divides_nil
    rw [List.append_nil] at hbegins
    obtain ⟨found, hfound, htokens⟩ := hbegins.scans scans_nil (.start "")
    exact ⟨"", name, found, hfound, htokens ▸ List.mem_cons_self⟩
  · rintro ⟨file, text, found, hfound, hmem⟩
    exact isName_of_scanFrom hfound hmem

end Ckl.Source
