import Ckl.Source.Token.Scan
import Mathlib.Data.List.Basic

/-!
# Texts divided into tokens

A text that can be split into tokens is nothing but these tokens and the gaps between them. `Divided`
says so without the functions that split it: the gaps are white space and comments, every token is
written as its kind demands, and its place is counted from the characters that stand before it.
`scan_divided` says that the tokens of a text divide it.
-/

namespace Ckl.Source

/-! ## Places -/

/-- The place of what stands behind some text of a file. Lines are counted by line feeds, columns by the
characters since the last of them. -/
def placeBehind (file : String) (before : List Char) : Position :=
  ⟨file, before.count '\n' + 1, (before.reverse.takeWhile (· != '\n')).length + 1⟩

/-- The place behind one more character. -/
theorem after_placeBehind (file : String) (before : List Char) (c : Char) :
    (placeBehind file before).after c = placeBehind file (before ++ [c]) := by
  unfold Position.after placeBehind
  by_cases hc : c = '\n'
  · simp [hc]
  · have hc' : (c != '\n') = true := by simpa using hc
    simp [hc, hc']

/-- Counting can go on from any place of the text. -/
theorem afterAll_placeBehind (file : String) (before cs : List Char) :
    (placeBehind file before).afterAll cs = placeBehind file (before ++ cs) := by
  induction cs generalizing before with
  | nil => simp [Position.afterAll]
  | cons c cs ih =>
    have hstep := ih (before ++ [c])
    rw [List.append_assoc, List.singleton_append] at hstep
    rw [← hstep, ← after_placeBehind]
    rfl

/-! ## Gaps -/

/-- White space and comments; a comment runs from a number sign to the end of its line. -/
inductive Gap : List Char → Prop where
  | nil : Gap []
  | blank {c : Char} {cs : List Char} : Text.isBlank c = true → Gap cs → Gap (c :: cs)
  | comment {body cs : List Char} : '\n' ∉ body → Gap cs → Gap ('#' :: body ++ '\n' :: cs)

/-- White space and comments at the end of a text, where the last comment need not end with a line. -/
def FinalGap (cs : List Char) : Prop :=
  Gap cs ∨ ∃ front body, cs = front ++ '#' :: body ∧ Gap front ∧ '\n' ∉ body

/-- A blank character in front of the gap at the end. -/
theorem FinalGap.blank {c : Char} {cs : List Char} (hc : Text.isBlank c = true) (h : FinalGap cs) :
    FinalGap (c :: cs) := by
  rcases h with h | ⟨front, body, rfl, hfront, hbody⟩
  · exact .inl (.blank hc h)
  · exact .inr ⟨c :: front, body, rfl, .blank hc hfront, hbody⟩

/-- A comment in front of the gap at the end. -/
theorem FinalGap.comment {body cs : List Char} (hbody : '\n' ∉ body) (h : FinalGap cs) :
    FinalGap ('#' :: body ++ '\n' :: cs) := by
  rcases h with h | ⟨front, last, rfl, hfront, hlast⟩
  · exact .inl (.comment hbody h)
  · exact .inr ⟨'#' :: body ++ '\n' :: front, last, by simp, .comment hbody hfront, hlast⟩

/-- What a gap that begins inside a comment consists of: the rest of the comment, and what is a gap behind
its line. -/
theorem gap_inComment (cs : List Char) :
    (gap true cs = cs ∧ dropGap true cs = [] ∧ '\n' ∉ cs) ∨
      ∃ body rest, cs = body ++ '\n' :: rest ∧ '\n' ∉ body ∧
        gap true cs = body ++ '\n' :: gap false rest ∧ dropGap true cs = dropGap false rest := by
  induction cs with
  | nil => exact .inl ⟨rfl, rfl, List.not_mem_nil⟩
  | cons c cs ih =>
    by_cases hc : c = '\n'
    · exact .inr ⟨[], cs, by simp [hc], List.not_mem_nil, by simp [gap, hc], by simp [dropGap, hc]⟩
    · have hc' : (c != '\n') = true := by simpa using hc
      rcases ih with ⟨hgap, hdrop, hcs⟩ | ⟨body, rest, rfl, hbody, hgap, hdrop⟩
      · refine .inl ⟨by simp [gap, hc', hgap], by simp [dropGap, hc', hdrop], ?_⟩
        simp [hcs, Ne.symm hc]
      · refine .inr ⟨c :: body, rest, rfl, by simp [hbody, Ne.symm hc], ?_, ?_⟩
        · simp [gap, hc', hgap]
        · simp [dropGap, hc', hdrop]

/-- What is skipped in front of a token is a gap, and so is what is skipped at the end. -/
theorem gap_shape (cs : List Char) :
    (dropGap false cs ≠ [] → Gap (gap false cs)) ∧ (dropGap false cs = [] → FinalGap cs) := by
  induction hn : cs.length using Nat.strongRecOn generalizing cs with
  | ind n ih =>
    subst hn
    match cs with
    | [] => exact ⟨fun h => absurd rfl h, fun _ => .inl .nil⟩
    | c :: cs =>
      by_cases hblank : Text.isBlank c = true
      · obtain ⟨hinner, hlast⟩ := ih cs.length (by simp) cs rfl
        have hgap : gap false (c :: cs) = c :: gap false cs := by simp [gap, hblank]
        have hdrop : dropGap false (c :: cs) = dropGap false cs := by simp [dropGap, hblank]
        rw [hgap, hdrop]
        exact ⟨fun h => .blank hblank (hinner h), fun h => (hlast h).blank hblank⟩
      by_cases hsign : c = '#'
      · have hgap : gap false (c :: cs) = '#' :: gap true cs := by simp [gap, hsign, Text.isBlank]
        have hdrop : dropGap false (c :: cs) = dropGap true cs := by
          simp [dropGap, hsign, Text.isBlank]
        rw [hgap, hdrop, hsign]
        rcases gap_inComment cs with ⟨hall, hend, hcs⟩ | ⟨body, rest, rfl, hbody, hskip, hbehind⟩
        · exact ⟨fun h => absurd hend h, fun _ => .inr ⟨[], cs, rfl, .nil, hcs⟩⟩
        · obtain ⟨hinner, hlast⟩ := ih rest.length (by simp; omega) rest rfl
          rw [hskip, hbehind]
          exact ⟨fun h => .comment hbody (hinner h), fun h => (hlast h).comment hbody⟩
      · have hgap : gap false (c :: cs) = [] := by simp [gap, hblank, hsign]
        have hdrop : dropGap false (c :: cs) = c :: cs := by simp [dropGap, hblank, hsign]
        rw [hgap, hdrop]
        exact ⟨fun _ => .nil, fun h => absurd h (List.cons_ne_nil _ _)⟩

/-! ## How tokens are written -/

/-- Text between two marks, and what it stands for: a character stands for itself, unless it is a backslash,
which stands together with the character behind it for one. The mark stands only behind a backslash. -/
inductive WrittenAs (mark : Char) : List Char → List Char → Prop where
  | nil : WrittenAs mark [] []
  | plain {c : Char} {content written : List Char} : c ≠ '\\' → c ≠ mark →
    WrittenAs mark content written → WrittenAs mark (c :: content) (c :: written)
  | escaped (c : Char) {content written : List Char} : WrittenAs mark content written →
    WrittenAs mark (Text.unescapeChar c :: content) ('\\' :: c :: written)

/-- The characters that a token is written with. A string stands between two equal marks and a pattern
between slashes; every other token is written as its text. -/
def Lexeme.Spells : Lexeme → List Char → Prop
  | .string content, chars => ∃ mark written, (mark = '"' ∨ mark = '\'') ∧
    chars = mark :: written ++ [mark] ∧ WrittenAs mark content.toList written
  | .pattern source, chars => chars = '/' :: '/' :: source.toList ++ ['/', '/']
  | lexeme, chars => chars = lexeme.text.toList

/-- What is spanned up to the mark is a way to write its content. -/
theorem writtenAs_of_spanQuoted {mark : Char} {cs written behind : List Char}
    (h : Text.spanQuoted mark cs = some (written, behind)) :
    WrittenAs mark (Text.unescape written) written := by
  fun_induction Text.spanQuoted mark cs generalizing written behind with
  | case1 => cases h
  | case2 c rest ih =>
    obtain ⟨⟨body, after⟩, hspan, heq⟩ := Option.map_eq_some_iff.mp h
    cases heq
    exact .escaped c (ih hspan)
  | case3 =>
    cases h
    exact .nil
  | case4 c rest hpair hc ih =>
    obtain ⟨⟨body, after⟩, hspan, heq⟩ := Option.map_eq_some_iff.mp h
    cases heq
    have hslash : c ≠ '\\' := by
      rintro rfl
      cases rest with
      | nil => cases hspan
      | cons d rest => exact hpair d rest rfl rfl
    rw [Text.unescape]
    · exact .plain hslash hc (ih hspan)
    · exact fun d _ heq _ => hslash heq

/-- A word is spelled as it stands. -/
theorem Lexeme.ofWord_spells (word : List Char) : (Lexeme.ofWord word).Spells word := by
  unfold Lexeme.ofWord
  dsimp only
  split
  · next htrue => exact String.toList_ofList.symm.trans (congrArg String.toList htrue)
  split
  · next hfalse => exact String.toList_ofList.symm.trans (congrArg String.toList hfalse)
  split
  · next reserved hreserved =>
    have htext : reserved.text = String.ofList word := by simpa using List.find?_some hreserved
    exact String.toList_ofList.symm.trans (congrArg String.toList htext.symm)
  · exact String.toList_ofList.symm

/-- The number that is read is spelled by the text that is taken. -/
theorem scanNumber_spells (c : Char) (rest : List Char) :
    (scanNumber c rest).lexeme.Spells (scanNumber c rest).taken := by
  unfold scanNumber
  dsimp only
  split
  · split
    · exact (String.toList_ofList).symm
    · exact (String.toList_ofList).symm
  · exact (String.toList_ofList).symm

/-- The string that is read is spelled by the text that is taken. -/
theorem scanString_spells {mark : Char} {rest : List Char} {scanned : Scanned (mark :: rest)}
    (hmark : mark = '"' ∨ mark = '\'') (h : scanString mark rest = .ok scanned) :
    scanned.lexeme.Spells scanned.taken := by
  unfold scanString at h
  split at h
  · cases h
  · next written behind hspan =>
    cases h
    refine ⟨mark, written, hmark, rfl, ?_⟩
    rw [String.toList_ofList]
    exact writtenAs_of_spanQuoted hspan

/-- The pattern that is read is spelled by the text that is taken. -/
theorem scanPattern_spells {rest : List Char} {scanned : Scanned ('/' :: '/' :: rest)}
    (h : scanPattern rest = .ok scanned) : scanned.lexeme.Spells scanned.taken := by
  unfold scanPattern at h
  split at h
  · cases h
  · cases h
    simp [Lexeme.Spells]

/-- The symbol that is read is spelled by the text that is taken. -/
theorem scanSymbol_spells {c : Char} {rest : List Char} {scanned : Scanned (c :: rest)}
    (h : scanSymbol c rest = .ok scanned) : scanned.lexeme.Spells scanned.taken := by
  unfold scanSymbol at h
  split at h
  · cases h
  · cases h
    exact (String.toList_ofList).symm

/-- Every token takes the characters that it is written with. -/
theorem scanToken_spells {c : Char} {rest : List Char} {scanned : Scanned (c :: rest)}
    (h : scanToken c rest = .ok scanned) : scanned.lexeme.Spells scanned.taken := by
  unfold scanToken at h
  split at h
  · cases h
    exact Lexeme.ofWord_spells _
  split at h
  · cases h
    exact scanNumber_spells c rest
  split at h
  · next hmark => exact scanString_spells hmark h
  split at h
  · exact scanPattern_spells h
  · exact scanSymbol_spells h

/-! ## Divisions -/

/-- The text `cs`, which stands behind `before` in a file, consists of the tokens with gaps between them and
behind them. Every token has the place of its first character, and `finish` is where the text ends. -/
inductive Divided (file : String) (finish : Position) :
    (before cs : List Char) → List Token → Prop where
  | last {before cs : List Char} : FinalGap cs → finish = placeBehind file (before ++ cs) →
    Divided file finish before cs []
  | token {before gap chars rest : List Char} {token : Token} {tokens : List Token} :
    Gap gap → chars ≠ [] → token.lexeme.Spells chars →
    token.position = placeBehind file (before ++ gap) →
    Divided file finish (before ++ gap ++ chars) rest tokens →
    Divided file finish before (gap ++ chars ++ rest) (token :: tokens)

/-- The end of a divided text is the place behind all of it. -/
theorem Divided.finish_eq {file : String} {finish : Position} {before cs : List Char}
    {tokens : List Token} (h : Divided file finish before cs tokens) :
    finish = placeBehind file (before ++ cs) := by
  induction h with
  | last _ hfinish => exact hfinish
  | token _ _ _ _ _ ih => simpa [List.append_assoc] using ih

/-- A text that is scanned from a place on is divided from there on. -/
theorem scanFrom_divided {file : String} {before cs : List Char} {found : Scan}
    (h : scanFrom (placeBehind file before) cs = .ok found) :
    Divided file found.finish before cs found.tokens := by
  generalize hstart : placeBehind file before = start at h
  fun_induction scanFrom start cs generalizing before found with
  | case1 position cs behind =>
    rename_i hdrop
    cases h
    have hall : gap false cs = cs := by simpa [hdrop] using gap_append_dropGap false cs
    refine .last ((gap_shape cs).2 hdrop) ?_
    show position.afterAll (gap false cs) = _
    rw [← afterAll_placeBehind, hstart, hall]
  | case2 => cases h
  | case3 position cs behind c rest hdrop scanned hscan =>
    rename_i ih
    cases hrest : scanFrom (behind.afterAll scanned.taken) scanned.rest with
    | error fault =>
      rw [hrest] at h
      cases h
    | ok later =>
      rw [hrest] at h
      cases h
      have hbehind : placeBehind file (before ++ gap false cs) = behind := by
        rw [← afterAll_placeBehind, hstart]
      have hplace : placeBehind file (before ++ gap false cs ++ scanned.taken) =
          behind.afterAll scanned.taken := by
        rw [← afterAll_placeBehind, hbehind]
      have hcs : cs = gap false cs ++ scanned.taken ++ scanned.rest := by
        rw [List.append_assoc, scanned.split, ← hdrop, gap_append_dropGap]
      have hgap : Gap (gap false cs) := (gap_shape cs).1 (by rw [hdrop]; exact List.cons_ne_nil _ _)
      rw [hcs]
      exact .token hgap scanned.nonempty (scanToken_spells hscan) hbehind.symm (ih hplace hrest)

/-- The tokens of a text divide it, with gaps of white space and comments alone, and the end of the text has
the place behind all of its characters. -/
theorem scan_divided {file text : String} {found : Scan} (h : scan file text = .ok found) :
    Divided file found.finish [] text.toList found.tokens ∧
      found.finish = placeBehind file text.toList := by
  have hdivided : Divided file found.finish [] text.toList found.tokens := scanFrom_divided h
  exact ⟨hdivided, hdivided.finish_eq⟩

/-- A comment, and a string that is written over two lines with a mark and a line feed in it. -/
theorem scan_divided_lines :
    ∃ found, scan "" "# a\nx = 'b\\'\\n\n' # c" = .ok found ∧
      found.tokens = [⟨.name "x", ⟨"", 2, 1⟩⟩, ⟨.symbol .assign, ⟨"", 2, 3⟩⟩,
        ⟨.string "b'\n\n", ⟨"", 2, 5⟩⟩] ∧
      Divided "" found.finish [] "# a\nx = 'b\\'\\n\n' # c".toList found.tokens ∧
      found.finish = placeBehind "" "# a\nx = 'b\\'\\n\n' # c".toList := by
  have hscan : scan "" "# a\nx = 'b\\'\\n\n' # c" = .ok ⟨[⟨.name "x", ⟨"", 2, 1⟩⟩,
      ⟨.symbol .assign, ⟨"", 2, 3⟩⟩, ⟨.string "b'\n\n", ⟨"", 2, 5⟩⟩], ⟨"", 3, 6⟩⟩ := by decide +kernel
  exact ⟨_, hscan, rfl, scan_divided hscan⟩

end Ckl.Source
