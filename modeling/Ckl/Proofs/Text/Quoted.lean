import Ckl.Text.Quoted

/-!
# Quoting and reading back

A quoted text is closed by the first mark that no backslash precedes, which is the one that `quote` sets
at its end, and what stands between the marks stands for the text. What closes a literal closes it in a
longer text, too, and the end of a line closes none.
-/

namespace Ckl.Text

/-- A character is written as itself, or by a backslash and a character that stands for it. -/
theorem escape_cases (c : Char) :
    (escape c = [c] ∧ c ≠ '\\' ∧ c ≠ '\'') ∨ ∃ d, escape c = ['\\', d] ∧ unescapeChar d = c := by
  unfold escape
  split
  · exact .inr ⟨'\\', rfl, rfl⟩
  · exact .inr ⟨'\'', rfl, rfl⟩
  · exact .inr ⟨'n', rfl, rfl⟩
  · exact .inr ⟨'r', rfl, rfl⟩
  · exact .inr ⟨'t', rfl, rfl⟩
  · next hslash hmark _ _ _ => exact .inl ⟨rfl, hslash, hmark⟩

theorem escapeAll_cons (c : Char) (cs : List Char) : escapeAll (c :: cs) = escape c ++ escapeAll cs :=
  List.flatMap_cons

theorem unescape_escapeAll (cs : List Char) : unescape (escapeAll cs) = cs := by
  induction cs with
  | nil => rfl
  | cons c cs ih =>
    rw [escapeAll_cons]
    rcases escape_cases c with ⟨hc, hslash, -⟩ | ⟨d, hc, hd⟩
    · rw [hc, List.singleton_append, unescape, ih]
      exact fun d _ heq _ => hslash heq
    · rw [hc, List.cons_append, List.singleton_append, unescape, hd, ih]

theorem spanQuoted_escapeAll (cs rest : List Char) :
    spanQuoted '\'' (escapeAll cs ++ '\'' :: rest) = some (escapeAll cs, rest) := by
  induction cs with
  | nil => rfl
  | cons c cs ih =>
    rw [escapeAll_cons]
    rcases escape_cases c with ⟨hc, hslash, hmark⟩ | ⟨d, hc, hd⟩
    · rw [hc, List.singleton_append, List.cons_append, spanQuoted, if_neg hmark, ih]
      · rfl
      · exact fun d _ heq _ => hslash heq
    · rw [hc, List.cons_append, List.singleton_append, List.cons_append, List.cons_append, spanQuoted,
        ih]
      rfl

/-! ## Texts that go on -/

/-- The mark that closes a quoted text closes it whatever stands behind it. -/
theorem spanQuoted_append {mark : Char} {cs body after : List Char} (more : List Char)
    (hmark : mark ≠ '\\') (h : spanQuoted mark cs = some (body, after)) :
    spanQuoted mark (cs ++ more) = some (body, after ++ more) := by
  fun_induction spanQuoted mark cs generalizing body after with
  | case1 => cases h
  | case2 c rest ih =>
    obtain ⟨⟨inner, behind⟩, hspan, heq⟩ := Option.map_eq_some_iff.mp h
    cases heq
    rw [List.cons_append, List.cons_append, spanQuoted, ih hspan]
    rfl
  | case3 rest =>
    cases h
    rw [List.cons_append, spanQuoted, if_pos rfl]
    exact fun d _ heq _ => hmark heq
  | case4 c rest hpair hc ih =>
    obtain ⟨⟨inner, behind⟩, hspan, heq⟩ := Option.map_eq_some_iff.mp h
    cases heq
    -- a backslash is not the last character, since the closing mark stands behind it
    have hslash : c ≠ '\\' := by
      rintro rfl
      cases rest with
      | nil => cases hspan
      | cons d rest => exact hpair d rest rfl rfl
    rw [List.cons_append, spanQuoted, if_neg hc, ih hspan]
    · rfl
    · exact fun d _ heq _ => hslash heq

/-- A quoted text that is not closed is not closed by the end of its line. -/
theorem spanQuoted_newline {mark : Char} {cs : List Char} (hmark : mark ≠ '\n')
    (h : spanQuoted mark cs = none) : spanQuoted mark (cs ++ ['\n']) = none := by
  fun_induction spanQuoted mark cs with
  | case1 => simp [spanQuoted, Ne.symm hmark]
  | case2 c rest ih =>
    rw [List.cons_append, List.cons_append, spanQuoted, ih (Option.map_eq_none_iff.mp h)]
    rfl
  | case3 => cases h
  | case4 c rest hpair hc ih =>
    have hrest := ih (Option.map_eq_none_iff.mp h)
    cases rest with
    | nil => by_cases hslash : c = '\\' <;> simp [spanQuoted, hslash, hc, Ne.symm hmark]
    | cons d rest =>
      rw [List.cons_append, spanQuoted, if_neg hc, hrest]
      · rfl
      · exact fun e more heq htail => hpair d rest heq rfl

/-- The slashes that close a pattern close it whatever stands behind them. -/
theorem spanSlashes_append {cs body after : List Char} (more : List Char)
    (h : spanSlashes cs = some (body, after)) :
    spanSlashes (cs ++ more) = some (body, after ++ more) := by
  fun_induction spanSlashes cs generalizing body after with
  | case1 => cases h
  | case2 => cases h; rfl
  | case3 c rest hpair ih =>
    obtain ⟨⟨inner, behind⟩, hspan, heq⟩ := Option.map_eq_some_iff.mp h
    cases heq
    rw [List.cons_append, spanSlashes, ih hspan]
    · rfl
    · intro behind' hc htail
      cases rest with
      | nil => cases hspan
      | cons d rest => exact hpair rest hc (by rw [(List.cons.inj htail).1])

/-- A pattern that is not closed is not closed by the end of its line. -/
theorem spanSlashes_newline {cs : List Char} (h : spanSlashes cs = none) :
    spanSlashes (cs ++ ['\n']) = none := by
  fun_induction spanSlashes cs with
  | case1 => rfl
  | case2 => cases h
  | case3 c rest hpair ih =>
    rw [List.cons_append, spanSlashes, ih (Option.map_eq_none_iff.mp h)]
    · rfl
    · intro behind hc htail
      cases rest with
      | nil => cases htail
      | cons d rest => exact hpair rest hc (by rw [(List.cons.inj htail).1])

end Ckl.Text
