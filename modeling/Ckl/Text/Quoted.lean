/-!
# Quoted text

A text is quoted between single quotation marks. The backslash, the quotation mark and three control
characters are written with a backslash before them. Reading is more generous: a text may stand between
marks of either kind, and a backslash before any other character stands for that character.

`quote` and `unescape` are inverse to each other on the text between the marks, and `spanQuoted` finds
the mark that closes a quoted text.
-/

namespace Ckl.Text

/-- A character of a quoted text as it is written. -/
def escape (c : Char) : List Char :=
  match c with
  | '\\' => ['\\', '\\']
  | '\'' => ['\\', '\'']
  | '\n' => ['\\', 'n']
  | '\r' => ['\\', 'r']
  | '\t' => ['\\', 't']
  | c => [c]

/-- The text between the marks. -/
def escapeAll (cs : List Char) : List Char := cs.flatMap escape

/-- The text in quotation marks. -/
def quote (cs : List Char) : List Char := '\'' :: (escapeAll cs ++ ['\''])

/-- The character that a backslash and `c` stand for. -/
def unescapeChar (c : Char) : Char :=
  match c with
  | 'n' => '\n'
  | 'r' => '\r'
  | 't' => '\t'
  | c => c

/-- The text that is written between two marks. -/
def unescape : List Char → List Char
  | '\\' :: c :: rest => unescapeChar c :: unescape rest
  | c :: rest => c :: unescape rest
  | [] => []

/-- What stands before the mark that closes a quoted text, and what stands after it. -/
def spanQuoted (mark : Char) : List Char → Option (List Char × List Char)
  | [] => none
  | '\\' :: c :: rest => (spanQuoted mark rest).map fun (body, after) => ('\\' :: c :: body, after)
  | c :: rest =>
    if c = mark then some ([], rest)
    else (spanQuoted mark rest).map fun (body, after) => (c :: body, after)

/-- The closing mark stands between the two parts. -/
theorem eq_append_of_spanQuoted {mark : Char} {cs body after : List Char}
    (h : spanQuoted mark cs = some (body, after)) : cs = body ++ mark :: after := by
  fun_induction spanQuoted mark cs generalizing body after with
  | case1 => simp at h
  | case2 c rest ih =>
    obtain ⟨⟨b, a⟩, hb, hp⟩ := Option.map_eq_some_iff.1 h
    cases hp
    simp [ih hb]
  | case3 => cases h; rfl
  | case4 c rest _ hc ih =>
    obtain ⟨⟨b, a⟩, hb, hp⟩ := Option.map_eq_some_iff.1 h
    cases hp
    simp [ih hb]

/-- What stands before the first two slashes in a row, and what stands after them. -/
def spanSlashes : List Char → Option (List Char × List Char)
  | [] => none
  | '/' :: '/' :: rest => some ([], rest)
  | c :: rest => (spanSlashes rest).map fun (body, after) => (c :: body, after)

/-- The two slashes stand between the two parts. -/
theorem eq_append_of_spanSlashes {cs body after : List Char}
    (h : spanSlashes cs = some (body, after)) : cs = body ++ '/' :: '/' :: after := by
  fun_induction spanSlashes cs generalizing body after with
  | case1 => simp at h
  | case2 => cases h; rfl
  | case3 c rest _ ih =>
    obtain ⟨⟨b, a⟩, hb, hp⟩ := Option.map_eq_some_iff.1 h
    cases hp
    simp [ih hb]

end Ckl.Text
