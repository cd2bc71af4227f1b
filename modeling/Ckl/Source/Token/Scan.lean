import Ckl.Source.Token
import Ckl.Text.Blank
import Ckl.Text.Quoted
import Ckl.Text.WordChar

/-!
# Splitting a text into tokens

`scan` splits a text into its tokens. Between tokens there may be blanks and comments, which run from
a number sign to the end of the line. A token takes as many characters as it can. `Scanned` says of
each step that it loses nothing: what it takes and what it leaves are the text, and it takes something.
-/

namespace Ckl.Source

/-- The first token of a text and the rest. -/
structure Scanned (input : List Char) where
  lexeme : Lexeme
  /-- The characters of the token. -/
  taken : List Char
  rest : List Char
  split : taken ++ rest = input
  nonempty : taken ≠ []

namespace Scanned

/-- A token that is the first part of the text up to where a condition fails. -/
def ofSpan (lexeme : List Char → Lexeme) (keep : Char → Bool) (c : Char) (rest : List Char) :
    Scanned (c :: rest) where
  lexeme := lexeme (c :: rest.takeWhile keep)
  taken := c :: rest.takeWhile keep
  rest := rest.dropWhile keep
  split := by simp
  nonempty := by simp

theorem length_rest_lt {input : List Char} (scanned : Scanned input) :
    scanned.rest.length < input.length := by
  have := congrArg List.length scanned.split
  have := List.length_pos_iff.2 scanned.nonempty
  simp only [List.length_append] at *
  omega

end Scanned

/-- Whether a character can begin a name. -/
def beginsName (c : Char) : Bool := Text.isAlphabetic c || c == '_'

/-- Whether a character can continue a name. -/
def continuesName (c : Char) : Bool := Text.isAlphanumeric c || c == '_'

/-- A word is a truth value or a keyword if it spells one, and a name otherwise. -/
def Lexeme.ofWord (word : List Char) : Lexeme :=
  let text := String.ofList word
  if text = "TRUE" then .boolean true
  else if text = "FALSE" then .boolean false
  else match Keyword.ofText? text with
    | some reserved => .keyword reserved
    | none => .name text

/-- A number: digits, and a point with digits behind it if a digit follows the point. -/
def scanNumber (c : Char) (rest : List Char) : Scanned (c :: rest) :=
  let whole := rest.takeWhile Char.isDigit
  match h : rest.dropWhile Char.isDigit with
  | '.' :: d :: more =>
    if d.isDigit then
      let fraction := more.takeWhile Char.isDigit
      { lexeme := .decimal (String.ofList (c :: whole ++ '.' :: d :: fraction))
        taken := c :: whole ++ '.' :: d :: fraction
        rest := more.dropWhile Char.isDigit
        split := by
          have before : whole ++ rest.dropWhile Char.isDigit = rest := List.takeWhile_append_dropWhile
          have after : fraction ++ more.dropWhile Char.isDigit = more := List.takeWhile_append_dropWhile
          rw [h] at before
          simp [after, before]
        nonempty := by simp }
    else .ofSpan (fun cs => .whole (String.ofList cs)) Char.isDigit c rest
  | _ => .ofSpan (fun cs => .whole (String.ofList cs)) Char.isDigit c rest

/-- A string literal after its opening mark. -/
def scanString (mark : Char) (rest : List Char) : Except FaultCause (Scanned (mark :: rest)) :=
  match h : Text.spanQuoted mark rest with
  | none => .error .unclosedString
  | some (body, after) =>
    .ok
      { lexeme := .string (String.ofList (Text.unescape body))
        taken := mark :: body ++ [mark]
        rest := after
        split := by simp [Text.eq_append_of_spanQuoted h]
        nonempty := by simp }

/-- A pattern literal after its opening slashes. -/
def scanPattern (rest : List Char) : Except FaultCause (Scanned ('/' :: '/' :: rest)) :=
  match h : Text.spanSlashes rest with
  | none => .error .unclosedPattern
  | some (body, after) =>
    .ok
      { lexeme := .pattern (String.ofList body)
        taken := '/' :: '/' :: body ++ ['/', '/']
        rest := after
        split := by simp [Text.eq_append_of_spanSlashes h]
        nonempty := by simp }

/-- The longest symbol at the beginning of the text. -/
def scanSymbol (c : Char) (rest : List Char) : Except FaultCause (Scanned (c :: rest)) :=
  match h : Symbol.read (c :: rest) with
  | none => .error (.unexpectedCharacter c)
  | some symbol =>
    .ok
      { lexeme := .symbol symbol
        taken := symbol.chars
        rest := (c :: rest).drop symbol.chars.length
        split := List.prefix_iff_eq_append.1 (Symbol.chars_prefix_of_read h)
        nonempty := symbol.chars_ne_nil }

/-- The token at the beginning of a text. -/
def scanToken (c : Char) (rest : List Char) : Except FaultCause (Scanned (c :: rest)) :=
  if beginsName c then .ok (.ofSpan Lexeme.ofWord continuesName c rest)
  else if c.isDigit then .ok (scanNumber c rest)
  else if c = '"' ∨ c = '\'' then scanString c rest
  else match c, rest with
    | '/', '/' :: rest => scanPattern rest
    | c, rest => scanSymbol c rest

/-! ## Gaps -/

/-- The blanks and comments at the beginning of a text; `inComment` says whether it begins inside a
comment. -/
def gap (inComment : Bool) : List Char → List Char
  | [] => []
  | c :: rest =>
    if inComment then c :: gap (c != '\n') rest
    else if Text.isBlank c then c :: gap false rest
    else if c = '#' then c :: gap true rest
    else []

/-- The text without the blanks and comments at its beginning. -/
def dropGap (inComment : Bool) : List Char → List Char
  | [] => []
  | c :: rest =>
    if inComment then dropGap (c != '\n') rest
    else if Text.isBlank c then dropGap false rest
    else if c = '#' then dropGap true rest
    else c :: rest

theorem gap_append_dropGap (inComment : Bool) (cs : List Char) :
    gap inComment cs ++ dropGap inComment cs = cs := by
  induction cs generalizing inComment with
  | nil => rfl
  | cons c rest ih =>
    simp only [gap, dropGap]
    split
    · simp [ih]
    · split
      · simp [ih]
      · split <;> simp [ih]

theorem length_dropGap_le (inComment : Bool) (cs : List Char) :
    (dropGap inComment cs).length ≤ cs.length := by
  have := congrArg List.length (gap_append_dropGap inComment cs)
  simp only [List.length_append] at this
  omega

/-! ## Whole texts -/

/-- The tokens of a text, and the place where it ends. -/
structure Scan where
  tokens : List Token
  finish : Position
  deriving DecidableEq, Repr

/-- The scan with one more token in front. -/
def Scan.cons (token : Token) (scan : Scan) : Scan := { scan with tokens := token :: scan.tokens }

/-- The tokens of a text that begins at `position`. -/
def scanFrom (position : Position) (cs : List Char) : Except Fault Scan :=
  let start := position.afterAll (gap false cs)
  match _h : dropGap false cs with
  | [] => .ok ⟨[], start⟩
  | c :: rest =>
    match scanToken c rest with
    | .error cause => .error ⟨cause, start⟩
    | .ok scanned =>
      (scanFrom (start.afterAll scanned.taken) scanned.rest).map (.cons ⟨scanned.lexeme, start⟩)
termination_by cs.length
decreasing_by
  have := scanned.length_rest_lt
  have := length_dropGap_le false cs
  rw [_h] at this
  omega

/-- The tokens of a script. -/
def scan (file text : String) : Except Fault Scan := scanFrom (.start file) text.toList

end Ckl.Source
