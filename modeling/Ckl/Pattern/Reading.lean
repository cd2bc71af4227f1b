import Ckl.Pattern.Expr
import Ckl.Number.Decimal

/-!
# Reading patterns

`Pattern.read?` reads the text of a pattern and refuses malformed ones: unbalanced brackets, a
repetition of nothing, an unknown escape, a range that runs backwards. Flags such as `(?i)` hold until
the end of their group.
-/

namespace Ckl.Pattern

/-- The flags in force. -/
structure Flags where
  /-- Letters match in any case. -/
  caseless : Bool := false
  /-- The anchors match at line ends too. -/
  multiline : Bool := false
  /-- The dot matches line ends too. -/
  dotAll : Bool := false
  /-- A carriage return ends lines too, alone or before a line feed. -/
  anyLineEnd : Bool := false
  /-- The classes of digits, word characters and blanks are not confined to ASCII. -/
  unicode : Bool := true
  /-- Blanks and comments between the parts of a pattern are skipped. -/
  verbose : Bool := false
  deriving Repr

namespace Flags

/-- The class of word characters. -/
def word (flags : Flags) : CharSet := if flags.unicode then .word else .asciiWord

/-- The class of digits. -/
def digit (flags : Flags) : CharSet := if flags.unicode then .digit else .span '0' '9'

/-- The class of blanks. -/
def blank (flags : Flags) : CharSet := if flags.unicode then .blank else .asciiBlank

/-- The set in the state of sensitivity to case that the flags ask for. -/
def fold (flags : Flags) (set : CharSet) : CharSet :=
  if !flags.caseless then set
  else if flags.unicode then .caseless set
  else .asciiCaseless set

/-- A complement, which without the Unicode flag could match half a character and is refused. -/
def complement? (flags : Flags) (set : CharSet) : Option CharSet :=
  if flags.unicode then some (.complement set) else none

/-- The set or its complement, after both cases of its letters have been joined. -/
def foldedOr? (flags : Flags) (negated : Bool) (set : CharSet) : Option CharSet :=
  if negated then flags.complement? (flags.fold set) else some (flags.fold set)

/-- The flags after the letter of one has been switched on or off. -/
def set? (flags : Flags) (on : Bool) : Char → Option Flags
  | 'i' => some { flags with caseless := on }
  | 'm' => some { flags with multiline := on }
  | 's' => some { flags with dotAll := on }
  | 'u' => some { flags with unicode := on }
  | 'x' => some { flags with verbose := on }
  | 'R' => some { flags with anyLineEnd := on }
  | 'U' => some flags
  | _ => none

end Flags

/-- The text without the comment in front, which ends at a line end. -/
def dropComment (cs : List Char) : List Char := cs.dropWhile (· != '\n')

/-- The text without the blanks and comments in front, for verbose patterns; `fuel` bounds their
number. -/
def skipVerbose : Nat → List Char → List Char
  | 0, cs => cs
  | fuel + 1, cs =>
    match cs with
    | '#' :: rest => skipVerbose fuel (dropComment rest)
    | c :: rest => if Text.isBlank c then skipVerbose fuel rest else cs
    | [] => []

/-- Skips what the flags allow to stand between the parts of a pattern. -/
def skip (flags : Flags) (cs : List Char) : List Char :=
  if flags.verbose then skipVerbose cs.length cs else cs

/-! ## Escapes -/

/-- What an escape stands for. -/
inductive Escape where
  | literal (c : Char)
  | class (set : CharSet)
  | assertion (condition : Assertion)
  deriving Repr

/-- The value of a hexadecimal digit. -/
def hexDigit? (c : Char) : Option Nat :=
  if c.isDigit then some (c.toNat - '0'.toNat)
  else if 'a' ≤ c ∧ c ≤ 'f' then some (c.toNat - 'a'.toNat + 10)
  else if 'A' ≤ c ∧ c ≤ 'F' then some (c.toNat - 'A'.toNat + 10)
  else none

/-- The character whose number is written in hexadecimal digits, at least one. -/
def hexChar? (cs : List Char) : Option Char := do
  if cs.isEmpty then none
  let ds ← cs.mapM hexDigit?
  let n := ds.foldl (fun value d => value * 16 + d) 0
  if n.isValidChar then some (Char.ofNat n) else none

/-- A character by its number: `width` hexadecimal digits, or any number of them in braces. -/
def readHex (width : Nat) (cs : List Char) : Option (Char × List Char) :=
  match cs with
  | '\x7b' :: rest =>
    let ds := rest.takeWhile (· != '\x7d')
    match rest.dropWhile (· != '\x7d') with
    | _ :: rest => (hexChar? ds).map (·, rest)
    | [] => none
  | _ => if cs.length < width then none else (hexChar? (cs.take width)).map (·, cs.drop width)

/-- A name of a property in the spelling that is looked up: without case, blanks, underscores and
hyphens, and without a leading `is`. -/
def propertyKey (name : List Char) : String :=
  let lower := name.map Char.toLower
  let body := if ['i', 's'].isPrefixOf lower then lower.drop 2 else lower
  String.ofList (body.filter fun c => c.toNat < 128 && c != ' ' && c != '_' && c != '-')

/-- The classes that a property escape can name. General categories other than the numbers, scripts
and the remaining binary properties are unknown here and refused like misspelt names: `\pL`,
`\p{Lu}` and `\p{Greek}` are no patterns. -/
def property? (name : List Char) : Option CharSet :=
  match propertyKey name with
  | "n" | "number" => some .numeral
  | "nd" | "decimalnumber" | "digit" => some .digit
  | "alphabetic" | "alpha" => some .letter
  | "whitespace" | "wspace" | "space" => some .blank
  | "any" => some .all
  | "ascii" => some .ascii
  | _ => none

/-- A property: one letter, or a name in braces. There are none without the Unicode flag. -/
def readProperty (flags : Flags) (negated : Bool) (cs : List Char) :
    Option (CharSet × List Char) := do
  if !flags.unicode then none
  let (name, rest) ← match cs with
    | '\x7b' :: rest =>
      match rest.dropWhile (· != '\x7d') with
      | _ :: after => some (rest.takeWhile (· != '\x7d'), after)
      | [] => none
    | c :: rest => some ([c], rest)
    | [] => none
  let set ← flags.foldedOr? negated (← property? name)
  return (set, rest)

/-- What follows `\x`. Two digits stand for a byte without the Unicode flag, and a byte above ASCII is
no character. -/
def readHexByte (flags : Flags) (cs : List Char) : Option (Char × List Char) := do
  let (c, rest) ← readHex 2 cs
  if flags.unicode || c.toNat < 128 || cs.head? = some '\x7b' then return (c, rest) else none

/-- The characters that an escape can take literally: ASCII ones that are no letters, digits or angle
brackets. -/
def escapable (c : Char) : Bool :=
  c.toNat < 128 && !c.isAlphanum && c != '<' && c != '>'

/-- The kind of word boundary that a name in braces asks for. -/
def boundary? (name : List Char) : Option Assertion :=
  match String.ofList name with
  | "start" => some .wordStart
  | "end" => some .wordEnd
  | "start-half" => some .wordStartHalf
  | "end-half" => some .wordEndHalf
  | _ => none

/-- What follows the `\b` of a word boundary: the name of a special kind, if there is one. Braces that
hold no name of that form begin a repetition instead. -/
def readBoundary (cs : List Char) : Option (Assertion × List Char) :=
  match cs with
  | '\x7b' :: rest =>
    let isNameChar (c : Char) : Bool := c.isAlpha || c == '-'
    match rest.takeWhile isNameChar, rest.dropWhile isNameChar with
    | c :: name, '\x7d' :: after => (boundary? (c :: name)).map (·, after)
    | _ :: _, _ => none
    | [], _ => some (.wordBoundary, cs)
  | _ => some (.wordBoundary, cs)

/-- Reads what follows a backslash. -/
def readEscape (flags : Flags) (cs : List Char) : Option (Escape × List Char) :=
  match cs with
  | [] => none
  | c :: rest =>
    match c with
    | 'd' => some (.class flags.digit, rest)
    | 'w' => some (.class flags.word, rest)
    | 's' => some (.class flags.blank, rest)
    | 'D' => (flags.complement? flags.digit).map fun set => (.class set, rest)
    | 'W' => (flags.complement? flags.word).map fun set => (.class set, rest)
    | 'S' => (flags.complement? flags.blank).map fun set => (.class set, rest)
    | 'p' => (readProperty flags false rest).map fun (set, rest) => (.class set, rest)
    | 'P' => (readProperty flags true rest).map fun (set, rest) => (.class set, rest)
    | 'x' => (readHexByte flags rest).map fun (c, rest) => (.literal c, rest)
    | 'u' => (readHex 4 rest).map fun (c, rest) => (.literal c, rest)
    | 'U' => (readHex 8 rest).map fun (c, rest) => (.literal c, rest)
    | 'a' => some (.literal '\x07', rest)
    | 'f' => some (.literal '\x0c', rest)
    | 't' => some (.literal '\t', rest)
    | 'n' => some (.literal '\n', rest)
    | 'r' => some (.literal '\r', rest)
    | 'v' => some (.literal '\x0b', rest)
    | 'A' => some (.assertion .textStart, rest)
    | 'z' => some (.assertion .textEnd, rest)
    | 'b' => (readBoundary rest).map fun (condition, rest) => (.assertion condition, rest)
    | 'B' => some (.assertion .notWordBoundary, rest)
    | '<' => some (.assertion .wordStart, rest)
    | '>' => some (.assertion .wordEnd, rest)
    | c => if escapable c then some (.literal c, rest) else none

/-! ## Bracketed classes -/

/-- The operators between parts of a class. -/
inductive ClassOperator where
  | intersection
  | difference
  | symmetricDifference
  deriving DecidableEq, Repr

/-- The set that an operator makes of two. -/
def ClassOperator.apply : ClassOperator → CharSet → CharSet → CharSet
  | .intersection => .intersection
  | .difference => .difference
  | .symmetricDifference => .symmetricDifference

/-- A set with the number of levels that its brackets are nested. -/
structure Bracketed where
  set : CharSet
  levels : Nat

/-- The part of a class that has been read: the union of the last items, their number and the levels of
the deepest one, and what an operator before them is to be applied to. -/
structure ClassSoFar where
  items : CharSet := .empty
  count : Nat := 0
  levels : Nat := 0
  pending : Option (ClassOperator × Bracketed) := none

/-- The set of a class that is complete. Under the flag for any case both sides of an operator are
widened before it is applied. Two items or more are a level of their own, and so is an operator. -/
def ClassSoFar.finish (flags : Flags) (soFar : ClassSoFar) : Bracketed :=
  let items := flags.fold soFar.items
  let levels := if soFar.count ≤ 1 then soFar.levels else soFar.levels + 1
  match soFar.pending with
  | none => ⟨items, levels⟩
  | some (operator, left) => ⟨operator.apply (flags.fold left.set) items, max left.levels levels + 1⟩

/-- The class with one more item, which is nested that many levels. -/
def ClassSoFar.add (soFar : ClassSoFar) (set : CharSet) (levels : Nat := 0) : ClassSoFar :=
  { soFar with
    items := .union soFar.items set
    count := soFar.count + 1
    levels := max soFar.levels levels }

/-- One character or class of a bracket. -/
def readClassAtom (flags : Flags) (cs : List Char) : Option (Escape × List Char) :=
  match cs with
  | '\\' :: rest => readEscape flags rest
  | c :: rest => some (.literal c, rest)
  | [] => none

/-- A character of a class, which has to be an ASCII one without the Unicode flag. -/
def Flags.member? (flags : Flags) (c : Char) : Option Char :=
  if flags.unicode || c.toNat < 128 then some c else none

/-- The set of a part that stands alone; assertions have no place in a class. -/
def Escape.set? (flags : Flags) : Escape → Option CharSet
  | .literal c => (flags.member? c).map .single
  | .class set => some set
  | .assertion _ => none

/-- A character, a class or a range of a bracket. A hyphen makes a range unless the bracket closes or
another hyphen stands behind it. -/
def readClassItem (flags : Flags) (cs : List Char) : Option (CharSet × List Char) := do
  let (first, rest) ← readClassAtom flags cs
  match skip flags rest with
  | '-' :: more =>
    match skip flags more with
    | ']' :: _ | '-' :: _ => return (← first.set? flags, '-' :: more)
    | behind =>
      let (second, rest) ← readClassAtom flags behind
      match first, second with
      | .literal low, .literal high =>
        let low ← flags.member? low
        let high ← flags.member? high
        if low ≤ high then some (.span low high, rest) else none
      | _, _ => none
  | [] => none
  | rest => return (← first.set? flags, rest)

/-- An ASCII class by name, after its opening bracket and colon. -/
def readNamedClass (flags : Flags) (cs : List Char) : Option (CharSet × List Char) := do
  let (negated, body) := match cs with
    | '^' :: rest => (true, rest)
    | _ => (false, cs)
  match body.dropWhile (· != ':') with
  | ':' :: ']' :: rest =>
    let set ← CharSet.named? (String.ofList (body.takeWhile (· != ':')))
    return (← flags.foldedOr? negated set, rest)
  | _ => none

/-- The hyphens, or else the closing bracket, that stand literally at the beginning of a class. -/
def readClassStart (flags : Flags) (soFar : ClassSoFar) : Nat → List Char → ClassSoFar × List Char
  | 0, cs => (soFar, cs)
  | fuel + 1, cs =>
    match cs with
    | '-' :: rest => readClassStart flags (soFar.add (.single '-')) fuel (skip flags rest)
    | ']' :: rest =>
      if soFar.count = 0 then (soFar.add (.single ']'), skip flags rest) else (soFar, cs)
    | _ => (soFar, cs)

/-- The caret of a class that is to be complemented. -/
def readCaret (flags : Flags) (cs : List Char) : Bool × List Char :=
  match skip flags cs with
  | '^' :: rest => (true, skip flags rest)
  | rest => (false, rest)

/-- A class after its opening bracket; `fuel` bounds the number of its parts. -/
def readClass (flags : Flags) : Nat → List Char → Option (Bracketed × List Char)
  | 0, _ => none
  | fuel + 1, cs =>
    let (negated, body) := readCaret flags cs
    let (soFar, body) := readClassStart flags {} body.length body
    match readParts fuel soFar body with
    | none => none
    | some (inner, rest) => (close negated inner).map (·, rest)
where
  /-- The class in its brackets, which are one more level. -/
  close (negated : Bool) (inner : Bracketed) : Option Bracketed :=
    if negated then (flags.complement? inner.set).map (⟨·, inner.levels + 1⟩)
    else some ⟨inner.set, inner.levels + 1⟩
  /-- The parts of a class up to its closing bracket. -/
  readParts : Nat → ClassSoFar → List Char → Option (Bracketed × List Char)
    | 0, _, _ => none
    | fuel + 1, soFar, cs =>
      match skip flags cs with
      | [] => none
      | ']' :: rest => some (soFar.finish flags, rest)
      | '[' :: rest =>
        let named := match rest with
          | ':' :: name => readNamedClass flags name
          | _ => none
        match named with
        | some (set, rest) => readParts fuel (soFar.add set) rest
        | none =>
          let (negated, body) := readCaret flags rest
          let (inner, body) := readClassStart flags {} body.length body
          match readParts fuel inner body with
          | none => none
          | some (inner, rest) =>
            match close negated inner with
            | some class' => readParts fuel (soFar.add class'.set class'.levels) rest
            | none => none
      | '&' :: '&' :: rest => readParts fuel (operate .intersection soFar) rest
      | '-' :: '-' :: rest => readParts fuel (operate .difference soFar) rest
      | '~' :: '~' :: rest => readParts fuel (operate .symmetricDifference soFar) rest
      | cs =>
        match readClassItem flags cs with
        | some (set, rest) => readParts fuel (soFar.add set) rest
        | none => none
  /-- The class after an operator behind what has been read. -/
  operate (operator : ClassOperator) (soFar : ClassSoFar) : ClassSoFar :=
    { pending := some (operator, soFar.finish flags) }

/-! ## Repetitions -/

/-- The greatest number of a counted repetition. -/
def greatestCount : Nat := Nat.pow 2 32 - 1

/-- A number with blanks around it. -/
def readCount (cs : List Char) : Option (Nat × List Char) :=
  let cs := cs.dropWhile Text.isBlank
  let ds := cs.takeWhile Char.isDigit
  let n := Number.ofDigits ds
  if ds.isEmpty || greatestCount < n then none
  else some (n, (cs.drop ds.length).dropWhile Text.isBlank)

/-- The bounds of a counted repetition after its opening brace. -/
def readBounds (flags : Flags) (cs : List Char) : Option (Nat × Option Nat × List Char) := do
  let (least, rest) ← readCount (skip flags cs)
  match rest with
  | '\x7d' :: rest => return (least, some least, rest)
  | ',' :: rest =>
    match skip flags rest with
    | '\x7d' :: rest => return (least, none, rest)
    | rest =>
      let (most, rest) ← readCount rest
      match rest with
      | '\x7d' :: rest => if least ≤ most then some (least, some most, rest) else none
      | _ => none
  | _ => none

/-- The question mark after a repetition, which changes only what is preferred. -/
def dropLazy (flags : Flags) (cs : List Char) : List Char :=
  match skip flags cs with
  | '?' :: rest => rest
  | rest => rest

/-- The bounds of a repetition that the text begins with, if it does. -/
def repetition? (flags : Flags) : List Char → Option (Option (Nat × Option Nat × List Char))
  | '*' :: rest => some (some (0, none, rest))
  | '+' :: rest => some (some (1, none, rest))
  | '?' :: rest => some (some (0, some 1, rest))
  | '\x7b' :: rest => some (readBounds flags rest)
  | _ => none

/-! ## Groups -/

/-- Whether a character can begin the name of a group. -/
def beginsName (c : Char) : Bool := c == '_' || Text.isAlphabetic c

/-- Whether a character can continue the name of a group. -/
def continuesName (c : Char) : Bool :=
  c == '_' || c == '.' || c == '[' || c == ']' || Text.isAlphanumeric c

/-- The name of a group up to its closing angle bracket. -/
def readName (cs : List Char) : Option (List Char × List Char) :=
  match cs.takeWhile (· != '>'), cs.dropWhile (· != '>') with
  | c :: name, _ :: rest =>
    if beginsName c && name.all continuesName then some (c :: name, rest) else none
  | _, _ => none

/-- The flags up to the colon or closing bracket, which is left. `seen` holds the letters read so far;
`fuel` bounds their number. -/
def readFlags (flags : Flags) (on : Bool) (seen : List Char) (dangling : Bool) :
    Nat → List Char → Option (Flags × List Char)
  | 0, _ => none
  | fuel + 1, cs =>
    match cs with
    | ':' :: _ | ')' :: _ => if dangling then none else some (flags, cs)
    | '-' :: rest => if on then readFlags flags false seen true fuel rest else none
    | c :: rest =>
      if seen.contains c then none
      else match flags.set? on c with
        | some flags => readFlags flags on (c :: seen) false fuel rest
        | none => none
    | [] => none

/-- What an opening bracket begins. -/
inductive GroupStart where
  /-- Flags for the rest of the enclosing group. -/
  | flags (flags : Flags)
  /-- A group with the flags that hold inside, and its name. -/
  | group (flags : Flags) (name : Option (List Char))
  deriving Repr

/-- Reads what stands between an opening bracket and the contents of the group. -/
def readGroupStart (flags : Flags) (cs : List Char) : Option (GroupStart × List Char) :=
  match skip flags cs with
  | '?' :: 'P' :: '<' :: rest => (readName rest).map fun (name, rest) => (.group flags name, rest)
  | '?' :: '<' :: '=' :: _ | '?' :: '<' :: '!' :: _ | '?' :: '=' :: _ | '?' :: '!' :: _ => none
  | '?' :: '<' :: rest => (readName rest).map fun (name, rest) => (.group flags name, rest)
  | '?' :: ')' :: _ => none
  | '?' :: rest =>
    match readFlags flags true [] false (rest.length + 1) rest with
    | some (flags, ':' :: rest) => some (.group flags none, rest)
    | some (flags, ')' :: rest) => some (.flags flags, rest)
    | _ => none
  | rest => some (.group flags none, rest)

/-! ## Patterns -/

/-- The items of a sequence, last first. Flags leave an empty one, which cannot be repeated. -/
abbrev Items := List Expr

/-- The sequence of the items. -/
def Items.toExpr (items : Items) : Expr := .concat items.reverse

/-- A literal character. -/
def Flags.literal (flags : Flags) (c : Char) : Expr := .char (flags.fold (CharSet.single c))

/-- An escape as an item of its own. -/
def Flags.escape (flags : Flags) : Escape → Expr
  | .literal c => flags.literal c
  | .class set => .char set
  | .assertion condition => .assert condition flags.word

/-- The characters that the dot leaves out. -/
def Flags.lineEnds (flags : Flags) : CharSet :=
  if flags.dotAll then .empty
  else if flags.anyLineEnd then .union (.single '\r') (.single '\n')
  else .single '\n'

/-- The dot. -/
def Flags.dot? (flags : Flags) : Option Expr := (flags.complement? flags.lineEnds).map .char

/-- The anchor at the beginning. -/
def Flags.start (flags : Flags) : Assertion :=
  if !flags.multiline then .textStart
  else if flags.anyLineEnd then .anyLineStart
  else .lineStart

/-- The anchor at the end. -/
def Flags.stop (flags : Flags) : Assertion :=
  if !flags.multiline then .textEnd
  else if flags.anyLineEnd then .anyLineEnd
  else .lineEnd

/-- An item that is no group and no repetition. -/
def readItem (flags : Flags) (cs : List Char) : Option (Expr × List Char) :=
  match cs with
  | [] => none
  | '\\' :: rest => (readEscape flags rest).map fun (escape, rest) => (flags.escape escape, rest)
  | '[' :: rest =>
    (readClass flags (2 * rest.length + 2) rest).map fun (class', rest) =>
      (.nested class'.levels (.char class'.set), rest)
  | '.' :: rest => flags.dot?.map (·, rest)
  | '^' :: rest => some (.assert flags.start flags.word, rest)
  | '$' :: rest => some (.assert flags.stop flags.word, rest)
  | c :: rest => some (flags.literal c, rest)

/-- The alternatives of a group up to its closing bracket, or of the whole pattern up to its end.
`names` are the names of the groups so far; `fuel` bounds the number of items. -/
def readGroup (inside : Bool) :
    Nat → Flags → List (List Char) → List Expr → Items → List Char →
      Option (Expr × List (List Char) × List Char)
  | 0, _, _, _, _, _ => none
  | fuel + 1, flags, names, branches, items, cs =>
    let finish (rest : List Char) :=
      some (Expr.choice (items.toExpr :: branches).reverse, names, rest)
    let cs := skip flags cs
    match repetition? flags cs with
    | some none => none
    | some (some (least, most, rest)) =>
      match items with
      | [] | .empty :: _ => none
      | item :: before =>
        readGroup inside fuel flags names branches (.times item least most :: before)
          (dropLazy flags rest)
    | none =>
      match cs with
      | [] => if inside then none else finish []
      | ')' :: rest => if inside then finish rest else none
      | '|' :: rest => readGroup inside fuel flags names (items.toExpr :: branches) [] rest
      | '(' :: rest =>
        match readGroupStart flags rest with
        | none => none
        | some (.flags flags, rest) =>
          readGroup inside fuel flags names branches (.empty :: items) rest
        | some (.group inner name, rest) =>
          if name.any names.contains then none
          else
            match readGroup true fuel inner (name.toList ++ names) [] [] rest with
            | none => none
            | some (expr, names, rest) =>
              readGroup inside fuel flags names branches (.nested 1 expr :: items) rest
      | cs =>
        match readItem flags cs with
        | none => none
        | some (expr, rest) => readGroup inside fuel flags names branches (expr :: items) rest

/-- The greatest depth of a pattern. -/
def deepest : Nat := 250

/-- The pattern that a text describes, if it describes one. The depth of a pattern is limited, but not
the size that its counted repetitions unfold to, so `\w{1000}` is a pattern. Of the Unicode
properties only those of `property?` have a name. In a verbose pattern no blanks may stand between the
digits of a number or in the name of a property. -/
def read? (text : String) : Option Expr := do
  let (expr, _) ← readGroup false (text.length + 1) {} [] [] [] text.toList
  if expr.depth ≤ deepest then some expr else none

/-- Whether the pattern that `source` describes is found in the text, if it describes one. -/
def found? (source text : String) : Option Bool := (read? source).map (·.matches? text)

end Ckl.Pattern
