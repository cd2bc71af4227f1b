import Ckl.Pattern.CharSet

/-!
# Patterns and what they match

A pattern is a regular expression with assertions about the gap between two characters. Matching works
on sets of gaps: a text of `n` characters has `n + 1` gaps, and a pattern leads from the gaps where a
match may begin to those where it may end. `Expr.matches` asks whether any gap leads to any gap, that
is, whether the pattern is found somewhere in the text.
-/

namespace Ckl.Pattern

/-- A condition on a gap of the text. -/
inductive Assertion where
  | textStart
  | textEnd
  | lineStart
  | lineEnd
  /-- The beginning of a line, where a carriage return also ends lines and the two together end one. -/
  | anyLineStart
  /-- The end of a line in the same sense. -/
  | anyLineEnd
  | wordBoundary
  | notWordBoundary
  | wordStart
  | wordEnd
  /-- No word character before the gap. -/
  | wordStartHalf
  /-- No word character after the gap. -/
  | wordEndHalf
  deriving DecidableEq, Repr

/-- A regular expression. -/
inductive Expr where
  | empty
  | char (set : CharSet)
  | assert (condition : Assertion) (words : CharSet)
  | seq (first second : Expr)
  | alt (left right : Expr)
  /-- At least `min` and at most `max` times, or without a limit. -/
  | times (inner : Expr) (min : Nat) (max : Option Nat)
  /-- An expression in brackets, which are nested that many levels deep. -/
  | nested (levels : Nat) (inner : Expr)
  deriving DecidableEq, Repr

/-- A gap of a text by the characters around it. -/
structure Gap where
  before : Option Char
  after : Option Char
  deriving DecidableEq, Repr

/-- The gaps of a text whose first gap has `before` on its left. -/
def gapsFrom (before : Option Char) : List Char → List Gap
  | [] => [⟨before, none⟩]
  | c :: cs => ⟨before, some c⟩ :: gapsFrom (some c) cs

/-- The gaps of a text. -/
def gaps (cs : List Char) : List Gap := gapsFrom none cs

/-- Whether an assertion, for a given notion of word characters, holds at a gap. -/
def Assertion.holds (condition : Assertion) (words : CharSet) (gap : Gap) : Bool :=
  let left := gap.before.any words.holds
  let right := gap.after.any words.holds
  match condition with
  | .textStart => gap.before.isNone
  | .textEnd => gap.after.isNone
  | .lineStart => gap.before.isNone || gap.before == some '\n'
  | .lineEnd => gap.after.isNone || gap.after == some '\n'
  | .anyLineStart =>
    gap.before.isNone || gap.before == some '\n'
      || (gap.before == some '\r' && gap.after != some '\n')
  | .anyLineEnd =>
    gap.after.isNone || gap.after == some '\r'
      || (gap.after == some '\n' && gap.before != some '\r')
  | .wordBoundary => left != right
  | .notWordBoundary => left == right
  | .wordStart => !left && right
  | .wordEnd => left && !right
  | .wordStartHalf => !left
  | .wordEndHalf => !right

/-- A set of gaps of a text, one mark for each gap in order. -/
abbrev Marks := List Bool

namespace Marks

/-- The gaps that are marked in one of two sets. -/
def union (left right : Marks) : Marks := left.zipWith (· || ·) right

/-- Whether no gap is marked. -/
def isEmpty (marks : Marks) : Bool := !marks.any id

/-- Applies `step` exactly `count` times. It stops when nothing changes any more. -/
def repeatExactly (step : Marks → Marks) : Nat → Marks → Marks
  | 0, marks => marks
  | count + 1, marks =>
    let next := step marks
    if next = marks then marks else repeatExactly step count next

/-- The gaps reached by at most `count` applications of `step`. It stops when nothing is added. -/
def repeatUpTo (step : Marks → Marks) : Nat → Marks → Marks
  | 0, marks => marks
  | count + 1, marks =>
    let next := marks.union (step marks)
    if next = marks then marks else repeatUpTo step count next

end Marks

namespace Expr

/-- The gaps where a match that begins at a marked gap can end. -/
def ends (around : List Gap) : Expr → Marks → Marks
  | empty, marks => marks
  | char set, marks =>
    false :: (marks.zipWith (fun mark gap => mark && gap.after.any set.holds) around).dropLast
  | assert condition words, marks =>
    marks.zipWith (fun mark gap => mark && condition.holds words gap) around
  | seq first second, marks => second.ends around (first.ends around marks)
  | alt left right, marks => (left.ends around marks).union (right.ends around marks)
  | times inner min max, marks =>
    let least := Marks.repeatExactly (inner.ends around) min marks
    let more := match max with
      | some most => most - min
      | none => around.length
    Marks.repeatUpTo (inner.ends around) more least
  | nested _ inner, marks => inner.ends around marks

/-- Whether the pattern is found somewhere in the text. -/
def matches? (expr : Expr) (text : String) : Bool :=
  let around := gaps text.toList
  !(expr.ends around (around.map fun _ => true)).isEmpty

/-- Whether the expression is a sequence. -/
def isSeq : Expr → Bool
  | seq _ _ => true
  | _ => false

/-- Whether the expression is a choice. -/
def isAlt : Expr → Bool
  | alt _ _ => true
  | _ => false

/-- How deep the expression is nested. A sequence of any length counts as one level, and so does a
choice between any number of alternatives. -/
def depth : Expr → Nat
  | empty | char _ | assert _ _ => 0
  | seq first second => max (first.depth + 1) (second.depth + if second.isSeq then 0 else 1)
  | alt left right => max (left.depth + 1) (right.depth + if right.isAlt then 0 else 1)
  | times inner _ _ => inner.depth + 1
  | nested levels inner => inner.depth + levels

/-- The expressions in sequence. -/
def concat : List Expr → Expr
  | [] => empty
  | [expr] => expr
  | expr :: rest => seq expr (concat rest)

/-- The expressions as alternatives. -/
def choice : List Expr → Expr
  | [] => empty
  | [expr] => expr
  | expr :: rest => alt expr (choice rest)

end Expr

end Ckl.Pattern
