import Ckl.Text.Blank
import Ckl.Text.WordChar
import Ckl.Text.CaseFold

/-!
# Sets of characters

The sets that a pattern can ask one character to belong to: spans of code points, the classes of
digits, word characters and blanks, and what is built from them. `CharSet.holds` decides membership.
-/

namespace Ckl.Pattern

/-- A set of characters. -/
inductive CharSet where
  | empty
  /-- All characters from `first` to `last`, both included. -/
  | span (first last : Char)
  | letter
  | numeral
  | digit
  | word
  | blank
  | complement (inner : CharSet)
  | union (left right : CharSet)
  | intersection (left right : CharSet)
  /-- The set with all the letters that differ from one of its members only in case. -/
  | caseless (inner : CharSet)
  /-- The same among the ASCII letters alone. -/
  | asciiCaseless (inner : CharSet)
  deriving DecidableEq, Repr

namespace CharSet

/-- Whether the set has the character as a member. -/
def holds : CharSet → Char → Bool
  | empty, _ => false
  | span first last, c => first.toNat ≤ c.toNat && c.toNat ≤ last.toNat
  | letter, c => Text.isAlphabetic c
  | numeral, c => Text.isNumeric c
  | digit, c => Text.isDecimalDigit c
  | word, c => Text.isWordChar c
  | blank, c => Text.isBlank c
  | complement inner, c => !inner.holds c
  | union left right, c => left.holds c || right.holds c
  | intersection left right, c => left.holds c && right.holds c
  | caseless inner, c => (Text.caseVariants c).any inner.holds
  | asciiCaseless inner, c => inner.holds c || inner.holds c.toLower || inner.holds c.toUpper

/-- One character. -/
def single (c : Char) : CharSet := span c c

/-- Every character. -/
def all : CharSet := complement empty

/-- The members of the first set that are not in the second. -/
def difference (left right : CharSet) : CharSet := intersection left (complement right)

/-- The members of exactly one of two sets. -/
def symmetricDifference (left right : CharSet) : CharSet :=
  union (difference left right) (difference right left)

/-- The union of several sets. -/
def ofList (sets : List CharSet) : CharSet := sets.foldl union empty

/-- The ASCII word characters. -/
def asciiWord : CharSet :=
  ofList [span 'a' 'z', span 'A' 'Z', span '0' '9', single '_']

/-- The ASCII blanks. -/
def asciiBlank : CharSet := union (span '\t' '\r') (single ' ')

/-- All ASCII characters. -/
def ascii : CharSet := span '\x00' '\x7f'

/-- The ASCII classes that a bracket can name. -/
def named? : String → Option CharSet
  | "alnum" => some (ofList [span '0' '9', span 'A' 'Z', span 'a' 'z'])
  | "alpha" => some (union (span 'A' 'Z') (span 'a' 'z'))
  | "ascii" => some ascii
  | "blank" => some (union (single '\t') (single ' '))
  | "cntrl" => some (union (span '\x00' '\x1f') (single '\x7f'))
  | "digit" => some (span '0' '9')
  | "graph" => some (span '!' '~')
  | "lower" => some (span 'a' 'z')
  | "print" => some (span ' ' '~')
  | "punct" =>
    some (ofList [span '!' '/', span ':' '@', span '[' '\x60', span '\x7b' '~'])
  | "space" => some asciiBlank
  | "upper" => some (span 'A' 'Z')
  | "word" => some asciiWord
  | "xdigit" => some (ofList [span '0' '9', span 'A' 'F', span 'a' 'f'])
  | _ => none

end CharSet

end Ckl.Pattern
