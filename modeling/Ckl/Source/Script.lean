import Ckl.Source.Grammar.Statement
import Ckl.Source.Token.Scan

/-!
# Scripts

`Grammar.read` ties the grammar together: the phrases inside a phrase are read with one less as the
bound, which suffices because every phrase takes a token before it comes to one of these. A script is a
sequence of statements up to the end of the text.
-/

namespace Ckl.Source

namespace Grammar

/-- Reads a phrase; `bound` is at least the number of tokens left. -/
def read : (bound : Nat) → Phrase → Reading Node
  | 0, _ => Reading.fail .unexpectedEnd
  | bound + 1, .statement => statement (read bound) bound
  | bound + 1, .expression => expression (read bound) bound
  | bound + 1, .disjunction => disjunction (read bound) bound
  | bound + 1, .sum => sum (read bound) bound

end Grammar

/-- The statements of a script. -/
def scriptStatements (scan : Scan) : Except Fault (List Node) :=
  let bound := scan.tokens.length + 1
  (Grammar.statements (Grammar.read bound) [] bound).run' ⟨scan.tokens, scan.finish⟩

/-- One statement stands for itself, any other number for a block that holds them. -/
def scriptOfStatements (position : Position) : List Node → Node
  | [statement] => statement
  | statements => .mk position (.block statements [] [])

/-- The place of a script: that of its first token, or else its end. -/
def Scan.position (scan : Scan) : Position := (⟨scan.tokens, scan.finish⟩ : Tokens).position

/-- Reads a script. -/
def readScript (file text : String) : Except Fault Node := do
  let scan ← scan file text
  return scriptOfStatements scan.position (← scriptStatements scan)

end Ckl.Source
