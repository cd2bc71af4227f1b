import Ckl.Source.Keyword
import Ckl.Source.Fault

/-!
# Tokens

The words of a script: names, keywords, literals and symbols, each with the place of its first
character.
-/

namespace Ckl.Source

/-- What a token is. -/
inductive Lexeme where
  | name (word : String)
  | keyword (word : Keyword)
  | boolean (value : Bool)
  /-- A string literal by the text that it stands for. -/
  | string (content : String)
  /-- An integer literal by its digits. -/
  | whole (ds : String)
  /-- A decimal literal as it is written. -/
  | decimal (written : String)
  /-- A pattern literal by the text between its slashes. -/
  | pattern (source : String)
  | symbol (mark : Symbol)
  deriving DecidableEq, Repr

/-- The text of a token; quoted texts without their marks. -/
def Lexeme.text : Lexeme → String
  | .name word => word
  | .keyword word => word.text
  | .boolean value => if value then "TRUE" else "FALSE"
  | .string content => content
  | .whole ds => ds
  | .decimal written => written
  | .pattern source => source
  | .symbol mark => mark.text

/-- A lexeme at its place. -/
structure Token where
  lexeme : Lexeme
  position : Position
  deriving DecidableEq, Repr

end Ckl.Source
