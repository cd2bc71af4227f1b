/-!
# Positions

Where a character stands: a file, a line and a column, both counted from 1. Lines end at line feeds;
every other character takes one column.
-/

namespace Ckl.Source

/-- The place of a character. -/
structure Position where
  file : String
  line : Nat
  column : Nat
  deriving DecidableEq, Repr, Inhabited

namespace Position

/-- The place of a file's first character. -/
def start (file : String) : Position := ⟨file, 1, 1⟩

/-- The place after a character. -/
def after (position : Position) (c : Char) : Position :=
  if c = '\n' then { position with line := position.line + 1, column := 1 }
  else { position with column := position.column + 1 }

/-- The place after some text. -/
def afterAll (position : Position) (cs : List Char) : Position := cs.foldl after position

/-- File, line and column with colons between them. -/
def text (position : Position) : String :=
  position.file ++ ":" ++ toString position.line ++ ":" ++ toString position.column

end Position

end Ckl.Source
