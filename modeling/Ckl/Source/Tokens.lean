import Ckl.Source.Token

/-!
# Reading tokens

A text is read token by token. `Tokens` are the tokens that are still to be read, and the place where
the text ends. A reading step looks at the next tokens, takes some of them and gives a result, or fails
with a fault at the next token; where no token is left every failure is that the text ends too soon.
-/

namespace Ckl.Source

/-- What is still to be read. -/
structure Tokens where
  rest : List Token
  /-- The place where the text ends. -/
  finish : Position
  deriving DecidableEq, Repr

namespace Tokens

/-- The lexeme `offset` tokens ahead. -/
def ahead? (tokens : Tokens) (offset : Nat) : Option Lexeme := tokens.rest[offset]?.map (·.lexeme)

/-- The place of the next token. -/
def position (tokens : Tokens) : Position :=
  match tokens.rest with
  | [] => tokens.finish
  | token :: _ => token.position

/-- What is left after `count` tokens. -/
def drop (tokens : Tokens) (count : Nat) : Tokens := { tokens with rest := tokens.rest.drop count }

end Tokens

/-- A step of reading. -/
abbrev Reading := StateT Tokens (Except Fault)

namespace Reading

/-- Fails at a place. -/
def failAt (position : Position) (cause : FaultCause) : Reading α := throw ⟨cause, position⟩

/-- Fails at the next token. -/
def fail (cause : FaultCause) : Reading α := fun tokens =>
  match tokens.rest with
  | [] => .error ⟨.unexpectedEnd, tokens.finish⟩
  | token :: _ => .error ⟨cause, token.position⟩

/-- The lexeme `offset` tokens ahead, which is not taken. -/
def ahead? (offset : Nat) : Reading (Option Lexeme) := return (← get).ahead? offset

/-- Whether the given lexemes come next. -/
def upcoming (lexemes : List Lexeme) : Reading Bool :=
  return lexemes == ((← get).rest.take lexemes.length).map (·.lexeme)

/-- Whether a keyword comes next. -/
def upcomingKeyword (word : Keyword) : Reading Bool := upcoming [.keyword word]

/-- Whether a symbol comes next. -/
def upcomingSymbol (mark : Symbol) : Reading Bool := upcoming [.symbol mark]

/-- Takes the next `count` tokens. -/
def advance (count : Nat) : Reading Unit := modify (·.drop count)

/-- Takes the next token, whatever it is. -/
def next : Reading Token := fun tokens =>
  match tokens.rest with
  | [] => .error ⟨.unexpectedEnd, tokens.finish⟩
  | token :: rest => .ok (token, { tokens with rest })

/-- Takes the given lexeme if it comes next, and tells its place. -/
def take? (lexeme : Lexeme) : Reading (Option Position) := fun tokens =>
  match tokens.rest with
  | [] => .ok (none, tokens)
  | token :: rest =>
    if token.lexeme = lexeme then .ok (some token.position, { tokens with rest })
    else .ok (none, tokens)

/-- Takes a keyword if it comes next. -/
def takeKeyword? (word : Keyword) : Reading (Option Position) := take? (.keyword word)

/-- Takes a symbol if it comes next. -/
def takeSymbol? (mark : Symbol) : Reading (Option Position) := take? (.symbol mark)

/-- Whether a keyword came next; it has been taken then. -/
def tookKeyword (word : Keyword) : Reading Bool := return (← takeKeyword? word).isSome

/-- Whether a symbol came next; it has been taken then. -/
def tookSymbol (mark : Symbol) : Reading Bool := return (← takeSymbol? mark).isSome

/-- Takes the same lexeme as often as it comes next, and tells the places. -/
def takeAll (lexeme : Lexeme) : Reading (List Position) := fun tokens =>
  let same (token : Token) : Bool := token.lexeme == lexeme
  .ok ((tokens.rest.takeWhile same).map (·.position),
    { tokens with rest := tokens.rest.dropWhile same })

/-- Takes the given lexeme, which must come next. -/
def expect (lexeme : Lexeme) (what : Expectation) : Reading Position := fun tokens =>
  match tokens.rest with
  | [] => .error ⟨.unexpectedEnd, tokens.finish⟩
  | token :: rest =>
    if token.lexeme = lexeme then .ok (token.position, { tokens with rest })
    else .error ⟨.expected what, token.position⟩

/-- Takes a keyword, which must come next. -/
def expectKeyword (word : Keyword) (what : Expectation) : Reading Position :=
  expect (.keyword word) what

/-- Takes a symbol, which must come next. -/
def expectSymbol (mark : Symbol) (what : Expectation) : Reading Position :=
  expect (.symbol mark) what

/-- Takes a name, which must come next. -/
def expectName (what : Expectation) : Reading (String × Position) := fun tokens =>
  match tokens.rest with
  | [] => .error ⟨.unexpectedEnd, tokens.finish⟩
  | token :: rest =>
    match token.lexeme with
    | .name word => .ok ((word, token.position), { tokens with rest })
    | _ => .error ⟨.expected what, token.position⟩

/-- Items with commas between them, at least one; `bound` limits their number. -/
def separated (item : Reading α) : (bound : Nat) → Reading (List α)
  | 0 => return [← item]
  | bound + 1 => do
    let first ← item
    if ← tookSymbol .comma then
      return first :: (← separated item bound)
    else
      return [first]

/-- Items with commas between them up to a closing symbol, which is left. A comma may stand before the
closing symbol. -/
def separatedBefore (close : Symbol) (item : Reading α) : (bound : Nat) → Reading (List α)
  | 0 => return [← item]
  | bound + 1 => do
    let first ← item
    if ← tookSymbol .comma then
      if ← upcomingSymbol close then
        return [first]
      else
        return first :: (← separatedBefore close item bound)
    else
      return [first]

end Reading

end Ckl.Source
