/-!
# Symbols

The operators and the punctuation of scripts. `Symbol.read` decides by the first character which symbols may
stand at the beginning of a text, and takes a further character as long as a longer symbol goes on with it.
-/

namespace Ckl.Source

/-- An operator or a mark of punctuation. -/
inductive Symbol where
  | plus
  | minus
  | star
  | slash
  | percent
  | plusAssign
  | minusAssign
  | starAssign
  | slashAssign
  | percentAssign
  | assign
  | equal
  | notEqual
  | unequal
  | less
  | lessEqual
  | greater
  | greaterEqual
  | fatArrow
  | arrow
  | pipe
  | openSet
  | closeSet
  | openMap
  | closeMap
  | openObject
  | closeObject
  | spread
  | openParen
  | closeParen
  | openBracket
  | closeBracket
  | comma
  | semicolon
  deriving DecidableEq, Repr

namespace Symbol

/-- The characters of a symbol. -/
def chars : Symbol → List Char
  | .plus => ['+']
  | .minus => ['-']
  | .star => ['*']
  | .slash => ['/']
  | .percent => ['%']
  | .plusAssign => ['+', '=']
  | .minusAssign => ['-', '=']
  | .starAssign => ['*', '=']
  | .slashAssign => ['/', '=']
  | .percentAssign => ['%', '=']
  | .assign => ['=']
  | .equal => ['=', '=']
  | .notEqual => ['!', '=']
  | .unequal => ['<', '>']
  | .less => ['<']
  | .lessEqual => ['<', '=']
  | .greater => ['>']
  | .greaterEqual => ['>', '=']
  | .fatArrow => ['=', '>']
  | .arrow => ['-', '>']
  | .pipe => ['!', '>']
  | .openSet => ['<', '<']
  | .closeSet => ['>', '>']
  | .openMap => ['<', '<', '<']
  | .closeMap => ['>', '>', '>']
  | .openObject => ['<', '*']
  | .closeObject => ['*', '>']
  | .spread => ['.', '.', '.']
  | .openParen => ['(']
  | .closeParen => [')']
  | .openBracket => ['[']
  | .closeBracket => [']']
  | .comma => [',']
  | .semicolon => [';']

/-- A symbol as text. -/
def text (symbol : Symbol) : String := String.ofList symbol.chars

/-- Whether the symbol is punctuation; the others are operators. -/
def isPunctuation : Symbol → Bool
  | .openObject | .closeObject | .spread | .openParen | .closeParen | .openBracket | .closeBracket
  | .comma | .semicolon => true
  | _ => false

/-- The symbol at the beginning of a text. -/
def read : List Char → Option Symbol
  | '<' :: rest => some <| match rest with
    | '<' :: '<' :: _ => .openMap
    | '<' :: _ => .openSet
    | '=' :: _ => .lessEqual
    | '>' :: _ => .unequal
    | '*' :: _ => .openObject
    | _ => .less
  | '>' :: rest => some <| match rest with
    | '>' :: '>' :: _ => .closeMap
    | '>' :: _ => .closeSet
    | '=' :: _ => .greaterEqual
    | _ => .greater
  | '=' :: rest => some <| match rest with
    | '=' :: _ => .equal
    | '>' :: _ => .fatArrow
    | _ => .assign
  | '!' :: '=' :: _ => some .notEqual
  | '!' :: '>' :: _ => some .pipe
  | '-' :: rest => some <| match rest with
    | '>' :: _ => .arrow
    | '=' :: _ => .minusAssign
    | _ => .minus
  | '+' :: rest => some <| match rest with
    | '=' :: _ => .plusAssign
    | _ => .plus
  | '*' :: rest => some <| match rest with
    | '=' :: _ => .starAssign
    | '>' :: _ => .closeObject
    | _ => .star
  | '/' :: rest => some <| match rest with
    | '=' :: _ => .slashAssign
    | _ => .slash
  | '%' :: rest => some <| match rest with
    | '=' :: _ => .percentAssign
    | _ => .percent
  | '.' :: '.' :: '.' :: _ => some .spread
  | '(' :: _ => some .openParen
  | ')' :: _ => some .closeParen
  | '[' :: _ => some .openBracket
  | ']' :: _ => some .closeBracket
  | ',' :: _ => some .comma
  | ';' :: _ => some .semicolon
  | _ => none

/-- A symbol that is read stands at the beginning of the text. -/
theorem chars_prefix_of_read {cs : List Char} {symbol : Symbol} (h : read cs = some symbol) :
    symbol.chars <+: cs := by
  unfold read at h
  split at h <;> cases h
  all_goals first
    | exact ⟨_, rfl⟩
    | split <;> exact ⟨_, rfl⟩

theorem chars_ne_nil (symbol : Symbol) : symbol.chars ≠ [] := by
  cases symbol <;> simp [chars]

end Symbol

end Ckl.Source
