import Ckl.Source.Grammar.Operand

/-!
# Operators

Expressions by the binding strength of their operators. From the tightest to the loosest: predicates in
words, the minus sign, products, sums, comparisons and membership, `not`, `and`, `or`.
-/

namespace Ckl.Source.Grammar

open Reading

/-! ## Predicates -/

/-- The words that name a property behind `is`, with the function that decides it. -/
def properties : List (String × String) :=
  [("empty", "is_empty"), ("zero", "is_zero"), ("negative", "is_negative"),
    ("numerical", "is_numerical"), ("alphanumerical", "is_alphanumerical"), ("date", "is_date"),
    ("time", "is_time")]

/-- The words for the options of a property of texts. -/
def lengthOptions : List String := ["min_len", "max_len", "exact_len"]

/-- The options of a property of texts: words with an operand behind each. -/
def options (recur : Recur) (limit : Nat) : (bound : Nat) → Reading (List (Argument Node))
  | 0 => return []
  | bound + 1 => do
    match ← ahead? 0 with
    | some (.name name) =>
      if name ∈ lengthOptions then
        advance 1
        let value ← suffixed recur limit
        return ⟨some name, value⟩ :: (← options recur limit bound)
      else
        return []
    | _ => return []

/-- The arguments that a property takes besides its subject. -/
def propertyArguments (recur : Recur) (bound : Nat) (word : String) :
    Reading (List (Argument Node)) := do
  if word = "date" then
    if ← upcoming [.name "with", .name "hour"] then
      advance 1
      let ⟨_, place⟩ ← next
      return [⟨some "with_hour", .mk place (.literal (.boolean true))⟩]
    else
      return []
  else if word = "numerical" ∨ word = "alphanumerical" then options recur bound bound
  else return []

/-- A property behind `is` or `is not`, if a word for one comes next. -/
def property? (recur : Recur) (bound : Nat) (subject : Node) : Reading (Option Node) := do
  let negated ← upcoming [.keyword .is, .keyword .not]
  let offset := if negated then 2 else 1
  match ← ahead? offset with
  | some (.name word) =>
    match properties.lookup word with
    | some function =>
      advance (offset + 1)
      let position := subject.position
      let more ← propertyArguments recur bound word
      let callee := Node.mk position (.name function)
      return some <| .negatedIf negated position <|
        .mk position (.call callee (⟨none, subject⟩ :: more))
    | none => return none
  | _ => return none

/-- The relation between texts or collections that words name: its function, and how many words. -/
def relation? (first second : Option Lexeme) : Option (String × Nat) :=
  match first with
  | some (.name "starts") => if second = some (.name "with") then some ("starts_with", 2) else none
  | some (.name "ends") => if second = some (.name "with") then some ("ends_with", 2) else none
  | some (.name "contains") => some ("contains", 1)
  | some (.name "matches") => some ("matches", 1)
  | _ => none

/-- An operand with a predicate in words behind it, if there is one. -/
def predicate (recur : Recur) (bound : Nat) : Reading Node := do
  let subject ← suffixed recur bound
  if ← upcomingKeyword .is then
    return (← property? recur bound subject).getD subject
  else
    let negated ← upcomingKeyword .not
    let offset := if negated then 1 else 0
    match relation? (← ahead? offset) (← ahead? (offset + 1)) with
    | some (function, words) =>
      advance (offset + words)
      let position := subject.position
      let argument ← recur .sum
      return .negatedIf negated position (.callOf function position [subject, argument])
    | none => return subject

/-! ## Arithmetic -/

/-- A predicate behind any number of minus signs. -/
def signed (recur : Recur) (bound : Nat) : Reading Node := do
  let signs ← takeAll (.symbol .minus)
  return signs.foldr Node.opposite (← predicate recur bound)

/-- Operands of one binding strength with operators between them, grouped to the left. -/
def chain (functions : List (Symbol × String)) (operand : Reading Node) :
    (bound : Nat) → Node → Reading Node
  | 0, left => return left
  | bound + 1, left => do
    match ← ahead? 0 with
    | some (.symbol mark) =>
      match functions.lookup mark with
      | some function =>
        let ⟨_, position⟩ ← next
        chain functions operand bound (.callOf function position [left, ← operand])
      | none => return left
    | _ => return left

/-- The operators of products. -/
def productFunctions : List (Symbol × String) := [(.star, "mul"), (.slash, "div"), (.percent, "mod")]

/-- The operators of sums. -/
def sumFunctions : List (Symbol × String) := [(.plus, "add"), (.minus, "sub")]

/-- A product. -/
def product (recur : Recur) (bound : Nat) : Reading Node := do
  chain productFunctions (signed recur bound) bound (← signed recur bound)

/-- A sum. -/
def sum (recur : Recur) (bound : Nat) : Reading Node := do
  chain sumFunctions (product recur bound) bound (← product recur bound)

/-! ## Comparisons -/

/-- The operators of comparisons. -/
def comparisonFunctions : List (Symbol × String) :=
  [(.equal, "equals"), (.notEqual, "not_equals"), (.unequal, "not_equals"), (.less, "less"),
    (.lessEqual, "less_equals"), (.greater, "greater"), (.greaterEqual, "greater_equals")]

/-- The operator of a comparison, if one comes next: its function and its place. -/
def comparison? : Reading (Option (String × Position)) := do
  match ← ahead? 0 with
  | some (.keyword .is) =>
    let ⟨_, position⟩ ← next
    match ← takeKeyword? .not with
    | some position => return some ("not_equals", position)
    | none => return some ("equals", position)
  | some (.symbol mark) =>
    match comparisonFunctions.lookup mark with
    | some function =>
      let ⟨_, position⟩ ← next
      return some (function, position)
    | none => return none
  | _ => return none

/-- The links of a chain of comparisons behind its first operand. -/
def links (operand : Reading Node) : (bound : Nat) → Reading (List Link)
  | 0 => return []
  | bound + 1 => do
    match ← comparison? with
    | some (function, position) =>
      let right ← operand
      return ⟨function, position, right⟩ :: (← links operand bound)
    | none => return []

/-- A sum, a test of membership, or a chain of comparisons. -/
def comparison (recur : Recur) (bound : Nat) : Reading Node := do
  let left ← sum recur bound
  let position := left.position
  if ← tookKeyword .in then
    return .mk position (.contained left (← sum recur bound))
  else if ← upcoming [.keyword .not, .keyword .in] then
    advance 2
    return .mk position (.not (.mk position (.contained left (← sum recur bound))))
  else
    return Link.chain left (← links (sum recur bound) bound)

/-! ## Logic -/

/-- A comparison behind any number of `not`. -/
def negation (recur : Recur) (bound : Nat) : Reading Node := do
  let places ← takeAll (.keyword .not)
  return places.foldr (fun position operand => .mk position (.not operand))
    (← comparison recur bound)

/-- Operands with a keyword between them, grouped to the left. -/
def joined (word : Keyword) (form : Node → Node → Form) (operand : Reading Node) :
    (bound : Nat) → Node → Reading Node
  | 0, left => return left
  | bound + 1, left => do
    if ← tookKeyword word then
      joined word form operand bound (.mk left.position (form left (← operand)))
    else
      return left

/-- Operands of `and`. -/
def conjunction (recur : Recur) (bound : Nat) : Reading Node := do
  joined .and .and (negation recur bound) bound (← negation recur bound)

/-- Operands of `or`. -/
def disjunction (recur : Recur) (bound : Nat) : Reading Node := do
  joined .or .or (conjunction recur bound) bound (← conjunction recur bound)

/-- An `if`, or an expression of operators. -/
def expression (recur : Recur) (bound : Nat) : Reading Node := do
  match ← takeKeyword? .if with
  | some position => choice recur bound position
  | none => disjunction recur bound

end Ckl.Source.Grammar
