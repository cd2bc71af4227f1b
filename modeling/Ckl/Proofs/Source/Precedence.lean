import Ckl.Proofs.Source.RoundTrip

/-!
# How operators bind

Expressions of operators are written with parentheses only where the binding strengths of the operators ask
for them. `Infix` are the trees of such expressions, `Infix.lexemes` the tokens that they are written with,
and `Infix.node` the syntax trees that they stand for. `readScript_operators` says that the written text is read
as this tree, and that a chain of comparisons is read as the conjunction of its links.

The strengths, from the loosest to the tightest: `or` 0, `and` 1, `not` 2, comparisons 3, sums 4, products
5; names and numbers have 6. Every strength has a step of the grammar, `phraseAt`.
-/

namespace Ckl.Source

open Reading Grammar

/-! ## Operators -/

/-- An operator between two operands. -/
inductive Operator where
  | or
  | and
  | equal
  | notEqual
  | unequal
  | less
  | lessEqual
  | greater
  | greaterEqual
  | plus
  | minus
  | times
  | divided
  | remainder
  deriving DecidableEq, Repr

namespace Operator

/-- How strongly an operator binds. -/
def strength : Operator → Nat
  | .or => 0
  | .and => 1
  | .equal | .notEqual | .unequal | .less | .lessEqual | .greater | .greaterEqual => 3
  | .plus | .minus => 4
  | .times | .divided | .remainder => 5

/-- The strength that the left operand must have without parentheses. Operators group to the left, except
comparisons, which do not group at all. -/
def leftStrength (operator : Operator) : Nat :=
  if operator.strength = 3 then 4 else operator.strength

/-- The strength that the right operand must have without parentheses. -/
def rightStrength (operator : Operator) : Nat := operator.strength + 1

/-- The token of an operator. -/
def lexeme : Operator → Lexeme
  | .or => .keyword .or
  | .and => .keyword .and
  | .equal => .symbol .equal
  | .notEqual => .symbol .notEqual
  | .unequal => .symbol .unequal
  | .less => .symbol .less
  | .lessEqual => .symbol .lessEqual
  | .greater => .symbol .greater
  | .greaterEqual => .symbol .greaterEqual
  | .plus => .symbol .plus
  | .minus => .symbol .minus
  | .times => .symbol .star
  | .divided => .symbol .slash
  | .remainder => .symbol .percent

/-- What an operator makes of its operands: `or` and `and` have forms of their own, all others are calls of
the functions that compute them. -/
def applied (position : Position) (left right : Node) : Operator → Node
  | .or => .mk left.position (.or left right)
  | .and => .mk left.position (.and left right)
  | .equal => .callOf "equals" position [left, right]
  | .notEqual => .callOf "not_equals" position [left, right]
  | .unequal => .callOf "not_equals" position [left, right]
  | .less => .callOf "less" position [left, right]
  | .lessEqual => .callOf "less_equals" position [left, right]
  | .greater => .callOf "greater" position [left, right]
  | .greaterEqual => .callOf "greater_equals" position [left, right]
  | .plus => .callOf "add" position [left, right]
  | .minus => .callOf "sub" position [left, right]
  | .times => .callOf "mul" position [left, right]
  | .divided => .callOf "div" position [left, right]
  | .remainder => .callOf "mod" position [left, right]

/-- An operator applied to like operands gives like nodes, wherever they stand. -/
theorem applied_same (operator : Operator) (position place : Position) {left right left' right' : Node}
    (hleft : left.Same left') (hright : right.Same right') :
    (operator.applied position left right).Same (operator.applied place left' right') := by
  have hcall (function : String) : (Node.callOf function position [left, right]).Same
      (Node.callOf function place [left', right']) :=
    congrArg₂ (fun left right => Node.mk default (.call (.mk default (.name function))
      [⟨none, left⟩, ⟨none, right⟩])) hleft hright
  cases operator with
  | or => exact congrArg₂ (fun left right => Node.mk default (.or left right)) hleft hright
  | and => exact congrArg₂ (fun left right => Node.mk default (.and left right)) hleft hright
  | _ => exact hcall _

end Operator

/-! ## Trees -/

/-- An expression of operators over names and numbers. -/
inductive Infix where
  | name (word : String)
  | whole (value : Nat)
  | not (operand : Infix)
  | binary (operator : Operator) (left right : Infix)
  deriving Repr

/-- Lexemes in parentheses. -/
def parenthesized (lexemes : List Lexeme) : List Lexeme :=
  .symbol .openParen :: (lexemes ++ [.symbol .closeParen])

namespace Infix

/-- How strongly the outermost operator of an expression binds. -/
def strength : Infix → Nat
  | .name _ | .whole _ => 6
  | .not _ => 2
  | .binary operator _ _ => operator.strength

/-- The tokens of an expression, with parentheses around the operands that bind too loosely. -/
def lexemes : Infix → List Lexeme
  | .name word => [.name word]
  | .whole value => [.whole (String.ofList (Number.digitsOf value))]
  | .not operand =>
    .keyword .not ::
      if operand.strength < 2 then parenthesized operand.lexemes else operand.lexemes
  | .binary operator left right =>
    (if left.strength < operator.leftStrength then parenthesized left.lexemes else left.lexemes) ++
      operator.lexeme ::
        if right.strength < operator.rightStrength then parenthesized right.lexemes else right.lexemes

/-- The tokens of an expression where one is asked for that binds at least as strongly as given. -/
def lexemesAt (least : Nat) (tree : Infix) : List Lexeme :=
  if tree.strength < least then parenthesized tree.lexemes else tree.lexemes

/-- The syntax tree that an expression stands for, up to places. -/
def node : Infix → Node
  | .name word => .mk default (.name word)
  | .whole value => .mk default (.literal (.int (.ofNat value)))
  | .not operand => .mk default (.not operand.node)
  | .binary operator left right => operator.applied default left.node right.node

/-- The names are names, and 64 bits hold the numbers. -/
def Proper : Infix → Prop
  | .name word => isName word = true
  | .whole value => value < 2 ^ 63
  | .not operand => operand.Proper
  | .binary _ left right => left.Proper ∧ right.Proper

end Infix

/-- A text of tokens with blanks between them. -/
def spaced (lexemes : List Lexeme) : String :=
  String.ofList ([' '].intercalate (lexemes.map (·.text.toList)))

/-! ## Chains of comparisons -/

/-- The tokens of the links behind the first operand of a chain. -/
def linkLexemes (links : List (Operator × Infix)) : List Lexeme :=
  links.flatMap fun link => link.1.lexeme :: link.2.lexemesAt 4

/-- The comparisons that the links of a chain stand for: the right operand of each is the left operand of the
next. -/
def pairwise (left : Infix) : List (Operator × Infix) → List Node
  | [] => []
  | (operator, right) :: links =>
    operator.applied default left.node right.node :: pairwise right links

/-- What a chain of comparisons stands for: their conjunction, which groups to the left. -/
def chainNode (first : Infix) (links : List (Operator × Infix)) : Node :=
  match pairwise first links with
  | [] => first.node
  | comparison :: more =>
    more.foldl (fun left right => .mk default (.and left right)) comparison

/-! ## Scanning -/

/-- A lexeme whose text is read as this lexeme when a blank follows it. -/
def Lexeme.Clean (lexeme : Lexeme) : Prop :=
  ∀ rest : List Char, (∀ c ∈ rest.head?, c = ' ') → Begins (lexeme.text.toList ++ rest) lexeme rest

/-- A blank, or the end of the text, divides tokens. -/
theorem divides_of_blank {rest : List Char} (h : ∀ c ∈ rest.head?, c = ' ') : Divides rest := by
  intro c hc
  rw [h c hc]
  decide

/-- Every kind of token in these texts is read for itself where a blank follows; symbols, -/
theorem clean_symbol (mark : Symbol) : (Lexeme.symbol mark).Clean := by
  intro rest hrest
  have hmark : ' ' ∉ mark.continuations := by cases mark <;> decide
  have hslash : mark.chars ≠ ['/', '/'] ∧ ' ' ≠ '/' := ⟨by cases mark <;> decide, by decide⟩
  show Begins ((String.ofList mark.chars).toList ++ rest) _ _
  rw [String.toList_ofList]
  refine begins_mark (fun c hc => hrest c hc ▸ hmark) fun more heq => ?_
  cases mark <;> cases rest <;> simp_all [Symbol.chars]

/-- keywords, -/
theorem clean_keyword (word : Keyword) : (Lexeme.keyword word).Clean :=
  fun _ hrest => begins_keyword word (divides_of_blank hrest)

/-- names, -/
theorem clean_name {word : String} (h : isName word = true) : (Lexeme.name word).Clean :=
  fun _ hrest => begins_name h (divides_of_blank hrest)

/-- whole numbers, -/
theorem clean_whole (value : Nat) :
    (Lexeme.whole (String.ofList (Number.digitsOf value))).Clean := by
  intro rest hrest
  show Begins ((String.ofList _).toList ++ rest) _ _
  rw [String.toList_ofList]
  exact begins_whole (Number.digitsOf_ne_nil value) (fun c hc => Number.isDigit_of_mem_digitsOf hc)
    (divides_of_blank hrest)

/-- and operators, which are symbols or words. -/
theorem clean_operator (operator : Operator) : operator.lexeme.Clean := by
  cases operator with
  | or | and => exact clean_keyword _
  | _ => exact clean_symbol _

/-- So tokens with blanks between them are read one by one. -/
theorem scans_spaced {lexemes : List Lexeme} (h : ∀ lexeme ∈ lexemes, lexeme.Clean) :
    Scans ([' '].intercalate (lexemes.map (·.text.toList))) lexemes := by
  induction lexemes with
  | nil => exact scans_nil
  | cons first more ih =>
    have hfirst := h first List.mem_cons_self
    have hmore := ih fun lexeme hl => h lexeme (List.mem_cons_of_mem first hl)
    cases more with
    | nil =>
      have hbegins := hfirst [] nofun
      rw [List.append_nil] at hbegins
      simpa [List.intercalate] using hbegins.scans scans_nil
    | cons second more =>
      have hbegins := hfirst (' ' :: [' '].intercalate ((second :: more).map (·.text.toList)))
        fun c hc => (Option.some.inj hc).symm
      have hscans := hbegins.scans hmore.blank
      simpa [List.intercalate] using hscans

/-- Parentheses are symbols too. -/
theorem parenthesized_clean {lexemes : List Lexeme} (h : ∀ lexeme ∈ lexemes, lexeme.Clean) :
    ∀ lexeme ∈ parenthesized lexemes, lexeme.Clean := by
  intro lexeme hl
  simp only [parenthesized, List.mem_cons, List.mem_append, List.not_mem_nil, or_false] at hl
  rcases hl with rfl | hl | rfl
  · exact clean_symbol _
  · exact h lexeme hl
  · exact clean_symbol _

namespace Infix

/-- A tree in a looser place has its own tokens, perhaps in parentheses. -/
theorem lexemesAt_clean {tree : Infix} (h : ∀ lexeme ∈ tree.lexemes, lexeme.Clean) (least : Nat) :
    ∀ lexeme ∈ tree.lexemesAt least, lexeme.Clean := by
  unfold lexemesAt
  split
  · exact parenthesized_clean h
  · exact h

/-- All tokens of proper trees are of these kinds. -/
theorem Proper.clean {tree : Infix} (h : tree.Proper) : ∀ lexeme ∈ tree.lexemes, lexeme.Clean := by
  induction tree with
  | name word =>
    intro lexeme hl
    rw [List.mem_singleton.mp hl]
    exact clean_name h
  | whole value =>
    intro lexeme hl
    rw [List.mem_singleton.mp hl]
    exact clean_whole value
  | not operand ih =>
    intro lexeme hl
    rcases List.mem_cons.mp hl with rfl | hl
    · exact clean_keyword .not
    · exact lexemesAt_clean (ih h) 2 lexeme hl
  | binary operator left right ihleft ihright =>
    intro lexeme hl
    rcases List.mem_append.mp hl with hl | hl
    · exact lexemesAt_clean (ihleft h.1) _ lexeme hl
    · rcases List.mem_cons.mp hl with rfl | hl
      · exact clean_operator operator
      · exact lexemesAt_clean (ihright h.2) _ lexeme hl

end Infix

/-! ## What stands behind an operand -/

/-- The end of an expression, or an operator that binds less than given. -/
def Ends (strength : Nat) (next : Option Lexeme) : Prop :=
  next = none ∨ next = some (.symbol .closeParen) ∨
    ∃ operator : Operator, operator.strength < strength ∧ next = some operator.lexeme

/-- What ends a tight phrase ends looser ones only if it is loose itself. -/
theorem Ends.mono {least most : Nat} {next : Option Lexeme} (h : Ends least next)
    (hle : least ≤ most) : Ends most next := by
  rcases h with h | h | ⟨operator, hstrength, h⟩
  · exact .inl h
  · exact .inr (.inl h)
  · exact .inr (.inr ⟨operator, by omega, h⟩)

/-- The cases of what can stand behind an operand. -/
@[elab_as_elim]
theorem Ends.elim {strength : Nat} {rest : List Token} {motive : List Token → Prop}
    (h : Ends strength (upNext rest)) (nil : motive [])
    (close : ∀ position behind, motive (⟨.symbol .closeParen, position⟩ :: behind))
    (operator : ∀ (operator : Operator) position behind, operator.strength < strength →
      motive (⟨operator.lexeme, position⟩ :: behind)) : motive rest := by
  match rest with
  | [] => exact nil
  | ⟨lexeme, position⟩ :: behind =>
    rcases h with h | h | ⟨found, hstrength, h⟩
    · cases h
    · cases h
      exact close position behind
    · cases h
      exact operator found position behind hstrength

/-! ## The steps of the grammar by strength -/

section Steps

variable (recur : Recur) (bound : Nat)

/-- The step that reads expressions of a strength. -/
def phraseAt : (strength : Nat) → Reading Node
  | 0 => disjunction recur bound
  | 1 => conjunction recur bound
  | 2 => negation recur bound
  | 3 => comparison recur bound
  | 4 => sum recur bound
  | 5 => product recur bound
  | _ => signed recur bound

/-- The strengths whose operators group to the left. -/
def GroupsLeft (strength : Nat) : Prop :=
  strength = 0 ∨ strength = 1 ∨ strength = 4 ∨ strength = 5

/-- The loop that reads more operands of a strength that groups to the left. -/
def moreAt : (strength : Nat) → (left : Nat) → Node → Reading Node
  | 0 => joined .or .or (conjunction recur bound)
  | 1 => joined .and .and (negation recur bound)
  | 4 => chain sumFunctions (product recur bound)
  | _ => chain productFunctions (signed recur bound)

variable {recur bound}

/-- Each level that groups to the left reads a phrase of the next level and then more. -/
theorem phraseAt_eq_bind {strength : Nat} (h : GroupsLeft strength) :
    phraseAt recur bound strength =
      phraseAt recur bound (strength + 1) >>= moreAt recur bound strength bound := by
  rcases h with rfl | rfl | rfl | rfl <;> rfl

/-- An operator of the level goes on with what has been read as its left operand. -/
theorem moreAt_operator {operator : Operator} (h : GroupsLeft operator.strength) (left : Nat)
    (node : Node) (position : Position) (tokens : List Token) (finish : Position) :
    moreAt recur bound operator.strength (left + 1) node
        ⟨⟨operator.lexeme, position⟩ :: tokens, finish⟩ =
      (phraseAt recur bound (operator.strength + 1) >>= fun right =>
        moreAt recur bound operator.strength left (operator.applied position node right))
        ⟨tokens, finish⟩ := by
  cases operator with
  | or | and | plus | minus | times | divided | remainder => rfl
  | _ => rcases h with h | h | h | h <;> cases h

/-- Where no operator of the level comes up, what has been read is all. -/
theorem reads_moreAt_none {strength : Nat} (h : GroupsLeft strength) (left : Nat) (node : Node) :
    Reads (moreAt recur bound strength left node) [] (Ends strength) (· = node) := by
  refine reads_nothing fun rest finish hrest => hrest.elim ?_ (fun position behind => ?_)
    fun operator position behind hstrength => ?_
  · rcases h with rfl | rfl | rfl | rfl <;> cases left <;> rfl
  · rcases h with rfl | rfl | rfl | rfl <;> cases left <;> rfl
  · rcases h with rfl | rfl | rfl | rfl <;> cases left <;> cases operator <;>
      first | rfl | exact absurd hstrength (by decide)

/-! ## Operands -/

/-- An operator is no suffix. -/
theorem reads_suffixes_ends (target : Node) (left : Nat) :
    Reads (suffixes recur bound left target) [] (Ends 6) (· = target) := by
  refine reads_nothing fun rest finish hrest => ?_
  cases left with
  | zero => rfl
  | succ left =>
    refine hrest.elim rfl (fun position behind => rfl) fun operator position behind _ => ?_
    cases operator <;> rfl

variable {lexemes more : List Lexeme} {result result' : Node → Prop}

/-- An operand without anything behind it but operators. -/
theorem Reads.inSignedEnds (h : Reads (operand recur bound) lexemes Anything result)
    (hstarts : Starts lexemes) (hminus : lexemes.head? ≠ some (.symbol .minus)) :
    Reads (signed recur bound) lexemes (Ends 6) result := by
  have hsuffixed : Reads (suffixed recur bound) lexemes (Ends 6) result :=
    (h.imp (fun _ _ => trivial) fun _ hnode => hnode).finish fun node hnode =>
      (reads_suffixes_ends node bound).giving fun _ heq => heq ▸ hnode
  have hpredicate : Reads (predicate recur bound) lexemes (Ends 6) result := by
    refine hsuffixed.finish fun node hnode => ?_
    refine (reads_nothing (a := node) fun rest finish hrest => ?_).giving fun _ heq => heq ▸ hnode
    refine hrest.elim rfl (fun position behind => rfl) fun operator position behind _ => ?_
    cases operator <;> rfl
  exact hpredicate.inSigned hstarts hminus

/-! ## Operators that group to the left -/

/-- The tokens are the first operands of a strength: more can follow. `left` is what is left of the bound. -/
def Heads (recur : Recur) (bound strength : Nat) (lexemes : List Lexeme) (result : Node → Prop) : Prop :=
  ∀ tokens rest finish, tokens.map Token.lexeme = lexemes → Ends (strength + 1) (upNext rest) →
    ∃ node left, bound < left + lexemes.length ∧
      phraseAt recur bound strength ⟨tokens ++ rest, finish⟩ =
        moreAt recur bound strength left node ⟨rest, finish⟩ ∧ result node

/-- A phrase of the next level is the head of one. -/
theorem Reads.heads {strength : Nat} (hleft : GroupsLeft strength) (hpos : 0 < lexemes.length)
    (h : Reads (phraseAt recur bound (strength + 1)) lexemes (Ends (strength + 1)) result) :
    Heads recur bound strength lexemes result := by
  intro tokens rest finish htokens hrest
  obtain ⟨node, hread, hnode⟩ := h tokens rest finish htokens hrest
  refine ⟨node, bound, by omega, ?_, hnode⟩
  rw [phraseAt_eq_bind hleft]
  exact bind_ok hread

/-- A head, an operator and a phrase of the next level are a longer head. -/
theorem Heads.addOperator {operator : Operator} (hleft : GroupsLeft operator.strength)
    (h : Heads recur bound operator.strength lexemes result)
    (h' : Reads (phraseAt recur bound (operator.strength + 1)) more (Ends (operator.strength + 1))
      result')
    (hbound : (lexemes ++ operator.lexeme :: more).length ≤ bound) :
    Heads recur bound operator.strength (lexemes ++ operator.lexeme :: more) fun node =>
      ∃ position left right, node = operator.applied position left right ∧ result left ∧
        result' right := by
  intro tokens rest finish htokens hrest
  obtain ⟨front, back, rfl, hfront, hback⟩ := List.map_eq_append_iff.mp htokens
  obtain ⟨⟨_, position⟩, back, rfl, rfl, hmore⟩ := List.map_eq_cons_iff.mp hback
  obtain ⟨node, left, hleft', hread, hnode⟩ := h front (⟨operator.lexeme, position⟩ :: back ++ rest)
    finish hfront (.inr (.inr ⟨operator, Nat.lt_succ_self _, rfl⟩))
  obtain ⟨right, hread', hright⟩ := h' back rest finish hmore hrest
  rw [List.length_append, List.length_cons] at hbound ⊢
  obtain ⟨left, rfl⟩ : ∃ fewer, left = fewer + 1 := ⟨left - 1, by omega⟩
  refine ⟨_, left, by omega, ?_, position, node, right, rfl, hnode, hright⟩
  rw [List.append_assoc, hread, List.cons_append, moreAt_operator hleft]
  exact bind_ok hread'

/-- A head is all of the phrase if nothing goes on with it. -/
theorem Heads.reads {strength : Nat} (hleft : GroupsLeft strength)
    (h : Heads recur bound strength lexemes result) :
    Reads (phraseAt recur bound strength) lexemes (Ends strength) result := by
  intro tokens rest finish htokens hrest
  obtain ⟨node, left, _, hread, hnode⟩ := h tokens rest finish htokens (hrest.mono (by omega))
  obtain ⟨_, hstop, rfl⟩ := reads_moreAt_none hleft left node [] rest finish rfl hrest
  exact ⟨_, hread.trans hstop, hnode⟩

/-! ## Comparisons -/

/-- What is read of an operator of a comparison. -/
def Operator.Found (operator : Operator) (found : Option (String × Position)) : Prop :=
  ∃ function position, found = some (function, position) ∧
    ∀ left right, Node.callOf function position [left, right] = operator.applied position left right

/-- The operators of comparisons are taken for what they are. -/
theorem reads_comparison? {operator : Operator} (h : operator.strength = 3) :
    Reads comparison? [operator.lexeme] Anything operator.Found := by
  refine reads_one _ fun position rest finish _ => ?_
  cases operator with
  | equal | notEqual | unequal | less | lessEqual | greater | greaterEqual =>
    exact ⟨_, rfl, _, position, rfl, fun left right => rfl⟩
  | _ => cases h

theorem reads_comparison?_ends : Reads comparison? [] (Ends 3) (· = none) := by
  refine reads_nothing fun rest finish hrest => hrest.elim rfl (fun position behind => rfl)
    fun operator position behind hstrength => ?_
  cases operator <;> first | rfl | exact absurd hstrength (by decide)

/-- A link as it is read: the comparison with any left operand, and the right operand. -/
def LinkRead (link : Operator × Infix) (found : Link) : Prop :=
  (∀ left right, Node.callOf found.function found.position [left, right] =
    link.1.applied found.position left right) ∧ link.2.node.Same found.right

/-- The links of a chain are read one by one. -/
theorem reads_links {links : List (Operator × Infix)} {count : Nat} (hcount : links.length ≤ count)
    (hstrength : ∀ link ∈ links, link.1.strength = 3)
    (hsum : ∀ link ∈ links, Reads (sum recur bound) (link.2.lexemesAt 4) (Ends 4) link.2.node.Same) :
    Reads (Grammar.links (sum recur bound) count) (linkLexemes links) (Ends 3)
      (List.Forall₂ LinkRead links) := by
  induction links generalizing count with
  | nil =>
    cases count with
    | zero => exact .pure .nil
    | succ count => exact reads_comparison?_ends.peek (.pure .nil) fun _ hn => hn
  | cons link links ih =>
    obtain ⟨count, rfl⟩ : ∃ fewer, count = fewer + 1 := ⟨count - 1, by simp at hcount; omega⟩
    have hfirst := hstrength link List.mem_cons_self
    have hmore := ih (Nat.le_of_succ_le_succ hcount)
      (fun link hl => hstrength link (List.mem_cons_of_mem _ hl))
      fun link hl => hsum link (List.mem_cons_of_mem _ hl)
    refine (reads_comparison? hfirst).take fun found hfound => ?_
    obtain ⟨function, position, rfl, happlied⟩ := hfound
    refine (hsum link List.mem_cons_self).bind (fun right hright => ?_) fun next hnext => ?_
    · exact hmore.finish fun found hfound => .pure (.cons ⟨happlied, hright⟩ hfound)
    · cases links with
      | nil => exact hnext.mono (by omega)
      | cons second links =>
        refine .inr (.inr ⟨second.1, ?_, rfl⟩)
        rw [hstrength second (List.mem_cons_of_mem _ List.mem_cons_self)]
        decide

/-- What is read of a chain are the comparisons of neighbours, -/
theorem pairwise_same {links : List (Operator × Infix)} {found : List Link} {first : Infix} {node : Node}
    (hfirst : first.node.Same node) (h : List.Forall₂ LinkRead links found) :
    List.Forall₂ Node.Same (pairwise first links) (Link.calls node found) := by
  induction h generalizing first node with
  | nil => exact .nil
  | @cons link found links rest hlink _ ih =>
    obtain ⟨happlied, hright⟩ := hlink
    refine .cons ?_ (ih hright)
    rw [happlied]
    exact Operator.applied_same link.1 default found.position hfirst hright

/-- joined by `and` from the left, -/
theorem conjunction_same {nodes found : List Node} {first node : Node} (hfirst : first.Same node)
    (h : List.Forall₂ Node.Same nodes found) :
    (nodes.foldl (fun left right => .mk default (.and left right)) first).Same
      (node.conjunction found) := by
  induction h generalizing first node with
  | nil => exact hfirst
  | cons hright _ ih =>
    exact ih (congrArg₂ (fun left right => Node.mk default (.and left right)) hfirst hright)

/-- which is what the tree of a chain stands for. -/
theorem chainNode_same {links : List (Operator × Infix)} {found : List Link} {first : Infix} {node : Node}
    (hfirst : first.node.Same node) (h : List.Forall₂ LinkRead links found) :
    (chainNode first links).Same (Link.chain node found) := by
  have hcalls := pairwise_same hfirst h
  unfold chainNode Link.chain
  generalize pairwise first links = comparisons at hcalls
  generalize Link.calls node found = calls at hcalls
  cases hcalls with
  | nil => exact hfirst
  | cons hcall hmore => exact conjunction_same hcall hmore

/-- A sum with comparisons behind it, or with none. -/
theorem reads_chain {links : List (Operator × Infix)} (hcount : links.length ≤ bound)
    (hstrength : ∀ link ∈ links, link.1.strength = 3)
    (hfirst : Reads (sum recur bound) lexemes (Ends 4) result)
    (hsum : ∀ link ∈ links, Reads (sum recur bound) (link.2.lexemesAt 4) (Ends 4) link.2.node.Same) :
    Reads (comparison recur bound) (lexemes ++ linkLexemes links) (Ends 3) fun node =>
      ∃ first found, node = Link.chain first found ∧ result first ∧
        List.Forall₂ LinkRead links found := by
  have hbehind (next : Option Lexeme) (hnext : Ends 3 next) :
      Ends 4 ((linkLexemes links).head?.or next) := by
    cases links with
    | nil => exact hnext.mono (by omega)
    | cons link links =>
      refine .inr (.inr ⟨link.1, ?_, rfl⟩)
      rw [hstrength link List.mem_cons_self]
      decide
  -- no operator is `in` or `not`, which are looked for before the comparisons
  have hother {word : Keyword} (hword : ∀ operator : Operator, operator.lexeme ≠ .keyword word)
      (next : Option Lexeme) (hnext : Ends 3 next) :
      (linkLexemes links).head?.or next ≠ some (.keyword word) := by
    intro heq
    rcases heq ▸ hbehind next hnext with h | h | ⟨operator, _, h⟩
    · cases h
    · cases h
    · exact hword operator (Option.some.inj h).symm
  refine hfirst.bind (fun first hnode => ?_) hbehind
  refine (reads_tookKeyword_none .in).peek ?_ (hother fun operator => by cases operator <;> exact nofun)
  refine (reads_upcoming_none _ _).peek ?_ (hother fun operator => by cases operator <;> exact nofun)
  exact (reads_links hcount hstrength hsum).finish fun found hfound =>
    .pure ⟨first, found, rfl, hnode, hfound⟩

/-! ## From tighter to looser strengths -/

/-- Tokens that are read by the step of a strength; where operators group to the left, more of them can
follow. -/
structure ReadsAt (recur : Recur) (bound strength : Nat) (lexemes : List Lexeme) (result : Node → Prop) :
    Prop where
  reads : Reads (phraseAt recur bound strength) lexemes (Ends strength) result
  heads : GroupsLeft strength → Heads recur bound strength lexemes result

/-- A head is a phrase of its level. -/
theorem Heads.readsAt {strength : Nat} (hleft : GroupsLeft strength)
    (h : Heads recur bound strength lexemes result) : ReadsAt recur bound strength lexemes result :=
  ⟨h.reads hleft, fun _ => h⟩

/-- What is known of the node may be weakened. -/
theorem ReadsAt.imp {strength : Nat} (h : ReadsAt recur bound strength lexemes result)
    (hresult : ∀ node, result node → result' node) : ReadsAt recur bound strength lexemes result' := by
  refine ⟨h.reads.giving hresult, fun hleft tokens rest finish htokens hrest => ?_⟩
  obtain ⟨node, left, hbound, hread, hnode⟩ := h.heads hleft tokens rest finish htokens hrest
  exact ⟨node, left, hbound, hread, hresult node hnode⟩

/-- A phrase is one of the next looser level, if it does not begin like the phrases there. -/
theorem ReadsAt.looser {strength : Nat} (h : ReadsAt recur bound (strength + 1) lexemes result)
    (hstrength : strength ≤ 5) (hstarts : Starts lexemes)
    (hnot : strength = 2 → lexemes.head? ≠ some (.keyword .not)) :
    ReadsAt recur bound strength lexemes result := by
  have hcases : GroupsLeft strength ∨ strength = 2 ∨ strength = 3 := by
    unfold GroupsLeft
    omega
  rcases hcases with hleft | rfl | rfl
  · exact (h.reads.heads hleft hstarts.length_pos).readsAt hleft
  · refine ⟨?_, fun hleft => by unfold GroupsLeft at hleft; omega⟩
    have hnegation : Reads (negation recur bound) lexemes (Ends 3) result :=
      Reads.inNegation h.reads hstarts (hnot rfl)
    exact hnegation.imp (fun _ hn => hn.mono (by omega)) fun _ hnode => hnode
  · refine ⟨?_, fun hleft => by unfold GroupsLeft at hleft; omega⟩
    have hchain : Reads (comparison recur bound) (lexemes ++ linkLexemes []) (Ends 3) _ :=
      reads_chain (Nat.zero_le bound) (fun _ hl => nomatch hl) h.reads fun _ hl => nomatch hl
    rw [show linkLexemes [] = [] from rfl, List.append_nil] at hchain
    refine hchain.giving ?_
    rintro _ ⟨node, _, rfl, hnode, hnil⟩
    cases hnil
    exact hnode

/-- So it is one of all looser levels. -/
theorem ReadsAt.loosened {strength least : Nat} (h : ReadsAt recur bound strength lexemes result)
    (hleast : least ≤ strength) (hstrength : strength ≤ 6) (hstarts : Starts lexemes)
    (hnot : 3 ≤ strength → lexemes.head? ≠ some (.keyword .not)) :
    ReadsAt recur bound least lexemes result := by
  induction strength with
  | zero => rwa [Nat.le_zero.mp hleast]
  | succ strength ih =>
    by_cases heq : least = strength + 1
    · rwa [heq]
    · exact ih (h.looser (by omega) hstarts fun h2 => hnot (by omega)) (by omega) (by omega) fun h3 =>
        hnot (by omega)

/-- An operand is read on all levels. -/
theorem Reads.readsAt (h : Reads (operand recur bound) lexemes Anything result) {least : Nat}
    (hleast : least ≤ 6) (hstarts : Starts lexemes)
    (hminus : lexemes.head? ≠ some (.symbol .minus)) (hnot : lexemes.head? ≠ some (.keyword .not)) :
    ReadsAt recur bound least lexemes result := by
  have hsigned : ReadsAt recur bound 6 lexemes result :=
    ⟨h.inSignedEnds hstarts hminus, fun hleft => by unfold GroupsLeft at hleft; omega⟩
  exact hsigned.loosened hleast (Nat.le_refl 6) hstarts fun _ => hnot

end Steps

/-! ## Trees are read as they are written -/

/-- How the tokens of an expression begin: with no sign, and with `not` only if it is a negation or looser. -/
structure Leads (lexemes : List Lexeme) (strength : Nat) : Prop where
  starts : Starts lexemes
  minus : lexemes.head? ≠ some (.symbol .minus)
  not : 3 ≤ strength → lexemes.head? ≠ some (.keyword .not)

/-- What a phrase begins with does not depend on what follows. -/
theorem Leads.append {lexemes : List Lexeme} {strength : Nat} (h : Leads lexemes strength)
    (more : List Lexeme) : Leads (lexemes ++ more) strength := by
  have hhead : (lexemes ++ more).head? = lexemes.head? := by
    rw [List.head?_append, h.starts.next]
  exact ⟨h.starts.append more, hhead ▸ h.minus, hhead ▸ h.not⟩

/-- A parenthesis can begin a phrase of any level. -/
theorem leads_parenthesized (lexemes : List Lexeme) (strength : Nat) :
    Leads (parenthesized lexemes) strength :=
  ⟨⟨_, rfl, rfl⟩, nofun, fun _ => nofun⟩

/-- A phrase of any level is an expression. -/
theorem ReadsAt.expression {recur : Recur} {bound strength : Nat} {lexemes : List Lexeme}
    {result : Node → Prop} (h : ReadsAt recur bound strength lexemes result) (hstrength : strength ≤ 6)
    (hlead : Leads lexemes strength) :
    Reads (Grammar.expression recur bound) lexemes (Ends 0) result := by
  have hloosest := h.loosened (Nat.zero_le _) hstrength hlead.starts hlead.not
  have hdisjunction : Reads (disjunction recur bound) lexemes (Ends 0) result := hloosest.reads
  exact (reads_take?_none _).peek hdisjunction fun n _ => hlead.starts.next_ne rfl n

/-- A text of tokens that are read by the step of a strength is a script. -/
theorem ReadsAt.readScript {strength : Nat} {lexemes : List Lexeme} {result : Node → Prop}
    (h : ∀ bound, lexemes.length ≤ bound → ReadsAt (read bound) bound strength lexemes result)
    (hstrength : strength ≤ 6) (hlead : Leads lexemes strength)
    (hclean : ∀ lexeme ∈ lexemes, lexeme.Clean) (file : String) :
    ∃ found, Source.readScript file (spaced lexemes) = .ok found ∧ result found := by
  obtain ⟨found, hscan, hlexemes⟩ := scans_spaced hclean (.start file)
  have hbound : lexemes.length ≤ found.tokens.length := by rw [← hlexemes, List.length_map]
  have hexpression := (h _ hbound).expression hstrength hlead
  have hlast : Reads (Grammar.expression (read found.tokens.length) found.tokens.length) lexemes
      (· = none) result := hexpression.imp (fun _ hn => .inl hn) fun _ hnode => hnode
  refine hlast.readScript ?_ hlexemes hlead.starts
  rw [scan, spaced, String.toList_ofList, hscan]

namespace Infix

/-- In a place of any level a tree begins as it may there. -/
theorem leads_at {tree : Infix} (h : Leads tree.lexemes tree.strength) (least : Nat) :
    Leads (tree.lexemesAt least) least := by
  unfold lexemesAt
  split
  · exact leads_parenthesized _ _
  · next hle => exact ⟨h.starts, h.minus, fun h3 => h.not (by omega)⟩

/-- A tree begins as phrases of its own level do. -/
theorem leads (tree : Infix) : Leads tree.lexemes tree.strength := by
  induction tree with
  | name word => exact ⟨⟨_, rfl, rfl⟩, nofun, fun _ => nofun⟩
  | whole value => exact ⟨⟨_, rfl, rfl⟩, nofun, fun _ => nofun⟩
  | not operand _ => exact ⟨⟨_, rfl, rfl⟩, nofun, fun h3 => by simp [strength] at h3⟩
  | binary operator left right ih _ =>
    have hleft : Leads (left.lexemesAt operator.leftStrength) operator.leftStrength := leads_at ih _
    have hstrength : operator.strength ≤ operator.leftStrength := by
      unfold Operator.leftStrength
      split <;> omega
    have hlead := hleft.append (operator.lexeme :: right.lexemesAt operator.rightStrength)
    exact ⟨hlead.starts, hlead.minus, fun h3 => hlead.not (Nat.le_trans h3 hstrength)⟩

theorem strength_le (tree : Infix) : tree.strength ≤ 6 := by
  cases tree with
  | binary operator => cases operator <;> simp [strength, Operator.strength]
  | _ => simp [strength]

/-- The tokens of an expression are read by the step for its strength. -/
def Readable (tree : Infix) : Prop :=
  ∀ bound, tree.lexemes.length ≤ bound →
    ReadsAt (read bound) bound tree.strength tree.lexemes tree.node.Same

/-- So a tree that can be read at its own level is read as an expression. -/
theorem Readable.expression {tree : Infix} (h : tree.Readable) {bound : Nat}
    (hbound : tree.lexemes.length ≤ bound) :
    Reads (Grammar.expression (read bound) bound) tree.lexemes (Ends 0) tree.node.Same :=
  (h bound hbound).expression tree.strength_le tree.leads

/-- In parentheses where they are asked for, an expression is read by the steps of all strengths up to the
one that is asked for. -/
theorem Readable.at {tree : Infix} (h : tree.Readable) {least bound : Nat} (hleast : least ≤ 6)
    (hbound : (tree.lexemesAt least).length ≤ bound) :
    ReadsAt (read bound) bound least (tree.lexemesAt least) tree.node.Same := by
  unfold lexemesAt at hbound ⊢
  split
  · next hlt =>
    simp only [if_pos hlt, parenthesized, List.length_cons, List.length_append, List.length_nil]
      at hbound
    obtain ⟨bound, rfl⟩ : ∃ fewer, bound = fewer + 1 := ⟨bound - 1, by omega⟩
    have hinner : Reads (read (bound + 1) .expression) tree.lexemes (Ends 0) tree.node.Same :=
      h.expression (by omega)
    have hlead := leads_parenthesized tree.lexemes 3
    exact (reads_parenthesized hinner (.inr (.inl rfl))).readsAt hleast hlead.starts hlead.minus
      (hlead.not (Nat.le_refl 3))
  · next hlt =>
    rw [if_neg hlt] at hbound
    have hlead := tree.leads
    exact (h bound hbound).loosened (by omega) tree.strength_le hlead.starts hlead.not

section Binary

variable {operator : Operator} {left right : Infix} {bound : Nat}
  (hbound : (left.lexemesAt operator.leftStrength ++
    operator.lexeme :: right.lexemesAt operator.rightStrength).length ≤ bound)
  (hleft : ReadsAt (read bound) bound operator.leftStrength (left.lexemesAt operator.leftStrength)
    left.node.Same)
  (hright : ReadsAt (read bound) bound operator.rightStrength
    (right.lexemesAt operator.rightStrength) right.node.Same)

include hbound hleft hright

/-- A comparison is a chain with one link. -/
theorem readsAt_comparison (h : operator.strength = 3) :
    ReadsAt (read bound) bound operator.strength (Infix.binary operator left right).lexemes
      (Infix.binary operator left right).node.Same := by
  have hl : operator.leftStrength = 4 := if_pos h
  have hr : operator.rightStrength = 4 := congrArg (· + 1) h
  rw [hl] at hleft hbound
  rw [hr] at hright hbound
  rw [h]
  refine ⟨?_, fun hgroups => by simp [GroupsLeft] at hgroups⟩
  have hcount : [(operator, right)].length ≤ bound := by
    rw [List.length_append, List.length_cons] at hbound
    simp only [List.length_singleton]
    omega
  have hchain : Reads (comparison (read bound) bound)
      (left.lexemesAt 4 ++ linkLexemes [(operator, right)]) (Ends 3) _ :=
    reads_chain hcount (fun link hlink => List.mem_singleton.mp hlink ▸ h) hleft.reads fun link hlink =>
      List.mem_singleton.mp hlink ▸ hright.reads
  have hlexemes : (Infix.binary operator left right).lexemes =
      left.lexemesAt 4 ++ linkLexemes [(operator, right)] := by
    show left.lexemesAt operator.leftStrength ++ operator.lexeme ::
      right.lexemesAt operator.rightStrength = _
    rw [hl, hr]
    simp [linkLexemes]
  rw [hlexemes]
  refine Reads.giving hchain ?_
  rintro _ ⟨first, found, rfl, hfirst, hfound⟩
  exact chainNode_same hfirst hfound

/-- A tree whose operator groups to the left is read at the level of this operator: by induction its left
operand is a head. -/
theorem readsAt_grouped (h : operator.strength ≠ 3) :
    ReadsAt (read bound) bound operator.strength (Infix.binary operator left right).lexemes
      (Infix.binary operator left right).node.Same := by
  have hgroups : GroupsLeft operator.strength := by
    cases operator <;> simp_all [GroupsLeft, Operator.strength]
  have hl : operator.leftStrength = operator.strength := if_neg h
  rw [hl] at hleft
  have hlexemes : (Infix.binary operator left right).lexemes =
      left.lexemesAt operator.leftStrength ++ operator.lexeme ::
        right.lexemesAt operator.rightStrength := rfl
  rw [hl] at hbound hlexemes
  rw [hlexemes]
  have hheads := (hleft.heads hgroups).addOperator hgroups hright.reads hbound
  refine (hheads.readsAt hgroups).imp ?_
  rintro _ ⟨position, first, second, rfl, hfirst, hsecond⟩
  exact Operator.applied_same operator default position hfirst hsecond

end Binary

/-- All proper trees can be read. -/
theorem Proper.readable {tree : Infix} (h : tree.Proper) : tree.Readable := by
  induction tree with
  | name word =>
    intro bound _
    have hread : Reads (operand (read bound) bound) [.name word] Anything
        (Node.mk default (.name word)).Same := Reads.withToken fun _ => .pure rfl
    exact hread.readsAt (Nat.le_refl 6) ⟨_, rfl, rfl⟩ nofun nofun
  | whole value =>
    intro bound _
    have hvalue : Number.readWhole (Number.digitsOf (value : Int).natAbs) = some (.ofNat value) := by
      have hsmall : value < 2 ^ 63 := h
      rw [Int.natAbs_natCast, Number.readWhole_digitsOf, Number.whole?_eq_some (by omega) (by omega)]
      rfl
    have hread : Reads (operand (read bound) bound) (Infix.whole value).lexemes Anything
        (Infix.whole value).node.Same := by
      refine (reads_whole bound hvalue).giving ?_
      rintro _ ⟨place, rfl⟩
      rfl
    exact hread.readsAt (Nat.le_refl 6) ⟨_, rfl, rfl⟩ nofun nofun
  | not operand ih =>
    intro bound hbound
    have hoperand : ReadsAt (read bound) bound 2 (operand.lexemesAt 2) operand.node.Same :=
      (ih h).at (by omega) (Nat.le_of_succ_le hbound)
    refine ⟨?_, fun hleft => by simp [GroupsLeft, strength] at hleft⟩
    refine Reads.giving (Reads.behindNot hoperand.reads) ?_
    rintro _ ⟨place, node, rfl, hsame⟩
    exact congrArg (fun node => Node.mk default (.not node)) hsame
  | binary operator left right ihleft ihright =>
    intro bound hbound
    have hlength : (left.lexemesAt operator.leftStrength ++
        operator.lexeme :: right.lexemesAt operator.rightStrength).length ≤ bound := hbound
    -- each side is read at the strength that the operator asks for, in brackets or without
    have hleft : ReadsAt (read bound) bound operator.leftStrength
        (left.lexemesAt operator.leftStrength) left.node.Same := by
      refine (ihleft h.1).at (by cases operator <;> decide) ?_
      rw [List.length_append] at hlength
      omega
    have hright : ReadsAt (read bound) bound operator.rightStrength
        (right.lexemesAt operator.rightStrength) right.node.Same := by
      refine (ihright h.2).at (by cases operator <;> decide) ?_
      rw [List.length_append, List.length_cons] at hlength
      omega
    -- comparisons are read as chains of one link, all other operators group to one side
    by_cases h3 : operator.strength = 3
    · exact readsAt_comparison hlength hleft hright h3
    · exact readsAt_grouped hlength hleft hright h3

end Infix

/-! ## Chains of comparisons are read as they are written -/

/-- A chain has at least one token for each link. -/
theorem length_le_linkLexemes (links : List (Operator × Infix)) :
    links.length ≤ (linkLexemes links).length := by
  induction links with
  | nil => exact Nat.le_refl 0
  | cons link links ih =>
    simp only [linkLexemes, List.flatMap_cons, List.length_append, List.length_cons] at ih ⊢
    omega

theorem length_lt_linkLexemes {links : List (Operator × Infix)} {link : Operator × Infix}
    (h : link ∈ links) : (link.2.lexemesAt 4).length < (linkLexemes links).length := by
  induction links with
  | nil => cases h
  | cons first links ih =>
    simp only [linkLexemes, List.flatMap_cons, List.length_append, List.length_cons] at ih ⊢
    rcases List.mem_cons.mp h with rfl | h
    · omega
    · have := ih h
      omega

/-- The tokens of a chain of comparisons are read by the step for comparisons. -/
theorem readsAt_chain {first : Infix} {links : List (Operator × Infix)} (hfirst : first.Proper)
    (hlinks : ∀ link ∈ links, link.1.strength = 3 ∧ link.2.Proper) (bound : Nat)
    (hbound : (first.lexemesAt 4 ++ linkLexemes links).length ≤ bound) :
    ReadsAt (read bound) bound 3 (first.lexemesAt 4 ++ linkLexemes links)
      (chainNode first links).Same := by
  rw [List.length_append] at hbound
  have hcount : links.length ≤ bound := by
    have := length_le_linkLexemes links
    omega
  have hread : ReadsAt (read bound) bound 4 (first.lexemesAt 4) first.node.Same :=
    hfirst.readable.at (by omega) (by omega)
  have hmore (link : Operator × Infix) (hlink : link ∈ links) :
      ReadsAt (read bound) bound 4 (link.2.lexemesAt 4) link.2.node.Same := by
    have := length_lt_linkLexemes hlink
    exact (hlinks link hlink).2.readable.at (by omega) (by omega)
  refine ⟨?_, fun hgroups => by simp [GroupsLeft] at hgroups⟩
  refine Reads.giving (reads_chain hcount (fun link hlink => (hlinks link hlink).1) hread.reads
    fun link hlink => (hmore link hlink).reads) ?_
  rintro _ ⟨node, found, rfl, hnode, hfound⟩
  exact chainNode_same hnode hfound

/-- Expressions are read as the trees that they were written for: parentheses are needed only where the
strengths ask for them. A chain of comparisons, which trees do not have, is the conjunction of its links. -/
theorem readScript_operators (file : String) :
    (∀ tree : Infix, tree.Proper →
      ∃ found, readScript file (spaced tree.lexemes) = .ok found ∧ tree.node.Same found) ∧
    ∀ (first : Infix) (links : List (Operator × Infix)), first.Proper →
      (∀ link ∈ links, link.1.strength = 3 ∧ link.2.Proper) →
      ∃ found, readScript file (spaced (first.lexemesAt 4 ++ linkLexemes links)) = .ok found ∧
        (chainNode first links).Same found := by
  refine ⟨fun tree h => ?_, fun first links hfirst hlinks => ?_⟩
  · exact ReadsAt.readScript h.readable tree.strength_le tree.leads h.clean file
  · have hlead := (Infix.leads_at first.leads 4).append (linkLexemes links)
    refine ReadsAt.readScript (readsAt_chain hfirst hlinks) (by omega)
      ⟨hlead.starts, hlead.minus, fun _ => hlead.not (by omega)⟩ (fun lexeme hl => ?_) file
    rcases List.mem_append.mp hl with hl | hl
    · exact Infix.lexemesAt_clean hfirst.clean 4 lexeme hl
    · obtain ⟨link, hlink, hl⟩ := List.mem_flatMap.mp hl
      rcases List.mem_cons.mp hl with rfl | hl
      · exact clean_operator link.1
      · exact Infix.lexemesAt_clean (hlinks link hlink).2.clean 4 lexeme hl

/-- The difference of a sum and a difference, under `not` and behind `or`. -/
def negatedDifference : Infix :=
  .binary .or (.name "p") (.not (.binary .less
    (.binary .minus (.binary .minus (.name "a") (.whole 1)) (.binary .plus (.name "b") (.whole 2)))
    (.binary .times (.name "c") (.binary .and (.name "d") (.name "e")))))

example : spaced negatedDifference.lexemes = "p or not a - 1 - ( b + 2 ) < c * ( d and e )" := by
  decide +kernel

theorem readScript_negatedDifference : negatedDifference.Proper ∧
    (∃ found, readScript "" (spaced negatedDifference.lexemes) = .ok found ∧
      negatedDifference.node.Same found) ∧
    ∃ found, readScript "" (spaced ((Infix.name "a").lexemesAt 4 ++
        linkLexemes [(.less, .name "b"), (.lessEqual, .name "c")])) = .ok found ∧
      (chainNode (.name "a") [(.less, .name "b"), (.lessEqual, .name "c")]).Same found := by
  have hproper : negatedDifference.Proper := by
    simp only [negatedDifference, Infix.Proper]
    decide +kernel
  refine ⟨hproper, (readScript_operators "").1 _ hproper, (readScript_operators "").2 _ _ ?_ ?_⟩
  · show isName "a" = true
    decide +kernel
  · have hb : isName "b" = true := by decide +kernel
    have hc : isName "c" = true := by decide +kernel
    simpa [Infix.Proper] using ⟨⟨rfl, hb⟩, rfl, hc⟩

end Ckl.Source
