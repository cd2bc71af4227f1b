import Ckl.Source.Script
import Ckl.Proofs.Source.Place
import Ckl.Proofs.Source.Plain

/-!
# Reading what is written

What the steps of the grammar do at the end of a phrase, and how the levels of binding strength build on
each other: a phrase that is read on one level is read on all looser ones, if none of their operators
follows it.
-/

namespace Ckl.Source

open Reading Grammar

variable {α β : Type}

/-- The next lexeme. -/
def upNext (tokens : List Token) : Option Lexeme := tokens.head?.map Token.lexeme

/-- The step reads any tokens with the given lexemes, if what follows is as it should be, to a result as
it should be. -/
def Reads (step : Reading α) (lexemes : List Lexeme) (follow : Option Lexeme → Prop)
    (result : α → Prop) : Prop :=
  ∀ tokens rest finish, tokens.map Token.lexeme = lexemes → follow (upNext rest) →
    ∃ a, step ⟨tokens ++ rest, finish⟩ = .ok (a, ⟨rest, finish⟩) ∧ result a

/-- No condition on what follows. -/
abbrev Anything : Option Lexeme → Prop := fun _ => True

/-- After a phrase has been read, reading goes on behind it. -/
theorem bind_ok {first : Reading α} {next : α → Reading β} {state state' : Tokens} {a : α}
    (h : first state = .ok (a, state')) : (first >>= next) state = next a state' := by
  show (first state >>= fun p => next p.1 p.2) = _
  rw [h]
  rfl

/-- What comes up next is the first of the tokens, or what stands behind them all. -/
theorem upNext_append (tokens rest : List Token) :
    upNext (tokens ++ rest) = (tokens.map Token.lexeme).head?.or (upNext rest) := by
  cases tokens <;> rfl

/-! ## Steps one after the other -/

section Composition

variable {first : Reading α} {next : α → Reading β} {lexemes lexemes' : List Lexeme} {lexeme : Lexeme}
  {follow follow' : Option Lexeme → Prop} {result : α → Prop} {result' : β → Prop}

/-- Less may follow, and more may be said about what is read. -/
theorem Reads.imp {result'' : α → Prop} (h : Reads first lexemes follow result)
    (hfollow : ∀ n, follow' n → follow n) (hresult : ∀ a, result a → result'' a) :
    Reads first lexemes follow' result'' := by
  intro tokens rest finish htokens hrest
  obtain ⟨a, hread, ha⟩ := h tokens rest finish htokens (hfollow _ hrest)
  exact ⟨a, hread, hresult a ha⟩

/-- The case where just as much may follow. -/
theorem Reads.giving {result'' : α → Prop} (h : Reads first lexemes follow result)
    (hresult : ∀ a, result a → result'' a) : Reads first lexemes follow result'' :=
  h.imp (fun _ hn => hn) hresult

/-- To give something is to read no tokens. -/
theorem Reads.pure {b : β} (h : result' b) : Reads (pure b) [] follow result' := by
  intro tokens rest finish htokens _
  rw [List.map_eq_nil_iff.mp htokens]
  exact ⟨b, rfl, h⟩

/-- Phrases are read one after the other, if the second one is something that may follow the first. -/
theorem Reads.bind (h : Reads first lexemes follow result)
    (h' : ∀ a, result a → Reads (next a) lexemes' follow' result')
    (hfollow : ∀ n, follow' n → follow (lexemes'.head?.or n)) :
    Reads (first >>= next) (lexemes ++ lexemes') follow' result' := by
  intro tokens rest finish htokens hrest
  obtain ⟨front, back, rfl, hfront, rfl⟩ := List.map_eq_append_iff.mp htokens
  obtain ⟨a, hread, ha⟩ := h front (back ++ rest) finish hfront
    (upNext_append back rest ▸ hfollow _ hrest)
  obtain ⟨b, hread', hb⟩ := h' a ha back rest finish rfl hrest
  exact ⟨b, by rw [List.append_assoc, bind_ok hread, hread'], hb⟩

/-- A step that takes nothing. -/
theorem Reads.peek {a : α} (h : Reads first [] follow (· = a))
    (h' : Reads (next a) lexemes' follow' result')
    (hfollow : ∀ n, follow' n → follow (lexemes'.head?.or n)) :
    Reads (first >>= next) lexemes' follow' result' :=
  h.bind (fun _ ha => ha ▸ h') hfollow

/-- A step that takes one token. -/
theorem Reads.take (h : Reads first [lexeme] Anything result)
    (h' : ∀ a, result a → Reads (next a) lexemes' follow' result') :
    Reads (first >>= next) (lexeme :: lexemes') follow' result' :=
  h.bind h' fun _ _ => trivial

/-- A last step that takes nothing. -/
theorem Reads.finish (h : Reads first lexemes follow result)
    (h' : ∀ a, result a → Reads (next a) [] follow result') :
    Reads (first >>= next) lexemes follow result' :=
  lexemes.append_nil ▸ h.bind h' fun _ hn => hn

/-- A result that is already there. -/
theorem Reads.behindPure {a : α} (h : Reads (next a) lexemes follow result') :
    Reads (Pure.pure a >>= next) lexemes follow result' := h

/-- A step that takes its first token without regard to its place. -/
theorem Reads.skip {step : Reading α} (h : Reads first lexemes follow result)
    (heq : ∀ position rest finish, step ⟨⟨lexeme, position⟩ :: rest, finish⟩ = first ⟨rest, finish⟩) :
    Reads step (lexeme :: lexemes) follow result := by
  intro tokens rest finish htokens hrest
  obtain ⟨⟨_, position⟩, tokens, rfl, rfl, rfl⟩ := List.map_eq_cons_iff.mp htokens
  obtain ⟨a, hread, ha⟩ := h tokens rest finish rfl hrest
  exact ⟨a, (heq _ _ _).trans hread, ha⟩

/-- A step that is read with its first token at hand. -/
theorem Reads.withToken {step : Token → Reading α}
    (h : ∀ position, Reads (step ⟨lexeme, position⟩) lexemes follow result) :
    Reads (Reading.next >>= step) (lexeme :: lexemes) follow result := by
  intro tokens rest finish htokens hrest
  obtain ⟨⟨_, position⟩, tokens, rfl, rfl, rfl⟩ := List.map_eq_cons_iff.mp htokens
  exact h position tokens rest finish rfl hrest

end Composition

/-! ## Single tokens -/

section Tokens

variable (lexeme : Lexeme) (word : Keyword) (mark : Symbol)

/-- A step that leaves the tokens alone. -/
theorem reads_nothing {step : Reading α} {a : α} {follow : Option Lexeme → Prop}
    (h : ∀ rest finish, follow (upNext rest) → step ⟨rest, finish⟩ = .ok (a, ⟨rest, finish⟩)) :
    Reads step [] follow (· = a) := by
  intro tokens rest finish htokens hrest
  rw [List.map_eq_nil_iff.mp htokens]
  exact ⟨a, h rest finish hrest, rfl⟩

/-- A step that takes one token. -/
theorem reads_one {step : Reading α} {follow : Option Lexeme → Prop} {result : α → Prop}
    (h : ∀ position rest finish, follow (upNext rest) →
      ∃ a, step ⟨⟨lexeme, position⟩ :: rest, finish⟩ = .ok (a, ⟨rest, finish⟩) ∧ result a) :
    Reads step [lexeme] follow result := by
  intro tokens rest finish htokens hrest
  obtain ⟨⟨_, position⟩, tokens, rfl, rfl, hnil⟩ := List.map_eq_cons_iff.mp htokens
  rw [List.map_eq_nil_iff.mp hnil]
  exact h position rest finish hrest

/-- Of a token that does not come up none is taken, however many are asked for. -/
theorem reads_takeAll_none : Reads (takeAll lexeme) [] (· ≠ some lexeme) (· = []) := by
  refine reads_nothing fun rest finish h => ?_
  cases rest with
  | nil => rfl
  | cons token rest =>
    have hne : (token.lexeme == lexeme) = false := beq_eq_false_iff_ne.mpr fun heq => h (heq ▸ rfl)
    simp only [takeAll, List.takeWhile_cons, List.dropWhile_cons, hne, Bool.false_eq_true, if_false,
      List.map_nil]

theorem reads_take?_none : Reads (take? lexeme) [] (· ≠ some lexeme) (· = none) := by
  refine reads_nothing fun rest finish h => ?_
  cases rest with
  | nil => rfl
  | cons token rest =>
    have hne : token.lexeme ≠ lexeme := fun heq => h (heq ▸ rfl)
    simp only [take?, hne, if_false]

theorem reads_tookKeyword_none :
    Reads (tookKeyword word) [] (· ≠ some (.keyword word)) (· = false) :=
  (reads_take?_none _).peek (.pure rfl) fun _ hn => hn

theorem reads_tookSymbol_none : Reads (tookSymbol mark) [] (· ≠ some (.symbol mark)) (· = false) :=
  (reads_take?_none _).peek (.pure rfl) fun _ hn => hn

/-- To look ahead for other tokens takes nothing. -/
theorem reads_upcoming_none (more : List Lexeme) :
    Reads (upcoming (lexeme :: more)) [] (· ≠ some lexeme) (· = false) := by
  refine reads_nothing fun rest finish h => ?_
  have hne : (lexeme :: more == (rest.take (lexeme :: more).length).map Token.lexeme) = false := by
    refine beq_eq_false_iff_ne.mpr fun heq => h ?_
    cases rest with
    | nil => cases heq
    | cons token rest =>
      simp only [List.length_cons, List.take_succ_cons, List.map_cons, List.cons.injEq] at heq
      exact congrArg some heq.1.symm
  show Except.ok (lexeme :: more == (rest.take (lexeme :: more).length).map Token.lexeme, _) = _
  rw [hne]

/-- Nor does it if the token is there. -/
theorem reads_upcoming : Reads (upcoming [lexeme]) [] (· = some lexeme) (· = true) := by
  refine reads_nothing fun rest finish h => ?_
  cases rest with
  | nil => cases h
  | cons token rest =>
    show Except.ok ([lexeme] == [token.lexeme], _) = _
    rw [Option.some.inj h, beq_self_eq_true]

theorem reads_tookKeyword : Reads (tookKeyword word) [.keyword word] Anything (· = true) :=
  reads_one _ fun position _ _ _ => ⟨true, bind_ok (a := some position) (if_pos rfl), rfl⟩

theorem reads_tookSymbol : Reads (tookSymbol mark) [.symbol mark] Anything (· = true) :=
  reads_one _ fun position _ _ _ => ⟨true, bind_ok (a := some position) (if_pos rfl), rfl⟩

theorem reads_expect (what : Expectation) :
    Reads (expect lexeme what) [lexeme] Anything fun _ => True :=
  reads_one _ fun position _ _ _ => ⟨position, if_pos rfl, trivial⟩

/-- A name is taken with its place. -/
theorem reads_expectName (what : Expectation) (name : String) :
    Reads (expectName what) [.name name] Anything (·.1 = name) :=
  reads_one _ fun position _ _ _ => ⟨(name, position), rfl, rfl⟩

end Tokens

/-! ## What stands behind a phrase -/

/-- Whether a symbol can stand behind a plain expression. -/
def Symbol.follows (mark : Symbol) : Bool :=
  mark ∈ [.closeParen, .closeBracket, .comma, .fatArrow, .closeSet, .closeMap, .closeObject]

/-- Whether a lexeme can stand behind a plain expression; `words` are the keywords that can. -/
def Lexeme.follows (words : List Keyword) : Lexeme → Bool
  | .symbol mark => mark.follows
  | .keyword word => word ∈ words
  | _ => false

/-- What can stand behind an expression: the end of a phrase, or one of the words, which are those of the
operators that bind looser. -/
def Follows (words : List Keyword) (next : Option Lexeme) : Prop :=
  next.all (Lexeme.follows words) = true

/-- The words of the operators that bind looser than sums, from the tightest to the loosest. -/
def connectives : List Keyword := [.in, .and, .or]

/-- The lexemes that a plain expression begins with. -/
def Lexeme.begins : Lexeme → Bool
  | .boolean _ | .string _ | .whole _ | .name _ => true
  | .symbol mark => mark ∈ [.openParen, .openBracket, .openSet, .openMap, .openObject, .minus]
  | .keyword word => word = .not
  | _ => false

/-- Tokens that an expression can begin with. -/
def Starts (lexemes : List Lexeme) : Prop := ∃ first ∈ lexemes.head?, first.begins = true

/-- Tokens of an expression begin with something that ends no phrase in front of it. -/
theorem Starts.next_ne {lexemes : List Lexeme} (h : Starts lexemes) {lexeme : Lexeme}
    (hlexeme : lexeme.begins = false) (next : Option Lexeme) : lexemes.head?.or next ≠ some lexeme := by
  obtain ⟨first, hfirst, hbegins⟩ := h
  rw [Option.mem_def.mp hfirst, Option.some_or]
  rintro heq
  rw [Option.some.inj heq, hlexeme] at hbegins
  cases hbegins

/-- With an expression it is its first token that comes up next. -/
theorem Starts.next {lexemes : List Lexeme} (h : Starts lexemes) (next : Option Lexeme) :
    lexemes.head?.or next = lexemes.head? := by
  obtain ⟨first, hfirst, _⟩ := h
  rw [Option.mem_def.mp hfirst, Option.some_or]

/-- So it is whatever stands behind the expression. -/
theorem Starts.append {lexemes : List Lexeme} (h : Starts lexemes) (more : List Lexeme) :
    Starts (lexemes ++ more) := by
  obtain ⟨first, hfirst, hbegins⟩ := h
  exact ⟨first, by rw [List.head?_append, Option.mem_def.mp hfirst]; rfl, hbegins⟩

/-- Expressions have tokens. -/
theorem Starts.length_pos {lexemes : List Lexeme} (h : Starts lexemes) : 0 < lexemes.length := by
  obtain ⟨first, hfirst, _⟩ := h
  exact List.length_pos_of_mem (List.mem_of_mem_head? hfirst)

/-- If few words may follow, more of them may. -/
theorem Follows.mono {words words' : List Keyword} {next : Option Lexeme} (h : Follows words next)
    (hwords : words ⊆ words') : Follows words' next := by
  cases next with
  | none => rfl
  | some lexeme =>
    cases lexeme with
    | keyword word => exact decide_eq_true (hwords (of_decide_eq_true h))
    | _ => exact h

/-- What follows is none of the tokens that would go on with the phrase. -/
theorem Follows.ne {words : List Keyword} {next : Option Lexeme} (h : Follows words next)
    {lexeme : Lexeme} (hlexeme : lexeme.follows words = false) : next ≠ some lexeme := by
  rintro rfl
  exact Bool.false_ne_true (hlexeme.symm.trans h)

/-- The cases of what can follow. -/
@[elab_as_elim]
theorem Follows.elim {words : List Keyword} {rest : List Token} {motive : List Token → Prop}
    (h : Follows words (upNext rest)) (nil : motive [])
    (symbol : ∀ mark position behind, mark.follows = true →
      motive (⟨.symbol mark, position⟩ :: behind))
    (keyword : ∀ word position behind, word ∈ words →
      motive (⟨.keyword word, position⟩ :: behind)) : motive rest := by
  match rest with
  | [] => exact nil
  | ⟨lexeme, position⟩ :: behind =>
    cases lexeme with
    | symbol mark => exact symbol mark position behind h
    | keyword word => exact keyword word position behind (of_decide_eq_true h)
    | _ => cases h

/-- Fewer words can follow. -/
theorem Reads.restrict {step : Reading α} {lexemes : List Lexeme} {result : α → Prop}
    {words words' : List Keyword} (h : Reads step lexemes (Follows words') result)
    (hwords : words ⊆ words') : Reads step lexemes (Follows words) result :=
  h.imp (fun _ hn => hn.mono hwords) fun _ ha => ha

/-! ## From operands to sums -/

section Levels

variable {recur : Recur} {limit bound : Nat} {lexemes lexemes' : List Lexeme}
  {result result' : Node → Prop}

/-- Nothing that may follow is an index, a call or a member. -/
theorem reads_suffix?_none (target : Node) :
    Reads (suffix? recur limit target) [] (Follows connectives) (· = none) := by
  refine reads_nothing fun rest finish h => h.elim rfl (fun mark position behind hmark => ?_)
    fun word position behind hword => rfl
  cases mark <;> first | rfl | cases hmark

/-- So a target without one stays as it is. -/
theorem reads_suffixes_none (target : Node) :
    Reads (suffixes recur limit bound target) [] (Follows connectives) (· = target) := by
  cases bound with
  | zero => exact .pure rfl
  | succ bound => exact (reads_suffix?_none target).peek (.pure rfl) fun _ hn => hn

/-- The tokens are an operand as far as it has been read: more can stand behind it. `left` is what is
left of the bound. -/
def Stands (recur : Recur) (bound : Nat) (lexemes : List Lexeme) (result : Node → Prop) : Prop :=
  ∀ tokens rest finish, tokens.map Token.lexeme = lexemes →
    ∃ node left, bound < left + lexemes.length ∧
      suffixed recur bound ⟨tokens ++ rest, finish⟩ =
        suffixes recur bound left node ⟨rest, finish⟩ ∧ result node

/-- An operand that anything may follow can stand wherever an operand is asked for. -/
theorem Reads.stands (h : Reads (operand recur bound) lexemes Anything result)
    (hpos : 0 < lexemes.length) : Stands recur bound lexemes result := by
  intro tokens rest finish htokens
  obtain ⟨node, hread, hnode⟩ := h tokens rest finish htokens trivial
  exact ⟨node, bound, by omega, bind_ok hread, hnode⟩

/-- One more suffix. -/
theorem Stands.addSuffix (h : Stands recur bound lexemes result) (hpos : 0 < lexemes'.length)
    (hbound : (lexemes ++ lexemes').length ≤ bound)
    (hsuffix : ∀ node, result node → Reads (suffix? recur bound node) lexemes' Anything
      fun found => ∃ node', found = some node' ∧ result' node') :
    Stands recur bound (lexemes ++ lexemes') result' := by
  intro tokens rest finish htokens
  obtain ⟨front, back, rfl, hfront, hback⟩ := List.map_eq_append_iff.mp htokens
  obtain ⟨node, left, hleft, hread, hnode⟩ := h front (back ++ rest) finish hfront
  obtain ⟨_, hread', node', rfl, hnode'⟩ := hsuffix node hnode back rest finish hback trivial
  rw [List.length_append] at hbound ⊢
  obtain ⟨left, rfl⟩ : ∃ fewer, left = fewer + 1 := ⟨left - 1, by omega⟩
  refine ⟨node', left, by omega, ?_, hnode'⟩
  rw [List.append_assoc, hread]
  exact bind_ok hread'

/-- From here on it goes up the ladder: an operand is a phrase with no suffix, -/
theorem Stands.inSuffixed (h : Stands recur bound lexemes result) :
    Reads (suffixed recur bound) lexemes (Follows connectives) result := by
  intro tokens rest finish htokens hrest
  obtain ⟨node, left, _, hread, hnode⟩ := h tokens rest finish htokens
  obtain ⟨_, hstop, rfl⟩ := reads_suffixes_none node [] rest finish rfl hrest
  exact ⟨_, hread.trans hstop, hnode⟩

/-- this is one with no predicate, -/
theorem Reads.inPredicate (h : Reads (suffixed recur bound) lexemes (Follows connectives) result) :
    Reads (predicate recur bound) lexemes (Follows connectives) result := by
  refine h.finish fun node hnode => ?_
  intro tokens rest finish htokens hrest
  rw [List.map_eq_nil_iff.mp htokens]
  refine ⟨node, hrest.elim rfl (fun mark position behind hmark => rfl) ?_, hnode⟩
  intro word position behind hword
  simp only [connectives, List.mem_cons, List.not_mem_nil, or_false] at hword
  rcases hword with rfl | rfl | rfl <;> rfl

/-- without a sign unless it begins with one, -/
theorem Reads.inSigned {follow : Option Lexeme → Prop}
    (h : Reads (predicate recur bound) lexemes follow result) (hstarts : Starts lexemes)
    (hminus : lexemes.head? ≠ some (.symbol .minus)) :
    Reads (signed recur bound) lexemes follow result :=
  (reads_takeAll_none _).peek (h.finish fun _ hnode => .pure hnode) fun n _ => by
    rwa [hstarts.next n]

/-- The signs are all taken at once, and give the same as if each were a step of its own. -/
theorem signed_behind_minus {position : Position} {tokens : List Token} {finish : Position} :
    signed recur bound ⟨⟨.symbol .minus, position⟩ :: tokens, finish⟩ =
      (signed recur bound ⟨tokens, finish⟩).map fun found =>
        (Node.opposite position found.1, found.2) := by
  let signs := (tokens.takeWhile (·.lexeme == .symbol .minus)).map Token.position
  let found := predicate recur bound ⟨tokens.dropWhile (·.lexeme == .symbol .minus), finish⟩
  show (found >>= fun inner =>
      Except.ok (Node.opposite position (signs.foldr Node.opposite inner.1), inner.2)) =
    (found >>= fun inner => Except.ok (signs.foldr Node.opposite inner.1, inner.2)).map _
  cases found <;> rfl

/-- A minus sign. -/
theorem Reads.behindMinus {follow : Option Lexeme → Prop}
    (h : Reads (signed recur bound) lexemes follow result) :
    Reads (signed recur bound) (.symbol .minus :: lexemes) follow fun node =>
      ∃ position operand, node = Node.opposite position operand ∧ result operand := by
  intro tokens rest finish htokens hrest
  obtain ⟨⟨_, position⟩, tokens, rfl, rfl, rfl⟩ := List.map_eq_cons_iff.mp htokens
  obtain ⟨operand, hread, hoperand⟩ := h tokens rest finish rfl hrest
  refine ⟨operand.opposite position, ?_, position, operand, rfl, hoperand⟩
  rw [List.cons_append, signed_behind_minus, hread]
  rfl

/-- To look ahead changes nothing. -/
theorem ahead?_bind {α : Type} (offset : Nat) (next : Option Lexeme → Reading α) (tokens : Tokens) :
    (ahead? offset >>= next) tokens = next (tokens.ahead? offset) tokens := rfl

/-- with no operator of the level behind it, -/
theorem reads_chain_none {functions : List (Symbol × String)} {operand : Reading Node} (left : Node)
    (hnone : ∀ mark : Symbol, mark.follows = true → functions.lookup mark = none) :
    Reads (chain functions operand bound left) [] (Follows connectives) (· = left) := by
  cases bound with
  | zero => exact .pure rfl
  | succ bound =>
    refine reads_nothing fun rest finish h => h.elim rfl (fun mark position behind hmark => ?_)
      fun word position behind hword => rfl
    rw [chain, ahead?_bind]
    dsimp only [Tokens.ahead?, List.getElem?_cons_zero, Option.map_some]
    rw [hnone mark hmark]
    rfl

/-- a sum of one, -/
theorem Reads.inSum (h : Reads (signed recur bound) lexemes (Follows connectives) result) :
    Reads (sum recur bound) lexemes (Follows connectives) result := by
  have hproduct : Reads (product recur bound) lexemes (Follows connectives) result := by
    refine h.finish fun node hnode => (reads_chain_none node ?_).giving fun _ ha => ha ▸ hnode
    intro mark hmark
    cases mark <;> first | rfl | cases hmark
  refine hproduct.finish fun node hnode => (reads_chain_none node ?_).giving fun _ ha => ha ▸ hnode
  intro mark hmark
  cases mark <;> first | rfl | cases hmark

/-! ## From sums to expressions -/

theorem reads_comparison?_none {words : List Keyword} (hwords : words ⊆ connectives) :
    Reads comparison? [] (Follows words) (· = none) := by
  refine reads_nothing fun rest finish h => (h.mono hwords).elim rfl
    (fun mark position behind hmark => ?_) fun word position behind hword => ?_
  · cases mark <;> first | rfl | cases hmark
  · simp only [connectives, List.mem_cons, List.not_mem_nil, or_false] at hword
    rcases hword with rfl | rfl | rfl <;> rfl

/-- without a comparison behind it, -/
theorem reads_links_none {operand : Reading Node} {words : List Keyword} (hwords : words ⊆ connectives) :
    Reads (links operand bound) [] (Follows words) (· = []) := by
  cases bound with
  | zero => exact .pure rfl
  | succ bound => exact (reads_comparison?_none hwords).peek (.pure rfl) fun _ hn => hn

/-- a comparison of one, -/
theorem Reads.inComparison (h : Reads (sum recur bound) lexemes (Follows connectives) result) :
    Reads (comparison recur bound) lexemes (Follows [.and, .or]) result := by
  refine (h.restrict (by decide)).finish fun node hnode => ?_
  refine (reads_tookKeyword_none .in).peek ?_ fun n hn => hn.ne rfl
  refine (reads_upcoming_none (.keyword .not) _).peek ?_ fun n hn => hn.ne rfl
  exact (reads_links_none (by decide)).peek (.pure hnode) fun _ hn => hn

/-- A test of membership. -/
theorem Reads.contained (h : Reads (sum recur bound) lexemes (Follows connectives) result)
    (h' : Reads (sum recur bound) lexemes' (Follows connectives) result') :
    Reads (comparison recur bound) (lexemes ++ .keyword .in :: lexemes') (Follows connectives)
      fun node => ∃ position element container, node = .mk position (.contained element container) ∧
        result element ∧ result' container := by
  refine h.bind (fun element helement => ?_) fun _ _ => rfl
  refine (reads_tookKeyword .in).take fun | _, rfl => ?_
  exact h'.finish fun container hcontainer => .pure ⟨_, _, _, rfl, helement, hcontainer⟩

/-- not negated unless it begins so, -/
theorem Reads.inNegation {follow : Option Lexeme → Prop}
    (h : Reads (comparison recur bound) lexemes follow result) (hstarts : Starts lexemes)
    (hnot : lexemes.head? ≠ some (.keyword .not)) :
    Reads (negation recur bound) lexemes follow result :=
  (reads_takeAll_none _).peek (h.finish fun _ hnode => .pure hnode) fun n _ => by
    rwa [hstarts.next n]

/-- The words are all taken at once, and give the same as if each were a step of its own. -/
theorem negation_behind_not {position : Position} {tokens : List Token} {finish : Position} :
    negation recur bound ⟨⟨.keyword .not, position⟩ :: tokens, finish⟩ =
      (negation recur bound ⟨tokens, finish⟩).map fun found =>
        (.mk position (.not found.1), found.2) := by
  let places := (tokens.takeWhile (·.lexeme == .keyword .not)).map Token.position
  let negate : Node → Node :=
    fun operand => places.foldr (fun position operand => .mk position (.not operand)) operand
  let found := comparison recur bound ⟨tokens.dropWhile (·.lexeme == .keyword .not), finish⟩
  show (found >>= fun inner => Except.ok (Node.mk position (.not (negate inner.1)), inner.2)) =
    (found >>= fun inner => Except.ok (negate inner.1, inner.2)).map _
  cases found <;> rfl

/-- A negation. -/
theorem Reads.behindNot {follow : Option Lexeme → Prop}
    (h : Reads (negation recur bound) lexemes follow result) :
    Reads (negation recur bound) (.keyword .not :: lexemes) follow fun node =>
      ∃ position operand, node = .mk position (.not operand) ∧ result operand := by
  intro tokens rest finish htokens hrest
  obtain ⟨⟨_, position⟩, tokens, rfl, rfl, rfl⟩ := List.map_eq_cons_iff.mp htokens
  obtain ⟨operand, hread, hoperand⟩ := h tokens rest finish rfl hrest
  refine ⟨.mk position (.not operand), ?_, position, operand, rfl, hoperand⟩
  rw [List.cons_append, negation_behind_not, hread]
  rfl

/-- joined with nothing, -/
theorem reads_joined_none {word : Keyword} {form : Node → Node → Form} {operand : Reading Node}
    (left : Node) :
    Reads (joined word form operand bound left) [] (· ≠ some (.keyword word)) (· = left) := by
  cases bound with
  | zero => exact .pure rfl
  | succ bound => exact (reads_tookKeyword_none word).peek (.pure rfl) fun _ hn => hn

/-- Operands without a word between them. -/
theorem Reads.inJoined {word : Keyword} {words : List Keyword} {form : Node → Node → Form}
    {operand : Reading Node} (h : Reads operand lexemes (Follows (word :: words)) result)
    (hword : word ∉ words) :
    Reads (operand >>= joined word form operand bound) lexemes (Follows words) result :=
  (h.restrict (List.subset_cons_self _ _)).finish fun node hnode =>
    (reads_joined_none node).imp (fun _ hn => hn.ne (decide_eq_false hword)) fun _ ha => ha ▸ hnode

/-- Two operands with a word between them. -/
theorem Reads.joinedPair {word : Keyword} {words : List Keyword} {form : Node → Node → Form}
    {operand : Reading Node} (h : Reads operand lexemes (Follows (word :: words)) result)
    (h' : Reads operand lexemes' (Follows (word :: words)) result') (hbound : 0 < bound)
    (hword : word ∉ words) :
    Reads (operand >>= joined word form operand bound) (lexemes ++ .keyword word :: lexemes')
      (Follows words) fun node => ∃ position left right, node = .mk position (form left right) ∧
        result left ∧ result' right := by
  obtain ⟨bound, rfl⟩ : ∃ fewer, bound = fewer + 1 := ⟨bound - 1, by omega⟩
  refine h.bind (fun left hleft => ?_) fun _ _ => decide_eq_true List.mem_cons_self
  refine (reads_tookKeyword word).take fun | _, rfl => ?_
  refine (h'.restrict (List.subset_cons_self _ _)).finish fun right hright => ?_
  exact (reads_joined_none _).imp (fun _ hn => hn.ne (decide_eq_false hword)) fun _ ha =>
    ha ▸ ⟨_, left, right, rfl, hleft, hright⟩

/-- and an expression. -/
theorem Reads.inExpression (h : Reads (negation recur bound) lexemes (Follows [.and, .or]) result)
    (hstarts : Starts lexemes) : Reads (expression recur bound) lexemes (Follows []) result := by
  have hconjunction : Reads (conjunction recur bound) lexemes (Follows [.or]) result :=
    h.inJoined (by decide)
  have hdisjunction : Reads (disjunction recur bound) lexemes (Follows []) result :=
    hconjunction.inJoined (by decide)
  exact (reads_take?_none _).peek hdisjunction fun n _ => hstarts.next_ne rfl n

/-- Two negations with `and` between them are a conjunction. -/
theorem Reads.and (h : Reads (negation recur bound) lexemes (Follows [.and, .or]) result)
    (h' : Reads (negation recur bound) lexemes' (Follows [.and, .or]) result') (hbound : 0 < bound)
    (hstarts : Starts lexemes) :
    Reads (expression recur bound) (lexemes ++ .keyword .and :: lexemes') (Follows []) fun node =>
      ∃ position left right, node = .mk position (.and left right) ∧ result left ∧ result' right := by
  have hconjunction : Reads (conjunction recur bound) _ (Follows [.or]) _ :=
    h.joinedPair h' hbound (by decide)
  have hdisjunction : Reads (disjunction recur bound) _ (Follows []) _ :=
    hconjunction.inJoined (by decide)
  exact (reads_take?_none _).peek hdisjunction fun n _ => (hstarts.append _).next_ne rfl n

/-- Two with `or` between them are a disjunction. -/
theorem Reads.or (h : Reads (negation recur bound) lexemes (Follows [.and, .or]) result)
    (h' : Reads (negation recur bound) lexemes' (Follows [.and, .or]) result') (hbound : 0 < bound)
    (hstarts : Starts lexemes) :
    Reads (expression recur bound) (lexemes ++ .keyword .or :: lexemes') (Follows []) fun node =>
      ∃ position left right, node = .mk position (.or left right) ∧ result left ∧ result' right := by
  have hleft : Reads (conjunction recur bound) lexemes (Follows [.or]) result :=
    h.inJoined (by decide)
  have hright : Reads (conjunction recur bound) lexemes' (Follows [.or]) result' :=
    h'.inJoined (by decide)
  have hdisjunction : Reads (disjunction recur bound) _ (Follows []) _ :=
    hleft.joinedPair hright hbound (by decide)
  exact (reads_take?_none _).peek hdisjunction fun n _ => (hstarts.append _).next_ne rfl n

end Levels

end Ckl.Source
