import Ckl.Proofs.Source.Progress.Statement

/-!
# Reading comes to an end

The grammar calls itself for the phrases inside a phrase, and its loops go on as long as they find something.
`Grammar.Unbounded` says of a reader that it follows the grammar so, without a bound that it feels. There is
exactly one such reader: every phrase takes a token before it comes to those inside, so the recursion is no
deeper than there are tokens, and what stands below that depth is never asked. `Grammar.read` is this reader
wherever its bound is more than the number of tokens.

Every part of the grammar takes at least one token where it succeeds, except those that may be absent. So a
script that is read leaves nothing.
-/

namespace Ckl.Source

open Reading

namespace Grammar

/-- Reads a phrase with the given steps for the phrases inside it; `bound` limits the loops. -/
def level (recur : Recur) (bound : Nat) : Recur
  | .statement => statement recur bound
  | .expression => expression recur bound
  | .disjunction => disjunction recur bound
  | .sum => sum recur bound

/-- A reader that reads the phrases inside a phrase as it reads all phrases, with loops that no bound cuts
off. -/
def Unbounded (recur : Recur) : Prop :=
  ∀ phrase tokens bound, tokens.rest.length ≤ bound → recur phrase tokens = level recur bound phrase tokens

/-- Reads phrases down to a depth, and asks `bottom` for what is deeper. -/
def cutAt (bottom : Recur) : (depth : Nat) → Recur
  | 0 => bottom
  | depth + 1 => level (cutAt bottom depth) depth

/-- Reads a phrase with a bound that suffices for all tokens. -/
def reader : Recur := fun phrase tokens => read (tokens.rest.length + 1) phrase tokens

/-- What each part of the grammar takes, on fewer tokens than `bound`, if it succeeds. The parts that stand
behind a keyword or an opening bracket take their tokens behind it. -/
structure Progress (recur : Recur) (bound : Nat) : Prop where
  statements : ∀ stops, Takes bound List.length (Grammar.statements recur stops bound)
  statement : Takes bound (fun _ => 1) (Grammar.statement recur bound)
  require : ∀ position, Takes bound (fun _ => 1) (Grammar.require bound position)
  definition : ∀ position, Takes bound (fun _ => 1) (Grammar.definition recur bound position)
  bracketedNames : Takes bound (fun _ => 1) (Grammar.bracketedNames bound)
  loop : ∀ position, Takes bound (fun _ => 1) (Grammar.loop recur bound position)
  selection : Takes bound (fun _ => 0) Grammar.selection
  loopWhile : ∀ position, Takes bound (fun _ => 1) (Grammar.loopWhile recur position)
  assignment : Takes bound (fun _ => 1) (Grammar.assignment recur bound)
  expression : Takes bound (fun _ => 1) (Grammar.expression recur bound)
  choice : ∀ position, Takes bound (fun _ => 1) (Grammar.choice recur bound position)
  disjunction : Takes bound (fun _ => 1) (Grammar.disjunction recur bound)
  conjunction : Takes bound (fun _ => 1) (Grammar.conjunction recur bound)
  negation : Takes bound (fun _ => 1) (Grammar.negation recur bound)
  comparison : Takes bound (fun _ => 1) (Grammar.comparison recur bound)
  sum : Takes bound (fun _ => 1) (Grammar.sum recur bound)
  product : Takes bound (fun _ => 1) (Grammar.product recur bound)
  signed : Takes bound (fun _ => 1) (Grammar.signed recur bound)
  predicate : Takes bound (fun _ => 1) (Grammar.predicate recur bound)
  propertyArguments : ∀ word, Takes bound (fun _ => 0) (Grammar.propertyArguments recur bound word)
  suffixed : Takes bound (fun _ => 1) (Grammar.suffixed recur bound)
  pipeline : ∀ subject, Takes bound (fun _ => 1) (Grammar.pipeline recur bound subject)
  arguments : Takes bound (fun _ => 1) (Grammar.arguments recur bound)
  operand : Takes bound (fun _ => 1) (Grammar.operand recur bound)
  collection : ∀ kind form close position,
    Takes bound (fun _ => 1) (Grammar.collection recur bound kind form close position)
  item : Takes bound (fun _ => 1) (Grammar.item recur)
  map : ∀ position, Takes bound (fun _ => 1) (Grammar.map recur bound position)
  comprehension : ∀ kind element value position,
    Takes bound (fun _ => 1) (Grammar.comprehension recur kind element value position)
  object : ∀ position, Takes bound (fun _ => 1) (Grammar.object recur bound position)
  function : ∀ name position, Takes bound (fun _ => 1) (Grammar.function recur bound name position)
  block : ∀ position, Takes bound (fun _ => 1) (Grammar.block recur bound position)

end Grammar

open Grammar

variable {size bound bound' depth depth' : Nat} {recur recur' : Recur}

/-! ## From one level to the next -/

theorem Advances.symm {α : Type} {used : α → Nat} {step step' : Reading α}
    (h : Advances size used step step') : Advances size used step' step := by
  constructor
  · intro tokens htokens
    exact (h.same tokens htokens).symm
  · intro tokens a left htokens hstep
    exact h.takes tokens a left htokens ((h.same tokens htokens).symm.trans hstep)

/-- One level advances on one token more than what it asks for the phrases inside. -/
theorem advances_level (hr : Recur.Advances size recur recur') (hb : size ≤ bound) (hb' : size ≤ bound') :
    Recur.Advances (size + 1) (level recur bound) (level recur' bound') := by
  intro phrase
  cases phrase with
  | statement => exact advances_statement hr hb hb'
  | expression => exact advances_expression hr hb hb'
  | disjunction => exact advances_disjunction hr hb hb'
  | sum => exact advances_sum hr hb hb'

/-- What stands at the bottom is not asked where there are fewer tokens than the depth. -/
theorem advances_cutAt (bottom bottom' : Recur) (hdepth : size ≤ depth) (hdepth' : size ≤ depth') :
    Recur.Advances size (cutAt bottom depth) (cutAt bottom' depth') := by
  induction size generalizing depth depth' with
  | zero =>
    intro phrase
    exact .zero rfl
  | succ size ih =>
    obtain ⟨depth, rfl⟩ : ∃ fewer, depth = fewer + 1 := ⟨depth - 1, by omega⟩
    obtain ⟨depth', rfl⟩ : ∃ fewer, depth' = fewer + 1 := ⟨depth' - 1, by omega⟩
    exact advances_level (ih (by omega) (by omega)) (by omega) (by omega)

theorem read_succ (bound : Nat) : read (bound + 1) = level (read bound) bound := by
  funext phrase
  cases phrase <;> rfl

theorem read_eq_cutAt (bound : Nat) : read bound = cutAt (fun _ => fail .unexpectedEnd) bound := by
  induction bound with
  | zero => rfl
  | succ bound ih =>
    rw [read_succ, ih]
    rfl

/-! ## The reader -/

theorem advances_reader (bottom : Recur) (hdepth : size ≤ depth) :
    Recur.Advances size (cutAt bottom depth) reader := by
  intro phrase
  constructor
  · intro tokens htokens
    show read (tokens.rest.length + 1) phrase tokens = _
    rw [read_eq_cutAt]
    have hsize : tokens.rest.length + 1 ≤ size := htokens
    have hsame := advances_cutAt bottom (fun _ => fail .unexpectedEnd) (hsize.trans hdepth) le_rfl phrase
    exact hsame.same tokens (Nat.lt_succ_self _)
  · exact (advances_cutAt bottom bottom hdepth hdepth phrase).takes

theorem advances_reader_self (size : Nat) : Recur.Advances size reader reader := by
  intro phrase
  have h := advances_reader reader (le_refl size) phrase
  exact ⟨fun _ _ => rfl, h.symm.takes⟩

theorem unbounded_reader : Unbounded reader := by
  intro phrase tokens bound hbound
  have hread : Recur.Advances tokens.rest.length (read tokens.rest.length) reader := by
    rw [read_eq_cutAt]
    exact advances_reader _ le_rfl
  have hlevel := (advances_level hread le_rfl hbound phrase).same tokens (Nat.lt_succ_self _)
  rw [hlevel, ← read_succ]
  rfl

/-- Two readers without bounds are the same, by induction on the number of tokens. -/
theorem Grammar.Unbounded.advances (h : Unbounded recur) (h' : Unbounded recur') (size : Nat) :
    Recur.Advances size recur recur' := by
  induction size with
  | zero =>
    intro phrase
    exact .zero rfl
  | succ size ih =>
    intro phrase
    have hlevel := advances_level ih le_rfl le_rfl phrase
    constructor
    · intro tokens htokens
      rw [h phrase tokens size (by omega), h' phrase tokens size (by omega)]
      exact hlevel.same tokens htokens
    · intro tokens a left htokens hstep
      rw [h phrase tokens size (by omega)] at hstep
      exact hlevel.takes tokens a left htokens hstep

theorem Grammar.Unbounded.eq_reader (h : Unbounded recur) : recur = reader := by
  funext phrase tokens
  exact (unbounded_reader.advances h (tokens.rest.length + 1) phrase).same tokens (Nat.lt_succ_self _)

theorem progress_reader (bound : Nat) : Progress reader bound := by
  have hr := advances_reader_self bound
  have hb := le_refl bound
  -- the readers of expressions advance with one token more than the bound
  have hmore : ∀ {step step' : Reading Node}, Advances (bound + 1) (fun _ => 1) step step' →
      Takes bound (fun _ => 1) step := fun h => (h.less (Nat.le_succ bound) fun _ => le_rfl).takes
  constructor
  case statements => exact fun stops => (advances_statements hr hb hb stops).takes
  case statement => exact hmore (advances_statement hr hb hb)
  case require => exact fun position => (advances_require hb hb position).takes
  case definition => exact fun position => (advances_definition hr hb hb position).takes
  case bracketedNames => exact (advances_bracketedNames hb hb).takes
  case loop => exact fun position => (advances_loop hr hb hb position).takes
  case selection => exact advances_selection.takes
  case loopWhile => exact fun position => (advances_loopWhile hr position).takes
  case assignment => exact hmore (advances_assignment hr hb hb)
  case expression => exact hmore (advances_expression hr hb hb)
  case choice => exact fun position => (advances_choice hr hb hb position).takes
  case disjunction => exact hmore (advances_disjunction hr hb hb)
  case conjunction => exact hmore (advances_conjunction hr hb hb)
  case negation => exact hmore (advances_negation hr hb hb)
  case comparison => exact hmore (advances_comparison hr hb hb)
  case sum => exact hmore (advances_sum hr hb hb)
  case product => exact hmore (advances_product hr hb hb)
  case signed => exact hmore (advances_signed hr hb hb)
  case predicate => exact hmore (advances_predicate hr hb hb)
  case propertyArguments => exact fun word => (advances_propertyArguments hr hb hb word).takes
  case suffixed => exact hmore (advances_suffixed hr hb hb)
  case pipeline => exact fun subject => hmore (advances_pipeline hr hb hb subject)
  case arguments => exact (advances_arguments hr hb hb).takes
  case operand => exact hmore (advances_operand hr hb hb)
  case collection =>
    exact fun kind form close position => (advances_collection hr hb hb kind form close position).takes
  case item => exact (advances_item hr).takes
  case map => exact fun position => (advances_map hr hb hb position).takes
  case comprehension =>
    exact fun kind element value position => (advances_comprehension hr kind element value position).takes
  case object => exact fun position => (advances_object hr hb hb position).takes
  case function => exact fun name position => (advances_function hr hb hb name position).takes
  case block => exact fun position => (advances_block hr hb hb position).takes

/-! ## Scripts -/

/-- A step after which another one succeeded has succeeded itself. -/
theorem exists_of_bind_ok {α β : Type} {first : Reading α} {next : α → Reading β} {tokens left : Tokens}
    {b : β} (h : (first >>= next) tokens = .ok (b, left)) :
    ∃ a between, first tokens = .ok (a, between) ∧ next a between = .ok (b, left) := by
  cases hfirst : first tokens with
  | error fault => cases (bind_error hfirst).symm.trans h
  | ok found => exact ⟨found.1, found.2, rfl, (bind_ok hfirst).symm.trans h⟩

/-- Statements are read up to one of the keywords that end them, or to the end of the text. -/
theorem statements_stop (hr : Recur.Advances size recur recur) (hsize : size ≤ bound) {stops : List Keyword}
    {tokens left : Tokens} {nodes : List Node} (htokens : tokens.rest.length < size)
    (h : statements recur stops bound tokens = .ok (nodes, left)) :
    ∀ lexeme, left.ahead? 0 = some lexeme → ∃ word ∈ stops, lexeme = .keyword word := by
  induction bound generalizing size tokens nodes with
  | zero => omega
  | succ bound ih =>
    obtain ⟨_, behind, hsemicolons, h⟩ := exists_of_bind_ok h
    have hbehind := ((advances_takeAll _).takes _ _ _ htokens hsemicolons).2.2
    rw [ahead?_bind] at h
    split at h
    · next hstop =>
      cases h
      intro lexeme hlexeme
      rw [hlexeme] at hstop
      simpa using hstop
    · obtain ⟨first, after, hfirst, h⟩ := exists_of_bind_ok h
      obtain ⟨_, next, hsemicolon, h⟩ := exists_of_bind_ok h
      obtain ⟨rest, end', hrest, h⟩ := exists_of_bind_ok h
      have hafter := ((hr .statement).takes _ _ _ (by omega) hfirst).2.2
      have hnext := ((advances_take? _).takes _ _ _ (by omega : after.rest.length < size) hsemicolon).2.2
      cases h
      exact ih (hr.less (Nat.sub_le size 1)) (by omega) (by omega) hrest

/-- Reading comes to an end, takes tokens at every step and ignores none: the grammar has one reader without
bounds, whatever stands below a depth of more than the number of tokens; its parts take tokens; a script is
what this reader finds, and where it succeeds no token is left. -/
theorem reading_terminates :
    Unbounded reader ∧ (∀ recur, Unbounded recur → recur = reader) ∧
    (∀ bottom depth phrase tokens, tokens.rest.length < depth →
      cutAt bottom depth phrase tokens = reader phrase tokens) ∧
    (∀ bound, Progress reader bound) ∧
    ∀ (scan : Scan) (bound : Nat), scan.tokens.length < bound →
      scriptStatements scan = (statements reader [] bound).run' ⟨scan.tokens, scan.finish⟩ ∧
      ∀ nodes left, statements reader [] bound ⟨scan.tokens, scan.finish⟩ = .ok (nodes, left) →
        left.rest = [] := by
  refine ⟨unbounded_reader, fun recur => Unbounded.eq_reader, ?_, progress_reader, ?_⟩
  · intro bottom depth phrase tokens htokens
    exact ((advances_reader bottom le_rfl phrase).same tokens htokens).symm
  · intro scan bound hbound
    constructor
    · have hread : Recur.Advances (scan.tokens.length + 1) (read (scan.tokens.length + 1)) reader := by
        rw [read_eq_cutAt]
        exact advances_reader _ le_rfl
      have hsame := (advances_statements hread le_rfl hbound []).same ⟨scan.tokens, scan.finish⟩
        (Nat.lt_succ_self _)
      exact congrArg (Except.map Prod.fst) hsame.symm
    · intro nodes left h
      have hstop := statements_stop (advances_reader_self bound) le_rfl hbound h
      obtain ⟨rest, finish⟩ := left
      cases rest with
      | nil => rfl
      | cons token rest =>
        obtain ⟨word, hword, _⟩ := hstop token.lexeme rfl
        cases hword

end Ckl.Source
