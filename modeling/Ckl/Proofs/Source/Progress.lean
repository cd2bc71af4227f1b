import Ckl.Proofs.Source.Extension

/-!
# Tokens that are taken

A reading step takes tokens from the front and leaves the others; `Takes` says how many it takes at least,
which may depend on what it finds. What the bounds of the grammar are for is said by `Advances`: two steps,
which differ in their bounds, do the same on all tokens up to a number and take some of them. Steps one after
the other advance if each of them does, and a loop advances as far as its bounds reach if it takes a token
each time around, for then the tokens come to an end before the bounds do.
-/

namespace Ckl.Source

open Reading Grammar

variable {α β : Type} {size size' : Nat} {used used' : α → Nat} {total : β → Nat}

/-! ## Steps that take tokens -/

/-- Where the step succeeds on tokens that are less than `size`, it leaves the end of them, and has taken at
least as many as `used` tells for its result. -/
def Takes (size : Nat) (used : α → Nat) (step : Reading α) : Prop :=
  ∀ tokens a left, tokens.rest.length < size → step tokens = .ok (a, left) →
    left.finish = tokens.finish ∧ Leaves (used a) left.rest tokens.rest

/-- On tokens that are less than `size` the two steps do the same, and take some of them. -/
structure Advances (size : Nat) (used : α → Nat) (step step' : Reading α) : Prop where
  same : ∀ tokens, tokens.rest.length < size → step' tokens = step tokens
  takes : Takes size used step

namespace Advances

variable {step step' first first' : Reading α} {next next' : α → Reading β}

/-- For fewer tokens, of which fewer are taken. -/
theorem less (h : Advances size used step step') (hsize : size' ≤ size) (hused : ∀ a, used' a ≤ used a) :
    Advances size' used' step step' := by
  constructor
  · intro tokens htokens
    exact h.same tokens (by omega)
  · intro tokens a left htokens hstep
    obtain ⟨hfinish, hsuffix, hlength⟩ := h.takes tokens a left (by omega) hstep
    have := hused a
    exact ⟨hfinish, hsuffix, by omega⟩

/-- With no tokens left there is nothing to compare. -/
theorem zero (h : size = 0) : Advances size used step step' :=
  ⟨fun _ htokens => absurd htokens (by omega), fun _ _ _ htokens => absurd htokens (by omega)⟩

/-- A step that always fails takes whatever it is said to. -/
theorem failing (h : ∀ tokens, ∃ fault, step tokens = .error fault) : Advances size used step step := by
  refine ⟨fun _ _ => rfl, fun tokens a left _ hstep => ?_⟩
  obtain ⟨fault, hfault⟩ := h tokens
  cases hfault.symm.trans hstep

/-- A result that is there already takes nothing. -/
theorem pure {a : α} (h : used a = 0) : Advances size used (Pure.pure a) (Pure.pure a) := by
  refine ⟨fun _ _ => rfl, fun tokens a' left _ hstep => ?_⟩
  cases hstep
  rw [h]
  exact ⟨rfl, .refl _⟩

/-- Two steps one after the other. -/
theorem bind (h : Advances size used first first')
    (h' : ∀ a, Advances (size - used a) (fun b => total b - used a) (next a) (next' a)) :
    Advances size total (first >>= next) (first' >>= next') := by
  constructor
  · intro tokens htokens
    have hsame := h.same tokens htokens
    cases hfirst : first tokens with
    | error fault => rw [bind_error hfirst, bind_error (hsame.trans hfirst)]
    | ok found =>
      obtain ⟨a, left⟩ := found
      have hleft := (h.takes tokens a left htokens hfirst).2.2
      rw [bind_ok hfirst, bind_ok (hsame.trans hfirst)]
      exact (h' a).same left (by omega)
  · intro tokens b left htokens hboth
    cases hfirst : first tokens with
    | error fault => cases (bind_error hfirst).symm.trans hboth
    | ok found =>
      obtain ⟨a, between⟩ := found
      obtain ⟨hfinish, hbetween⟩ := h.takes tokens a between htokens hfirst
      have hlength := hbetween.2
      rw [bind_ok hfirst] at hboth
      obtain ⟨hfinish', hleft⟩ := (h' a).takes between b left (by omega) hboth
      have htotal : total b ≤ used a + (total b - used a) := by omega
      exact ⟨hfinish'.trans hfinish, hbetween.trans hleft htotal⟩

/-- A step whose result need not be there. -/
theorem optional (h : Advances size used step step') :
    Advances size (fun _ => 0) (some <$> step) (some <$> step') := by
  rw [map_eq_pure_bind, map_eq_pure_bind]
  apply h.bind
  intro a
  exact .pure (Nat.zero_sub _)

/-- Two ways that lead to the same step. -/
theorem branch {choose choose' : Reading Bool} {yes yes' no no' : Reading α}
    (h : Advances size (fun _ => 0) (choose >>= fun way => if way = true then yes else no)
      (choose' >>= fun way => if way = true then yes' else no'))
    (h' : ∀ a, Advances size total (next a) (next' a)) :
    Advances size total (choose >>= fun way => if way = true then yes >>= next else no >>= next)
      (choose' >>= fun way => if way = true then yes' >>= next' else no' >>= next') := by
  rw [bind_branch, bind_branch]
  exact h.bind h'

/-- A loop that takes a token each time around, with its result so far. The induction is on the number of
tokens: where none is left to be read nothing is said, so the bounds are never reached. -/
theorem loopFrom {γ : Type} (loop loop' : Nat → γ → Reading α) {most : Nat}
    (h : ∀ size bound bound', size < most → size ≤ bound → size ≤ bound' →
      (∀ c, Advances size used (loop bound c) (loop' bound' c)) →
      ∀ c, Advances (size + 1) used (loop (bound + 1) c) (loop' (bound' + 1) c))
    {bound bound' : Nat} (hbound : most ≤ bound) (hbound' : most ≤ bound') (c : γ) :
    Advances most used (loop bound c) (loop' bound' c) := by
  suffices ∀ size ≤ most, ∀ bound bound', size ≤ bound → size ≤ bound' → ∀ c,
      Advances size used (loop bound c) (loop' bound' c) from
    this most le_rfl bound bound' hbound hbound' c
  intro size
  induction size with
  | zero =>
    intro _ _ _ _ _ _
    exact .zero rfl
  | succ size ih =>
    intro hsize bound bound' hbound hbound'
    obtain ⟨bound, rfl⟩ : ∃ fewer, bound = fewer + 1 := ⟨bound - 1, by omega⟩
    obtain ⟨bound', rfl⟩ : ∃ fewer, bound' = fewer + 1 := ⟨bound' - 1, by omega⟩
    exact h size bound bound' hsize (by omega) (by omega)
      (ih (by omega) bound bound' (by omega) (by omega))

/-- A loop that takes a token each time around. -/
theorem loop {loop loop' : Nat → Reading α} {most : Nat}
    (h : ∀ size bound bound', size < most → size ≤ bound → size ≤ bound' →
      Advances size used (loop bound) (loop' bound') →
      Advances (size + 1) used (loop (bound + 1)) (loop' (bound' + 1)))
    {bound bound' : Nat} (hbound : most ≤ bound) (hbound' : most ≤ bound') :
    Advances most used (loop bound) (loop' bound') :=
  loopFrom (fun bound (_ : Unit) => loop bound) (fun bound (_ : Unit) => loop' bound)
    (fun size bound bound' hsize hbound hbound' ih _ => h size bound bound' hsize hbound hbound' (ih ()))
    hbound hbound' ()

end Advances

/-! ## Single tokens -/

/-- A step without a bound advances if it takes what it should. -/
theorem Takes.advances {step : Reading α} (h : Takes size used step) : Advances size used step step :=
  ⟨fun _ _ => rfl, h⟩

/-- A failure gives no result that would have to take a token. -/
theorem advances_fail (cause : FaultCause) : Advances size used (fail cause) (fail cause) := by
  apply Advances.failing
  intro ⟨rest, finish⟩
  cases rest with
  | nil => exact ⟨_, rfl⟩
  | cons token rest => exact ⟨_, rfl⟩

/-- A failure at a place gives no result that would have to take a token. -/
theorem advances_failAt (position : Position) (cause : FaultCause) :
    Advances size used (failAt position cause) (failAt position cause) :=
  .failing fun _ => ⟨_, rfl⟩

/-- What can fail without a look at the tokens. -/
theorem advances_lift (found : Except Fault α) :
    Advances size (fun _ => 0) (liftM found : Reading α) (liftM found) := by
  cases found with
  | error fault => exact .failing fun _ => ⟨fault, rfl⟩
  | ok a => exact .pure rfl

/-- A look ahead takes nothing. -/
theorem advances_ahead? (offset : Nat) : Advances size (fun _ => 0) (ahead? offset) (ahead? offset) := by
  apply Takes.advances
  intro tokens a left _ hstep
  cases hstep
  exact ⟨rfl, .refl _⟩

/-- A look at the words ahead takes nothing. -/
theorem advances_upcoming (lexemes : List Lexeme) :
    Advances size (fun _ => 0) (upcoming lexemes) (upcoming lexemes) := by
  apply Takes.advances
  intro tokens a left _ hstep
  cases hstep
  exact ⟨rfl, .refl _⟩

/-- Passing tokens over brings none back, but it may be that none is left. -/
theorem advances_advance (count : Nat) : Advances size (fun _ => 0) (advance count) (advance count) := by
  apply Takes.advances
  intro tokens a left _ hstep
  cases hstep
  exact ⟨rfl, List.drop_suffix _ _, (List.drop_suffix _ _).length_le⟩

/-- The next token is taken. -/
theorem advances_next : Advances size (fun _ => 1) next next := by
  apply Takes.advances
  intro ⟨rest, finish⟩ a left _ hstep
  cases rest with
  | nil => cases hstep
  | cons token rest =>
    cases hstep
    exact ⟨rfl, .tail _ _⟩

/-- A lexeme is taken if it is there. -/
theorem advances_take? (lexeme : Lexeme) :
    Advances size (fun found => found.isSome.toNat) (take? lexeme) (take? lexeme) := by
  apply Takes.advances
  intro ⟨rest, finish⟩ a left _ hstep
  cases rest with
  | nil =>
    cases hstep
    exact ⟨rfl, .refl _⟩
  | cons token rest =>
    by_cases htoken : token.lexeme = lexeme
    · cases (if_pos htoken).symm.trans hstep
      exact ⟨rfl, .tail _ _⟩
    · cases (if_neg htoken).symm.trans hstep
      exact ⟨rfl, .refl _⟩

/-- All repetitions of a lexeme are taken, if there are any. -/
theorem advances_takeAll (lexeme : Lexeme) :
    Advances size (fun _ => 0) (takeAll lexeme) (takeAll lexeme) := by
  apply Takes.advances
  intro tokens a left _ hstep
  cases hstep
  exact ⟨rfl, List.dropWhile_suffix _, (List.dropWhile_suffix _).length_le⟩

/-- A lexeme that is expected is taken. -/
theorem advances_expect (lexeme : Lexeme) (what : Expectation) :
    Advances size (fun _ => 1) (expect lexeme what) (expect lexeme what) := by
  apply Takes.advances
  intro ⟨rest, finish⟩ a left _ hstep
  cases rest with
  | nil => cases hstep
  | cons token rest =>
    by_cases htoken : token.lexeme = lexeme
    · cases (if_pos htoken).symm.trans hstep
      exact ⟨rfl, .tail _ _⟩
    · cases (if_neg htoken).symm.trans hstep

/-- A name that is expected is taken. -/
theorem advances_expectName (what : Expectation) :
    Advances size (fun _ => 1) (expectName what) (expectName what) := by
  apply Takes.advances
  intro ⟨rest, finish⟩ a left _ hstep
  cases rest with
  | nil => cases hstep
  | cons token rest =>
    obtain ⟨lexeme, position⟩ := token
    cases lexeme with
    | name word =>
      cases hstep
      exact ⟨rfl, .tail _ _⟩
    | _ => cases hstep

namespace Advances

variable {lexeme : Lexeme} {yes yes' no no' : Reading α}

/-- A look at the lexemes ahead. -/
theorem look {offset : Nat} {k k' : Option Lexeme → Reading α}
    (h : ∀ found, Advances size used (k found) (k' found)) :
    Advances size used (ahead? offset >>= k) (ahead? offset >>= k') := (advances_ahead? offset).bind h

/-- Two ways to go on, between which the next lexemes decide. -/
theorem ifUpcoming {lexemes : List Lexeme} (hyes : Advances size used yes yes')
    (hno : Advances size used no no') :
    Advances size used (upcoming lexemes >>= fun comes => if comes = true then yes else no)
      (upcoming lexemes >>= fun comes => if comes = true then yes' else no') := by
  apply (advances_upcoming lexemes).bind
  intro comes
  cases comes with
  | true => exact hyes
  | false => exact hno

/-- A token that is taken if it comes next. -/
theorem take? {k k' : Option Position → Reading α}
    (hsome : ∀ position, Advances (size - 1) (fun a => used a - 1) (k (some position))
      (k' (some position)))
    (hnone : Advances size used (k none) (k' none)) :
    Advances size used (take? lexeme >>= k) (take? lexeme >>= k') := by
  apply (advances_take? lexeme).bind
  intro found
  cases found with
  | some position => exact hsome position
  | none => exact hnone

/-- Two ways to go on, of which the first is taken with a token. -/
theorem ifTook (hyes : Advances (size - 1) (fun a => used a - 1) yes yes')
    (hno : Advances size used no no') :
    Advances size used
      ((do return (← Reading.take? lexeme).isSome) >>= fun took => if took = true then yes else no)
      ((do return (← Reading.take? lexeme).isSome) >>= fun took => if took = true then yes' else no') := by
  simp only [bind_assoc, pure_bind]
  exact .take? (fun _ => hyes) hno

end Advances

/-! ## Items with commas between them -/

section Separated

variable {item item' : Reading α} {bound bound' : Nat} (hitem : Advances size (fun _ => 1) item item')
  (hb : size ≤ bound) (hb' : size ≤ bound')

include hitem hb hb'

/-- Items between commas take a token each. -/
theorem advances_separated :
    Advances size (fun _ => 1) (separated item bound) (separated item' bound') := by
  apply Advances.loop _ hb hb'
  intro size bound bound' hsize _ _ ih
  apply (hitem.less hsize fun _ => le_rfl).bind
  intro first
  apply Advances.ifTook
  · exact (ih.less (by omega) fun _ => le_rfl).bind fun rest => .pure rfl
  · exact .pure rfl

/-- Items up to a closing symbol take the symbol at least. -/
theorem advances_separatedBefore (close : Symbol) :
    Advances size (fun _ => 1) (separatedBefore close item bound) (separatedBefore close item' bound') := by
  apply Advances.loop _ hb hb'
  intro size bound bound' hsize _ _ ih
  apply (hitem.less hsize fun _ => le_rfl).bind
  intro first
  apply Advances.ifTook
  · apply Advances.ifUpcoming
    · exact .pure rfl
    · exact (ih.less (by omega) fun _ => le_rfl).bind fun rest => .pure rfl
  · exact .pure rfl

end Separated

end Ckl.Source
