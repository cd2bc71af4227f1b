import Ckl.Proofs.Source.Extension.Operand

/-!
# Operators, in a text that goes on

The steps that look for predicates in words and for `not in` look at several tokens at once. Where the text
ends among these the tokens left are an opening, and where it does not they see the same in both texts.
-/

namespace Ckl.Source

open Reading Grammar

variable {α : Type} [Placed α] {texts : Extension} {size bound bound' : Nat} {recur recur' : Recur}

/-! ## Words in a row -/

/-- A look at the words ahead takes nothing, and the rest goes on with what it has seen. -/
theorem upcoming_bind {α : Type} (lexemes : List Lexeme) (k : Bool → Reading α) (tokens : Tokens) :
    (upcoming lexemes >>= k) tokens = k (lexemes.isPrefixOf (tokens.rest.map Token.lexeme)) tokens := by
  have hcomes : lexemes.isPrefixOf (tokens.rest.map Token.lexeme) =
      (lexemes == (tokens.rest.take lexemes.length).map Token.lexeme) := by
    rw [Bool.eq_iff_iff, List.isPrefixOf_iff_prefix, beq_iff_eq, List.map_take, List.prefix_iff_eq_take]
  rw [hcomes]
  rfl

/-- A look at one lexeme ahead takes nothing. -/
theorem lexeme_ahead?_bind {α : Type} (offset : Nat) (k : Option Lexeme → Reading α) (tokens : Tokens) :
    (ahead? offset >>= k) tokens = k (tokens.rest.map Token.lexeme)[offset]? tokens := by
  rw [List.getElem?_map]
  rfl

/-- Two ways to go on, between which the next two lexemes decide. The first of them is an opening. -/
theorem Continues.ifPair (first second : Lexeme) (hfirst : [first] ∈ openings)
    (hsecond : second ≠ .symbol .semicolon) {yes yes' no no' : Reading α} {used : Nat}
    (hyes : ∀ place place' rest, rest.length + 2 < size →
      Outcome texts texts.Open used (⟨first, place⟩ :: ⟨second, place'⟩ :: rest)
        (yes (texts.short (⟨first, place⟩ :: ⟨second, place'⟩ :: rest)))
        (yes' (texts.long (⟨first, place⟩ :: ⟨second, place'⟩ :: rest))))
    (hno : Continues texts texts.Open size used no no') :
    Continues texts texts.Open size used
      (Reading.upcoming [first, second] >>= fun comes => if comes = true then yes else no)
      (Reading.upcoming [first, second] >>= fun comes => if comes = true then yes' else no') := by
  simp only [funext (upcoming_bind [first, second] _)]
  refine .window (List.isPrefixOf [first, second])
    (fun comes => if comes = true then yes else no) (fun comes => if comes = true then yes' else no') ?_ ?_ ?_
  · intro lexemes hne hnot more
    match lexemes with
    | [] => exact absurd rfl hne
    | [lexeme] =>
      have hlexeme : first ≠ lexeme := by
        rintro rfl
        exact hnot hfirst
      simp [List.isPrefixOf, hlexeme]
    | _ :: _ :: _ => rfl
  · have hfirst' : first ≠ .symbol .semicolon := by
      rintro rfl
      revert hfirst
      decide
    intro lexemes _ more
    match lexemes with
    | [] => simp [List.isPrefixOf, hfirst']
    | [lexeme] => simp [List.isPrefixOf, hsecond]
    | _ :: _ :: _ => rfl
  · intro front hfront
    split
    · next hpair =>
      match front with
      | [] => simp at hpair
      | [token] => simp [List.isPrefixOf] at hpair
      | ⟨lexeme, place⟩ :: ⟨lexeme', place'⟩ :: rest =>
        obtain ⟨rfl, rfl⟩ : first = lexeme ∧ second = lexeme' := by simpa [List.isPrefixOf] using hpair
        exact hyes place place' rest hfront
    · exact hno front hfront

/-- What stands behind a subject: nothing that belongs to it, a property, or a relation to something else.
The number is that of the words. -/
inductive PredicateWords where
  | none
  | property (count : Nat) (negated : Bool) (word function : String)
  | relation (count : Nat) (negated : Bool) (function : String)

/-- What the next lexemes say about a subject. -/
def predicateWords (lexemes : List Lexeme) : PredicateWords :=
  if List.isPrefixOf [.keyword .is] lexemes = true then
    let negated := List.isPrefixOf [.keyword .is, .keyword .not] lexemes
    let offset : Nat := if negated = true then 2 else 1
    match lexemes[offset]? with
    | some (.name word) =>
      match properties.lookup word with
      | some function => .property (offset + 1) negated word function
      | Option.none => .none
    | _ => .none
  else
    let negated := List.isPrefixOf [.keyword .not] lexemes
    let offset : Nat := if negated = true then 1 else 0
    match relation? lexemes[offset]? lexemes[offset + 1]? with
    | some (function, words) => .relation (offset + words) negated function
    | Option.none => .none

/-- The words of a predicate with what belongs to them. -/
def predicateTail (recur : Recur) (bound : Nat) (subject : Node) : PredicateWords → Reading Node
  | .none => return subject
  | .property count negated word function => do
    advance count
    let more ← propertyArguments recur bound word
    return .negatedIf negated subject.position (.mk subject.position
      (.call (.mk subject.position (.name function)) (⟨none, subject⟩ :: more)))
  | .relation count negated function => do
    advance count
    let argument ← recur .sum
    return .negatedIf negated subject.position (.callOf function subject.position [subject, argument])

/-- Behind the word that announces a property its tail is read. -/
theorem property?_eq (recur : Recur) (bound : Nat) (subject : Node) (tokens : Tokens)
    (his : List.isPrefixOf [.keyword .is] (tokens.rest.map Token.lexeme) = true) :
    (property? recur bound subject >>= fun found => pure (found.getD subject)) tokens =
      predicateTail recur bound subject (predicateWords (tokens.rest.map Token.lexeme)) tokens := by
  unfold property? predicateWords
  rw [if_pos his, bind_assoc, upcoming_bind]
  dsimp only
  rw [bind_assoc, lexeme_ahead?_bind]
  generalize List.isPrefixOf [.keyword .is, .keyword .not] (tokens.rest.map Token.lexeme) = negated
  generalize (tokens.rest.map Token.lexeme)[if negated = true then 2 else 1]? = found
  match found with
  | none => rfl
  | some (.name word) =>
    dsimp only
    generalize properties.lookup word = function
    cases function with
    | none => rfl
    | some function =>
      simp only [bind_assoc, pure_bind, Option.getD_some]
      rfl
  | some (.keyword _) | some (.boolean _) | some (.string _) | some (.whole _) | some (.decimal _)
  | some (.pattern _) | some (.symbol _) => rfl

/-- What stands behind the subject is decided by the next lexemes. -/
theorem predicate_eq (recur : Recur) (bound : Nat) : predicate recur bound =
    suffixed recur bound >>= fun subject tokens =>
      predicateTail recur bound subject (predicateWords (tokens.rest.map Token.lexeme)) tokens := by
  unfold predicate
  congr 1
  funext subject tokens
  rw [upcomingKeyword, upcoming_bind]
  split
  · next his => exact property?_eq recur bound subject tokens his
  · next his =>
    unfold predicateWords
    rw [if_neg his, upcomingKeyword, upcoming_bind]
    dsimp only
    rw [lexeme_ahead?_bind, lexeme_ahead?_bind]
    generalize List.isPrefixOf [.keyword .not] (tokens.rest.map Token.lexeme) = negated
    generalize relation? _ _ = found
    cases found <;> rfl

/-- Only two of the words for a relation need a look at the word behind them. -/
theorem relation?_final {first : Lexeme} (hstarts : first ≠ .name "starts") (hends : first ≠ .name "ends")
    (second second' : Option Lexeme) : relation? (some first) second = relation? (some first) second' := by
  unfold relation?
  split
  · next h => exact absurd (Option.some.inj h) hstarts
  · next h => exact absurd (Option.some.inj h) hends
  all_goals rfl

/-- What is said about a subject is final where the lexemes are no opening. -/
theorem predicateWords_append {lexemes : List Lexeme} (hne : lexemes ≠ []) (hnot : lexemes ∉ openings)
    (more : List Lexeme) : predicateWords (lexemes ++ more) = predicateWords lexemes := by
  match lexemes with
  | [] => exact absurd rfl hne
  | [first] =>
    have his : Lexeme.keyword .is ≠ first := fun h => hnot (h ▸ by decide)
    have hno : Lexeme.keyword .not ≠ first := fun h => hnot (h ▸ by decide)
    have hstarts : first ≠ .name "starts" := fun h => hnot (h ▸ by decide)
    have hends : first ≠ .name "ends" := fun h => hnot (h ▸ by decide)
    have hfinal := relation?_final hstarts hends more[0]? none
    simp [predicateWords, List.isPrefixOf, his, hno, hfinal]
  | [first, second] =>
    by_cases his : Lexeme.keyword .is = first
    · have hno : Lexeme.keyword .not ≠ second := fun h => hnot (h ▸ his ▸ by decide)
      simp [predicateWords, List.isPrefixOf, ← his, hno]
    by_cases hno : Lexeme.keyword .not = first
    · have hstarts : second ≠ .name "starts" := fun h => hnot (h ▸ hno ▸ by decide)
      have hends : second ≠ .name "ends" := fun h => hnot (h ▸ hno ▸ by decide)
      have hfinal := relation?_final hstarts hends more[0]? none
      simp [predicateWords, List.isPrefixOf, ← hno, hfinal]
    · simp [predicateWords, List.isPrefixOf, his, hno]
  | first :: second :: third :: rest =>
    -- three lexemes are all that is looked at
    by_cases his : Lexeme.keyword .is = first
    · by_cases hno : Lexeme.keyword .not = second
      · simp [predicateWords, List.isPrefixOf, ← his, ← hno]
      · simp [predicateWords, List.isPrefixOf, ← his, hno]
    by_cases hno : Lexeme.keyword .not = first
    · simp [predicateWords, List.isPrefixOf, ← hno]
    · simp [predicateWords, List.isPrefixOf, his, hno]

/-- A semicolon behind an opening of a predicate adds nothing to it. -/
theorem predicateWords_semicolon {lexemes : List Lexeme} (h : lexemes ∈ [] :: openings)
    (more : List Lexeme) :
    predicateWords (lexemes ++ .symbol .semicolon :: more) = predicateWords lexemes := by
  simp only [openings, List.mem_cons, List.not_mem_nil, or_false] at h
  rcases h with rfl | rfl | rfl | rfl | rfl | rfl | rfl | rfl | rfl <;> rfl

/-- A property takes no more words than there are. -/
theorem length_of_property {lexemes : List Lexeme} {count : Nat} {negated : Bool} {word function : String}
    (h : predicateWords lexemes = .property count negated word function) : count ≤ lexemes.length := by
  unfold predicateWords at h
  dsimp only at h
  split at h
  · split at h
    · next hword =>
      split at h
      · cases h
        have := (List.getElem?_eq_some_iff.mp hword).1
        omega
      · cases h
    · cases h
  · split at h <;> cases h

/-- A relation takes as many words as there are lexemes. -/
theorem words_of_relation? {first second : Option Lexeme} {function : String} {words : Nat}
    (h : relation? first second = some (function, words)) :
    (words = 1 ∧ ∃ lexeme, first = some lexeme) ∨ (words = 2 ∧ ∃ lexeme, second = some lexeme) := by
  unfold relation? at h
  split at h
  · split at h <;> cases h
    next hwith => exact .inr ⟨rfl, _, hwith⟩
  · split at h <;> cases h
    next hwith => exact .inr ⟨rfl, _, hwith⟩
  · cases h
    exact .inl ⟨rfl, _, rfl⟩
  · cases h
    exact .inl ⟨rfl, _, rfl⟩
  · cases h

/-- A relation takes no more words than there are. -/
theorem length_of_relation {lexemes : List Lexeme} {count : Nat} {negated : Bool} {function : String}
    (h : predicateWords lexemes = .relation count negated function) : count ≤ lexemes.length := by
  unfold predicateWords at h
  dsimp only at h
  split at h
  · split at h
    · split at h <;> cases h
    · cases h
  · split at h
    · next hrelation =>
      cases h
      rcases words_of_relation? hrelation with ⟨rfl, _, hfirst⟩ | ⟨rfl, _, hsecond⟩
      · have := (List.getElem?_eq_some_iff.mp hfirst).1
        omega
      · have := (List.getElem?_eq_some_iff.mp hsecond).1
        omega
    · cases h

/-! ## Operands in a row -/

/-- Operands with operators between them. -/
theorem continues_chain (functions : List (Symbol × String)) (hfunctions : functions.lookup .semicolon = none)
    {operand operand' : Reading Node} (hoperand : Continues texts texts.Open size 1 operand operand')
    (hb : size ≤ bound) (hb' : size ≤ bound') (left : Node) :
    Continues texts texts.Open size 0 (chain functions operand bound left)
      (chain functions operand' bound' (left.relocate texts.move)) := by
  refine .loopFrom (chain functions operand) (chain functions operand')
    (fun size bound bound' hsize _ _ ih left => ?_) hb hb' left
  have hnone : Continues texts texts.Open (size + 1) 0 (pure left) (pure (left.relocate texts.move)) :=
    .pure rfl
  refine .peekOpen ?_ hnone fun ⟨lexeme, place⟩ rest hrest => ?_
  · dsimp only
    rw [hfunctions]
  cases lexeme with
  | symbol mark =>
    dsimp only
    cases functions.lookup mark with
    | none => exact hnone _ hrest
    | some function =>
      refine .next ((hoperand.less hsize.le le_rfl).andThen fun right => ?_) (by omega) (Nat.zero_le (0 + 1))
      have hcall := ih (.callOf function place [left, right])
      rw [relocate_node, relocate_callOf] at hcall
      exact hcall.less (by omega) le_rfl
  | _ => exact hnone _ hrest

/-- Links of a chain are moved one by one. -/
theorem relocate_chain (move : Position → Position) (left : Node) (links : List Link) :
    (Link.chain left links).relocate move = Link.chain (left.relocate move) (Placed.relocate move links) := by
  have hcalls : ∀ left : Node, Link.calls (left.relocate move) (Placed.relocate move links) =
      Placed.relocate move (Link.calls left links) := by
    induction links with
    | nil => exact fun _ => rfl
    | cons link links ih =>
      intro left
      have hcall := relocate_callOf move link.function link.position [left, link.right]
      exact congrArg₂ List.cons hcall.symm (ih link.right)
  have hconjunction : ∀ (rest : List Node) (first : Node), (first.conjunction rest).relocate move =
      (first.relocate move).conjunction (Placed.relocate move rest) := by
    intro rest
    induction rest with
    | nil => exact fun _ => rfl
    | cons node rest ih =>
      intro first
      refine (ih _).trans ?_
      rw [relocate_mk, ← position_relocate move first]
      rfl
  unfold Link.chain
  rw [hcalls]
  cases Link.calls left links with
  | nil => rfl
  | cons first rest => exact hconjunction rest first

/-- A sign of comparison, which can be one word or two. -/
theorem continues_comparison? : Continues texts texts.Open size 0 comparison? comparison? := by
  have hnone : Continues texts texts.Open size 0 (pure (none : Option (String × Position))) (pure none) :=
    .pure rfl
  refine .peekOpen rfl hnone fun ⟨lexeme, place⟩ rest hrest => ?_
  cases lexeme with
  | keyword word =>
    cases word with
    | is =>
      have hrest' : rest.length < size := by omega
      refine .next ?_ hrest' (Nat.zero_le (0 + 1))
      exact .take? (Extension.opens nofun) (fun position => .pure rfl) (.pure rfl)
    | _ => exact hnone _ hrest
  | symbol mark =>
    dsimp only
    cases comparisonFunctions.lookup mark with
    | none => exact hnone _ hrest
    | some function =>
      have hleft : Leaves 0 rest (⟨.symbol mark, place⟩ :: rest) :=
        (Leaves.tail _ rest).trans (.refl rest) (Nat.zero_le (1 + 0))
      exact .settled _ rest hleft rfl rfl
  | _ => exact hnone _ hrest

/-- Operands with signs of comparison between them. -/
theorem continues_links {operand operand' : Reading Node}
    (hoperand : Continues texts texts.Open size 1 operand operand')
    (hb : size ≤ bound) (hb' : size ≤ bound') :
    Continues texts texts.Open size 0 (links operand bound) (links operand' bound') := by
  refine .loop (fun size bound bound' hsize _ _ ih => ?_) hb hb'
  refine continues_comparison?.andThen fun found => ?_
  cases found with
  | none => exact .pure rfl
  | some found =>
    refine (hoperand.less hsize le_rfl).andThen fun right => ?_
    exact (ih.less (by omega) le_rfl).andThen fun more => .pure rfl

/-- Operands with a keyword between them. -/
theorem continues_joined (word : Keyword) {form : Node → Node → Form}
    (hform : ∀ left right, (form left right).relocate texts.move =
      form (left.relocate texts.move) (right.relocate texts.move))
    {operand operand' : Reading Node} (hoperand : Continues texts texts.Open size 1 operand operand')
    (hb : size ≤ bound) (hb' : size ≤ bound') (left : Node) :
    Continues texts texts.Open size 0 (joined word form operand bound left)
      (joined word form operand' bound' (left.relocate texts.move)) := by
  refine .loopFrom (joined word form operand) (joined word form operand')
    (fun size bound bound' hsize _ _ ih left => ?_) hb hb' left
  refine .ifKeyword ((hoperand.less (by omega) le_rfl).andThen fun right => ?_) (.pure rfl)
  have hboth := ih (.mk left.position (form left right))
  rw [relocate_node, relocate_mk, hform, ← position_relocate texts.move left] at hboth
  exact hboth.less (by omega) le_rfl

section Phrases

variable (hr : Recurs texts size recur recur') (hb : size ≤ bound) (hb' : size ≤ bound')
include hr hb hb'

/-! ## Predicates -/

/-- The arguments of a property, continued by more text. -/
theorem continues_options :
    Continues texts texts.Open size 0 (options recur bound bound) (options recur' bound' bound') := by
  have hsuffixed := continues_suffixed hr hb hb'
  refine .loop (fun size left left' hsize _ _ ih => ?_) hb hb'
  have hnone : Continues texts texts.Open (size + 1) 0 (pure ([] : List (Argument Node))) (pure []) :=
    .pure rfl
  refine .peekOpen rfl hnone fun ⟨lexeme, place⟩ rest hrest => ?_
  cases lexeme with
  | name name =>
    dsimp only
    split
    · have hvalue := hsuffixed.less (by omega : size ≤ _) le_rfl
      refine .advance (hvalue.andThen fun value => ?_) (by omega) (Nat.zero_le (0 + 1))
      exact (ih.less (by omega) le_rfl).andThen fun more => .pure rfl
    · exact hnone _ hrest
  | _ => exact hnone _ hrest

/-- A word with options goes on as its options do. -/
theorem continues_propertyArguments (word : String) :
    Continues texts texts.Open size 0 (propertyArguments recur bound word)
      (propertyArguments recur' bound' word) := by
  unfold propertyArguments
  split
  · refine .ifPair (.name "with") (.name "hour") (by decide) nofun (fun place place' rest hrest => ?_)
      (.pure rfl)
    exact .settled _ rest ((Leaves.tail _ _).trans (.tail _ _) (Nat.zero_le (1 + 1))) rfl rfl
  split
  · exact continues_options hr hb hb'
  · exact .pure rfl

/-- A predicate, continued by more text. -/
theorem continues_predicate :
    Continues texts texts.Open (size + 1) 1 (predicate recur bound) (predicate recur' bound') := by
  rw [predicate_eq, predicate_eq]
  refine (continues_suffixed hr hb hb').bind fun subject => ?_
  refine .window predicateWords (predicateTail recur bound subject)
    (predicateTail recur' bound' (subject.relocate texts.move)) (fun _ => predicateWords_append)
    (fun _ => predicateWords_semicolon) fun front hfront => ?_
  cases hwords : predicateWords (front.map Token.lexeme) with
  | none => exact .settled subject front (.refl front) rfl rfl
  | property count negated word function =>
    have hcount : count ≤ front.length := by simpa using length_of_property hwords
    refine Outcome.advanceBy ((continues_propertyArguments hr hb hb' word).andThen fun more => ?_) hcount
      (by omega) (Nat.zero_le (0 + count))
    exact .pure (by simp)
  | relation count negated function =>
    have hcount : count ≤ front.length := by simpa using length_of_relation hwords
    refine Outcome.advanceBy ((hr.phrase .sum).andThen fun argument => ?_) hcount
      (by omega) (Nat.zero_le (0 + count))
    exact .pure (by simp)

/-! ## Arithmetic -/

/-- A signed operand, continued by more text. -/
theorem continues_signed :
    Continues texts texts.Open (size + 1) 1 (signed recur bound) (signed recur' bound') := by
  refine (continues_takeAll (.symbol .minus) (Extension.opens nofun)).andThen fun signs => ?_
  refine (continues_predicate hr hb hb').bind fun operand => .pure ?_
  induction signs with
  | nil => rfl
  | cons sign signs ih => exact (congrArg (Node.opposite _) ih).trans (relocate_opposite _ _ _).symm

/-- A product, continued by more text. -/
theorem continues_product :
    Continues texts texts.Open (size + 1) 1 (product recur bound) (product recur' bound') := by
  have hsigned := continues_signed hr hb hb'
  exact hsigned.bind fun left => continues_chain _ rfl (hsigned.less (Nat.le_succ size) le_rfl) hb hb' left

/-- A sum, continued by more text. -/
theorem continues_sum : Continues texts texts.Open (size + 1) 1 (sum recur bound) (sum recur' bound') := by
  have hproduct := continues_product hr hb hb'
  exact hproduct.bind fun left => continues_chain _ rfl (hproduct.less (Nat.le_succ size) le_rfl) hb hb' left

/-! ## Comparisons and logic -/

/-- A chain of comparisons, continued by more text. -/
theorem continues_comparison :
    Continues texts texts.Open (size + 1) 1 (comparison recur bound) (comparison recur' bound') := by
  have hsum := continues_sum hr hb hb'
  have hsum' := hsum.less (Nat.le_succ size) le_rfl
  refine hsum.bind fun left => .ifKeyword ?_ ?_
  · refine (hsum'.less (by omega) le_rfl).andThen fun right => .pure ?_
    simp
  refine .ifPair (.keyword .not) (.keyword .in) (by decide) nofun (fun place place' rest hrest => ?_) ?_
  · refine Outcome.advanceBy (hsum'.andThen fun right => .pure ?_) (by simp) (by simp; omega)
      (Nat.zero_le (0 + 2))
    simp
  · exact (continues_links hsum' hb hb').andThen fun found => .pure (relocate_chain _ _ _).symm

/-- A negation, continued by more text. -/
theorem continues_negation :
    Continues texts texts.Open (size + 1) 1 (negation recur bound) (negation recur' bound') := by
  refine (continues_takeAll (.keyword .not) (Extension.opens nofun)).andThen fun places => ?_
  refine (continues_comparison hr hb hb').bind fun operand => .pure ?_
  induction places with
  | nil => rfl
  | cons place places ih => exact congrArg (fun node => Node.mk (texts.move place) (.not node)) ih

/-- A conjunction, continued by more text. -/
theorem continues_conjunction :
    Continues texts texts.Open (size + 1) 1 (conjunction recur bound) (conjunction recur' bound') := by
  have hnegation := continues_negation hr hb hb'
  exact hnegation.bind fun left =>
    continues_joined .and (fun _ _ => rfl) (hnegation.less (Nat.le_succ size) le_rfl) hb hb' left

/-- A disjunction, continued by more text. -/
theorem continues_disjunction :
    Continues texts texts.Open (size + 1) 1 (disjunction recur bound) (disjunction recur' bound') := by
  have hconjunction := continues_conjunction hr hb hb'
  exact hconjunction.bind fun left =>
    continues_joined .or (fun _ _ => rfl) (hconjunction.less (Nat.le_succ size) le_rfl) hb hb' left

/-- An expression, continued by more text. -/
theorem continues_expression :
    Continues texts texts.Open (size + 1) 1 (expression recur bound) (expression recur' bound') := by
  refine .take? (Extension.opens nofun) (fun position => ?_) (continues_disjunction hr hb hb')
  exact (continues_choice hr hb hb' position).less (by omega) (by omega)

end Phrases

end Ckl.Source
