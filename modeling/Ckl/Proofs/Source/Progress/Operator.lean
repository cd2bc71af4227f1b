import Ckl.Proofs.Source.Progress.Operand

/-!
# Tokens that operators take

An expression begins with an operand, which takes a token, and every operator behind it takes one too before
the next operand is read. Words that turn out not to be a predicate are left where they are.
-/

namespace Ckl.Source

open Reading Grammar

variable {size bound bound' : Nat} {recur recur' : Recur}

/-! ## Operands in a row -/

section Rows

variable {operand operand' : Reading Node} (hoperand : Advances size (fun _ => 1) operand operand')
  (hb : size ≤ bound) (hb' : size ≤ bound')

include hoperand hb hb'

/-- Operators of one level may be missing, and each of them takes a token. -/
theorem advances_chain (functions : List (Symbol × String)) (left : Node) :
    Advances size (fun _ => 0) (chain functions operand bound left)
      (chain functions operand' bound' left) := by
  apply Advances.loopFrom (chain functions operand) (chain functions operand') _ hb hb'
  intro size bound bound' hsize _ _ ih left
  apply Advances.look
  intro lexeme
  split
  · split
    · apply advances_next.bind
      intro token
      apply (hoperand.less (by omega) fun _ => le_rfl).bind
      intro right
      exact (ih _).less (by omega) fun _ => le_rfl
    · exact .pure rfl
  · exact .pure rfl

omit hoperand hb hb' in
/-- A sign of comparison that is found takes a token. -/
theorem advances_comparison? :
    Advances size (fun found => found.isSome.toNat) comparison? comparison? := by
  apply Advances.look
  intro lexeme
  split
  · apply advances_next.bind
    intro token
    apply Advances.take?
    · intro position
      exact .pure rfl
    · exact .pure rfl
  · split
    · exact advances_next.bind fun token => .pure rfl
    · exact .pure rfl
  · exact .pure rfl

/-- Each comparison of a chain takes its operator. -/
theorem advances_links : Advances size List.length (links operand bound) (links operand' bound') := by
  apply Advances.loop _ hb hb'
  intro size bound bound' hsize _ _ ih
  apply advances_comparison?.bind
  intro found
  cases found with
  | none => exact .pure rfl
  | some found =>
    apply (hoperand.less (by simp; omega) fun _ => le_rfl).bind
    intro right
    exact (ih.less (by simp) fun _ => le_rfl).bind fun more => .pure (by simp)

/-- A connective may be missing, and each of them takes its keyword. -/
theorem advances_joined (word : Keyword) (form : Node → Node → Form) (left : Node) :
    Advances size (fun _ => 0) (joined word form operand bound left)
      (joined word form operand' bound' left) := by
  apply Advances.loopFrom (joined word form operand) (joined word form operand') _ hb hb'
  intro size bound bound' hsize _ _ ih left
  apply Advances.ifTook
  · apply (hoperand.less (by omega) fun _ => le_rfl).bind
    intro right
    exact (ih _).less (by omega) fun _ => le_rfl
  · exact .pure rfl

end Rows

section Phrases

variable (hr : Recur.Advances size recur recur') (hb : size ≤ bound) (hb' : size ≤ bound')
include hr hb hb'

/-! ## Predicates -/

/-- Options of a property take a token each. -/
theorem advances_options :
    Advances size List.length (options recur bound bound) (options recur' bound' bound') := by
  have hsuffixed := advances_suffixed hr hb hb'
  refine Advances.loop (fun size left left' hsize _ _ ih => ?_) hb hb'
  apply Advances.look
  intro lexeme
  split
  · split
    · apply (advances_advance 1).bind
      intro _
      apply (hsuffixed.less (by omega) fun _ => le_rfl).bind
      intro value
      exact (ih.less (by omega) fun _ => le_rfl).bind fun more => .pure (by simp)
    · exact .pure rfl
  · exact .pure rfl

/-- A property may have no arguments. -/
theorem advances_propertyArguments (word : String) :
    Advances size (fun _ => 0) (propertyArguments recur bound word)
      (propertyArguments recur' bound' word) := by
  unfold propertyArguments
  split
  · apply Advances.ifUpcoming
    · apply (advances_advance 1).bind
      intro _
      exact advances_next.bind fun token => .pure rfl
    · exact .pure rfl
  split
  · exact (advances_options hr hb hb').less le_rfl fun _ => Nat.zero_le _
  · exact .pure rfl

/-- Words that turn out to be no property are left. -/
theorem advances_property? (subject : Node) :
    Advances size (fun _ => 0) (property? recur bound subject) (property? recur' bound' subject) := by
  apply (advances_upcoming _).bind
  intro negated
  apply Advances.look
  intro lexeme
  split
  · split
    · apply (advances_advance _).bind
      intro _
      exact (advances_propertyArguments hr hb hb' _).bind fun more => .pure rfl
    · exact .pure rfl
  · exact .pure rfl

/-- A predicate takes its subject at least. -/
theorem advances_predicate :
    Advances (size + 1) (fun _ => 1) (predicate recur bound) (predicate recur' bound') := by
  apply (advances_suffixed hr hb hb').bind
  intro subject
  apply Advances.ifUpcoming
  · exact (advances_property? hr hb hb' subject).bind fun found => .pure rfl
  apply (advances_upcoming _).bind
  intro negated
  apply Advances.look
  intro first
  apply Advances.look
  intro second
  split
  · apply (advances_advance _).bind
    intro _
    exact (hr .sum).bind fun argument => .pure rfl
  · exact .pure rfl

/-! ## Arithmetic -/

/-- A signed operand takes the operand at least. -/
theorem advances_signed :
    Advances (size + 1) (fun _ => 1) (signed recur bound) (signed recur' bound') := by
  apply (advances_takeAll _).bind
  intro signs
  exact (advances_predicate hr hb hb').bind fun operand => .pure rfl

/-- A product takes its first factor at least. -/
theorem advances_product :
    Advances (size + 1) (fun _ => 1) (product recur bound) (product recur' bound') := by
  have hsigned := advances_signed hr hb hb'
  apply hsigned.bind
  exact advances_chain (hsigned.less (Nat.le_succ size) fun _ => le_rfl) hb hb' _

/-- A sum takes its first term at least. -/
theorem advances_sum : Advances (size + 1) (fun _ => 1) (sum recur bound) (sum recur' bound') := by
  have hproduct := advances_product hr hb hb'
  apply hproduct.bind
  exact advances_chain (hproduct.less (Nat.le_succ size) fun _ => le_rfl) hb hb' _

/-! ## Comparisons and logic -/

/-- A chain of comparisons takes its first operand at least. -/
theorem advances_comparison :
    Advances (size + 1) (fun _ => 1) (comparison recur bound) (comparison recur' bound') := by
  have hsum := advances_sum hr hb hb'
  have hsum' : Advances size (fun _ => 1) (sum recur bound) (sum recur' bound') :=
    hsum.less (Nat.le_succ size) fun _ => le_rfl
  apply hsum.bind
  intro left
  apply Advances.ifTook
  · exact (hsum'.less (by omega) fun _ => le_rfl).bind fun right => .pure rfl
  apply Advances.ifUpcoming
  · apply (advances_advance 2).bind
    intro _
    exact hsum'.bind fun right => .pure rfl
  · exact (advances_links hsum' hb hb').bind fun found => .pure (by simp)

/-- A negation takes what it negates at least. -/
theorem advances_negation :
    Advances (size + 1) (fun _ => 1) (negation recur bound) (negation recur' bound') := by
  apply (advances_takeAll _).bind
  intro places
  exact (advances_comparison hr hb hb').bind fun operand => .pure rfl

/-- A conjunction takes its first part at least. -/
theorem advances_conjunction :
    Advances (size + 1) (fun _ => 1) (conjunction recur bound) (conjunction recur' bound') := by
  have hnegation := advances_negation hr hb hb'
  apply hnegation.bind
  exact advances_joined (hnegation.less (Nat.le_succ size) fun _ => le_rfl) hb hb' _ _

/-- A disjunction takes its first part at least. -/
theorem advances_disjunction :
    Advances (size + 1) (fun _ => 1) (disjunction recur bound) (disjunction recur' bound') := by
  have hconjunction := advances_conjunction hr hb hb'
  apply hconjunction.bind
  exact advances_joined (hconjunction.less (Nat.le_succ size) fun _ => le_rfl) hb hb' _ _

/-- An expression takes its first operand at least. -/
theorem advances_expression :
    Advances (size + 1) (fun _ => 1) (expression recur bound) (expression recur' bound') := by
  apply Advances.take?
  · intro position
    exact (advances_choice hr hb hb' position).less (by omega) fun _ => Nat.zero_le 1
  · exact advances_disjunction hr hb hb'

end Phrases

end Ckl.Source
