import Ckl.Proofs.Source.Progress.Bracketed

/-!
# Tokens that operands take

An operand takes a token before it comes to the phrases inside, so it advances on one token more than these
do, and so does every expression. What stands behind an operand takes a token each time that it is found,
and nothing otherwise.
-/

namespace Ckl.Source

open Reading Grammar

variable {size bound bound' : Nat} {recur recur' : Recur}

section Phrases

variable (hr : Recur.Advances size recur recur') (hb : size ≤ bound) (hb' : size ≤ bound')
include hr hb hb'

/-! ## Operands -/

/-- What follows the keyword of an operand. -/
theorem advances_keywordOperand (word : Keyword) (position : Position) :
    Advances size (fun _ => 0) (keywordOperand recur bound word position)
      (keywordOperand recur' bound' word position) := by
  cases word with
  | «if» => exact (advances_choice hr hb hb' position).less le_rfl fun _ => Nat.zero_le 1
  | fn => exact (advances_function hr hb hb' none position).less le_rfl fun _ => Nat.zero_le 1
  | «do» => exact (advances_block hr hb hb' position).less le_rfl fun _ => Nat.zero_le 1
  | «break» | «continue» => exact .pure rfl
  | «return» =>
    apply Advances.look
    intro lexeme
    split
    · exact (hr.at le_rfl .expression).optional.bind fun value => .pure rfl
    · exact .pure rfl
  | error => exact (hr .expression).bind fun payload => .pure rfl
  | _ => exact advances_failAt _ _

/-- What follows the symbol that an operand begins with. -/
theorem advances_symbolOperand (mark : Symbol) (position : Position) :
    Advances size (fun _ => 0) (symbolOperand recur bound mark position)
      (symbolOperand recur' bound' mark position) := by
  cases mark with
  | openParen =>
    apply (hr .expression).bind
    intro inner
    exact (advances_expect _ _).bind fun _ => .pure rfl
  | openBracket | openSet =>
    exact (advances_collection hr hb hb' _ _ _ position).less le_rfl fun _ => Nat.zero_le 1
  | openMap => exact (advances_map hr hb hb' position).less le_rfl fun _ => Nat.zero_le 1
  | openObject => exact (advances_object hr hb hb' position).less le_rfl fun _ => Nat.zero_le 1
  | _ => exact advances_failAt _ _

theorem advances_operand :
    Advances (size + 1) (fun _ => 1) (operand recur bound) (operand recur' bound') := by
  apply advances_next.bind
  intro ⟨lexeme, position⟩
  cases lexeme with
  | whole ds =>
    dsimp only [wholeLiteral]
    cases Number.readWhole ds.toList with
    | some value => exact .pure rfl
    | none => exact advances_failAt _ _
  | pattern source =>
    dsimp only [patternLiteral]
    split
    · exact .pure rfl
    · exact advances_failAt _ _
  | keyword word => exact advances_keywordOperand hr hb hb' word position
  | symbol mark => exact advances_symbolOperand hr hb hb' mark position
  | _ => exact .pure rfl

/-! ## What stands behind an operand -/

omit hr in
theorem advances_memberPath (target : Node) :
    Advances size (fun _ => 0) (memberPath bound target) (memberPath bound' target) := by
  apply Advances.loopFrom memberPath memberPath _ hb hb'
  intro size bound bound' hsize _ _ ih target
  apply Advances.ifTook
  · apply (advances_expectName _).bind
    intro ⟨name, place⟩
    exact (ih _).less (by omega) fun _ => le_rfl
  · exact .pure rfl

theorem advances_pipeline (subject : Node) :
    Advances (size + 1) (fun _ => 1) (pipeline recur bound subject) (pipeline recur' bound' subject) := by
  apply (advances_upcoming _).bind
  intro written
  apply (advances_operand hr hb hb').bind
  intro callee
  dsimp only
  split
  · exact .pure rfl
  apply ((advances_memberPath hb hb' callee).less (by omega) fun _ => le_rfl).bind
  intro callee
  apply Advances.branch
  · apply Advances.ifTook
    · exact (advances_arguments hr hb hb').less (by omega) fun _ => Nat.zero_le 1
    · exact .pure rfl
  intro arguments
  exact .pure rfl

/-- What is found behind an operand takes a token. -/
theorem advances_suffix? (target : Node) :
    Advances size (fun found => found.isSome.toNat) (suffix? recur bound target)
      (suffix? recur' bound' target) := by
  have harguments := advances_arguments hr hb hb'
  apply Advances.look
  intro lexeme
  split
  · apply (advances_advance 1).bind
    intro _
    exact harguments.bind fun given => .pure rfl
  · apply (advances_advance 1).bind
    intro _
    apply (hr .expression).bind
    intro key
    exact (advances_expect _ _).bind fun _ => .pure rfl
  · apply (advances_advance 1).bind
    intro _
    apply (advances_expectName _).bind
    intro ⟨name, place⟩
    apply Advances.ifTook
    · exact (harguments.less (by omega) fun _ => le_rfl).bind fun given => .pure rfl
    · exact .pure rfl
  · apply (advances_advance 1).bind
    intro _
    exact ((advances_pipeline hr hb hb' target).less (by omega) fun _ => le_rfl).bind fun node => .pure rfl
  · exact .pure rfl

theorem advances_suffixes (target : Node) :
    Advances size (fun _ => 0) (suffixes recur bound bound target)
      (suffixes recur' bound' bound' target) := by
  apply Advances.loopFrom (suffixes recur bound) (suffixes recur' bound') _ hb hb'
  intro size' left left' hsize _ _ ih target
  apply ((advances_suffix? hr hb hb' target).less hsize fun _ => le_rfl).bind
  intro found
  cases found with
  | none => exact .pure rfl
  | some target => exact ih target

theorem advances_suffixed :
    Advances (size + 1) (fun _ => 1) (suffixed recur bound) (suffixed recur' bound') :=
  (advances_operand hr hb hb').bind fun target => advances_suffixes hr hb hb' target

end Phrases

end Ckl.Source
