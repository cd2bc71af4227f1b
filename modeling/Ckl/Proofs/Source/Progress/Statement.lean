import Ckl.Proofs.Source.Progress.Operator

/-!
# Tokens that statements take

A statement begins with a keyword or with an expression, so it takes a token; the selection of a loop is the
only part of one that may be absent.
-/

namespace Ckl.Source

open Reading Grammar

variable {size bound bound' : Nat} {recur recur' : Recur}

/-! ## Modules and names -/

/-- The name of a module takes a token. -/
theorem advances_moduleName : Advances size (fun _ => 1) moduleName moduleName := by
  apply Advances.look
  intro lexeme
  split
  · exact advances_next.bind fun token => .pure rfl
  · exact advances_next.bind fun token => .pure rfl
  · exact advances_fail _

/-- An imported name takes a token. -/
theorem advances_importedName : Advances size (fun _ => 1) importedName importedName := by
  apply (advances_expectName _).bind
  intro ⟨name, _⟩
  apply Advances.ifTook
  · exact (advances_expectName _).bind fun found => .pure rfl
  · exact .pure rfl

section Names

variable (hb : size ≤ bound) (hb' : size ≤ bound')
include hb hb'

/-- The style of an import may be left out. -/
theorem advances_importStyle :
    Advances size (fun _ => 0) (importStyle bound) (importStyle bound') := by
  have hnames := advances_separated advances_importedName hb hb'
  apply Advances.ifTook
  · exact .pure rfl
  apply Advances.ifTook
  · exact (advances_expectName _).bind fun found => .pure rfl
  apply Advances.ifTook
  · apply (advances_expect _ _).bind
    intro _
    apply Advances.branch
    · apply Advances.ifUpcoming
      · exact .pure rfl
      · exact hnames.less (by omega) fun _ => Nat.zero_le 1
    intro names
    exact (advances_expect _ _).bind fun _ => .pure rfl
  · exact .pure rfl

/-- A requirement takes the name of its module at least. -/
theorem advances_require (position : Position) :
    Advances size (fun _ => 1) (require bound position) (require bound' position) := by
  apply advances_moduleName.bind
  intro module
  exact (advances_importStyle (by omega) (by omega)).bind fun style => .pure rfl

/-- Names in brackets take the brackets. -/
theorem advances_bracketedNames :
    Advances size (fun _ => 1) (bracketedNames bound) (bracketedNames bound') := by
  apply (advances_separated (advances_expectName _) hb hb').bind
  intro names
  exact (advances_expect _ _).bind fun _ => .pure rfl

/-- The names of a loop take a token. -/
theorem advances_loopNames : Advances size (fun _ => 1) (loopNames bound) (loopNames bound') := by
  apply Advances.ifTook
  · exact ((advances_bracketedNames hb hb').less (by omega) fun _ => le_rfl).bind fun names => .pure rfl
  · exact (advances_separated (advances_expectName _) hb hb').bind fun names => .pure rfl

end Names

/-- What a loop goes through may be left out. -/
theorem advances_selection : Advances size (fun _ => 0) selection selection := by
  apply Advances.look
  intro first
  split
  · split
    · apply Advances.look
      intro second
      split
      · exact (advances_advance 1).bind fun _ => .pure rfl
      · exact .pure rfl
    · exact .pure rfl
  · exact .pure rfl

section Phrases

variable (hr : Recur.Advances size recur recur') (hb : size ≤ bound) (hb' : size ≤ bound')
include hr

/-! ## Statements -/

/-- A loop with a condition takes the condition at least. -/
theorem advances_loopWhile (position : Position) :
    Advances size (fun _ => 1) (loopWhile recur position) (loopWhile recur' position) := by
  apply (hr .expression).bind
  intro condition
  exact (hr.at (by omega) .statement).bind fun body => .pure rfl

include hb hb'

/-- A definition takes its name at least. -/
theorem advances_definition (position : Position) :
    Advances size (fun _ => 1) (definition recur bound position) (definition recur' bound' position) := by
  apply Advances.ifTook
  · apply ((advances_bracketedNames hb hb').less (by omega) fun _ => le_rfl).bind
    intro names
    apply (advances_expect _ _).bind
    intro _
    exact (hr.at (by omega) .expression).bind fun value => .pure rfl
  apply (advances_expectName _).bind
  intro ⟨name, place⟩
  apply Advances.ifUpcoming
  · exact ((advances_function hr hb hb' (some name) place).less (by omega) fun _ => le_rfl).bind
      fun value => .pure rfl
  apply (advances_expect _ _).bind
  intro _
  exact (hr.at (by omega) .expression).bind fun value => .pure rfl

/-- A loop takes its names at least. -/
theorem advances_loop (position : Position) :
    Advances size (fun _ => 1) (loop recur bound position) (loop recur' bound' position) := by
  apply (advances_loopNames hb hb').bind
  intro ⟨names, destructures⟩
  apply (advances_expect _ _).bind
  intro _
  apply advances_selection.bind
  intro selection
  apply (hr.at (by omega) .expression).bind
  intro source
  exact (hr.at (by omega) .statement).bind fun body => .pure rfl

/-- An assignment takes its target at least. -/
theorem advances_assignment :
    Advances (size + 1) (fun _ => 1) (assignment recur bound) (assignment recur' bound') := by
  apply (advances_expression hr hb hb').bind
  intro target
  apply Advances.look
  intro lexeme
  split
  · apply (advances_advance 1).bind
    intro _
    exact (hr .expression).bind fun value => advances_lift _
  · split
    · apply advances_next.bind
      intro token
      exact (hr.at (by omega) .expression).bind fun operand => advances_lift _
    · exact .pure rfl
  · exact .pure rfl

/-- Every statement takes a token. -/
theorem advances_statement :
    Advances (size + 1) (fun _ => 1) (statement recur bound) (statement recur' bound') := by
  apply Advances.look
  intro lexeme
  split
  · exact advances_next.bind fun token =>
      (advances_require hb hb' token.position).less le_rfl fun _ => Nat.zero_le 1
  · exact advances_next.bind fun token =>
      (advances_definition hr hb hb' token.position).less le_rfl fun _ => Nat.zero_le 1
  · exact advances_next.bind fun token =>
      (advances_loop hr hb hb' token.position).less le_rfl fun _ => Nat.zero_le 1
  · exact advances_next.bind fun token =>
      (advances_loopWhile hr token.position).less le_rfl fun _ => Nat.zero_le 1
  · exact advances_assignment hr hb hb'

end Phrases

end Ckl.Source
