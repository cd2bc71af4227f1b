import Ckl.Proofs.Source.Extension.Operator

/-!
# Statements, in a text that goes on

The steps for statements have outcomes, and with them the whole grammar: the phrases inside a phrase are read
with one less as the bound, and have outcomes on one token less. An assignment to what cannot be assigned to
fails whatever its value is, so it fails in the longer text too, where the value may go on.
-/

namespace Ckl.Source

open Reading Grammar

variable {α : Type} [Placed α] {texts : Extension} {size bound bound' : Nat} {recur recur' : Recur}

/-! ## Modules and names -/

/-- The name of a module, continued by more text. -/
theorem continues_moduleName : Continues texts texts.Open size 1 moduleName moduleName := by
  have hfail : Continues texts texts.Open size 1 (fail (.expected .moduleName) : Reading Node)
      (fail (.expected .moduleName)) := continues_fail _
  refine .peekOpen rfl hfail fun ⟨lexeme, place⟩ rest hrest => ?_
  cases lexeme with
  | name | string => exact .settled _ rest (.tail _ rest) rfl rfl
  | _ => exact hfail _ hrest

/-- An imported name and its other name, continued by more text. -/
theorem continues_importedName : Continues texts texts.Open size 1 importedName importedName := by
  refine (continues_expectName _).bind fun ⟨name, _⟩ => .ifKeyword ?_ (.pure rfl)
  exact (continues_expectName _).andThen fun ⟨localName, _⟩ => .pure rfl

/-- The style of an import, continued by more text. -/
theorem continues_importStyle (hb : size ≤ bound) (hb' : size ≤ bound') :
    Continues texts texts.Open size 0 (importStyle bound) (importStyle bound') := by
  refine .ifKeyword (.pure rfl) (.ifKeyword ?_ (.ifKeyword ?_ (.pure rfl)))
  · exact (continues_expectName _).andThen fun ⟨localName, _⟩ => .pure rfl
  · refine (continues_expect _ _).andThen fun _ => ?_
    have hnames : Continues texts texts.Open size 1 (separated importedName bound)
        (separated importedName bound') := continues_separated continues_importedName hb hb'
    refine .branch (.ifUpcomingSymbol (by decide) (.pure rfl) (hnames.less (by omega) (by omega)))
      fun names => ?_
    refine (continues_expect _ _).andThen fun _ => .pure ?_
    exact congrArg ImportStyle.listed (List.map_id names)

/-- A requirement, continued by more text. -/
theorem continues_require (hb : size ≤ bound) (hb' : size ≤ bound') (position : Position) :
    Continues texts texts.Open size 1 (require bound position) (require bound' (texts.move position)) := by
  refine continues_moduleName.bind fun module => ?_
  exact (continues_importStyle (by omega) (by omega)).andThen fun style => .pure rfl

/-- Names are the same at all places. -/
theorem names_relocate (move : Position → Position) (names : List (String × Position)) :
    (Placed.relocate move names).map Prod.fst = names.map Prod.fst := List.map_map

/-- Names in brackets, continued by more text. -/
theorem continues_bracketedNames (hb : size ≤ bound) (hb' : size ≤ bound') :
    Continues texts texts.Open size 1 (bracketedNames bound) (bracketedNames bound') := by
  refine (continues_separated (continues_expectName _) hb hb').bind fun names => ?_
  refine (continues_expect _ _).andThen fun _ => .pure ?_
  rw [names_relocate, relocate_strings]

/-- The names of a loop, continued by more text. -/
theorem continues_loopNames (hb : size ≤ bound) (hb' : size ≤ bound') :
    Continues texts texts.Open size 1 (loopNames bound) (loopNames bound') := by
  refine .ifSymbol (by decide) ?_ ?_
  · exact ((continues_bracketedNames hb hb').less (by omega) le_rfl).andThen fun names => .pure rfl
  · refine (continues_separated (continues_expectName _) hb hb').bind fun names => .pure ?_
    have hlength : (Placed.relocate texts.move names).length = names.length := List.length_map _
    rw [names_relocate, hlength]
    exact congrArg (·, _) (relocate_strings _ _).symm

/-! ## Loops -/

/-- The selection that two lexemes name. -/
def selectionAhead (first second : Option Lexeme) : Option Selection :=
  match first with
  | some (.name name) => if second.any beginsSource = true then selections.lookup name else none
  | _ => none

/-- What follows a selection, if there is one. -/
def afterSelection {α : Type} (next : Selection → Reading α) : Option Selection → Reading α
  | some selection => advance 1 >>= fun _ => next selection
  | none => next .items

/-- What a loop goes through is told from two lexemes ahead. -/
theorem selection_bind {α : Type} (next : Selection → Reading α) (tokens : Tokens) :
    (selection >>= next) tokens =
      afterSelection next (selectionAhead (upNext tokens.rest) (upNext tokens.rest.tail)) tokens := by
  obtain ⟨tokens, finish⟩ := tokens
  match tokens with
  | [] => rfl
  | ⟨.name name, place⟩ :: rest =>
    have hsecond : (⟨⟨.name name, place⟩ :: rest, finish⟩ : Tokens).ahead? 1 = upNext rest := by
      cases rest <;> rfl
    show ((match selections.lookup name with
      | some found => ahead? 1 >>= fun second =>
          if second.any beginsSource = true then advance 1 >>= fun _ => pure found else pure .items
      | none => pure .items) >>= next) ⟨⟨.name name, place⟩ :: rest, finish⟩ =
      afterSelection next (if (upNext rest).any beginsSource = true then selections.lookup name else none)
        ⟨⟨.name name, place⟩ :: rest, finish⟩
    cases selections.lookup name with
    | none => simp only [ite_self, pure_bind, afterSelection]
    | some found =>
      rw [bind_assoc, ahead?_bind, hsecond]
      by_cases hsource : (upNext rest).any beginsSource = true
      · simp only [hsource, if_true]
        rfl
      · simp only [hsource]
        rfl
  | ⟨.keyword _, _⟩ :: _ | ⟨.boolean _, _⟩ :: _ | ⟨.string _, _⟩ :: _ | ⟨.whole _, _⟩ :: _
  | ⟨.decimal _, _⟩ :: _ | ⟨.pattern _, _⟩ :: _ | ⟨.symbol _, _⟩ :: _ => rfl

/-- A selection is named by a word with something behind it that begins a source. -/
theorem selectionAhead_some {first second : Option Lexeme} {selection : Selection}
    (h : selectionAhead first second = some selection) :
    (∃ name, first = some (.name name)) ∧ ∃ lexeme, second = some lexeme ∧ beginsSource lexeme = true := by
  unfold selectionAhead at h
  split at h
  · next name =>
    split at h
    · next hsource => exact ⟨⟨name, rfl⟩, by simpa [Option.any_eq_true] using hsource⟩
    · cases h
  · cases h

section Phrases

variable (hr : Recurs texts size recur recur') (hb : size ≤ bound) (hb' : size ≤ bound')
include hr

/-- A name that stands alone is the source and no selection, whatever it is in the longer text. -/
theorem continues_selection {next next' : Selection → Node → Reading α}
    (hnext : ∀ selection node, Continues texts texts.Open (size - 1) 0 (next selection node)
      (next' selection (node.relocate texts.move))) :
    Continues texts texts.Open size 1
      (selection >>= fun selection => recur .expression >>= next selection)
      (selection >>= fun selection => recur' .expression >>= next' selection) := by
  have hsource : ∀ selection, Continues texts texts.Open size 1 (recur .expression >>= next selection)
      (recur' .expression >>= next' selection) :=
    fun selection => (hr.phrase .expression).bind (hnext selection)
  intro front hfront
  rw [selection_bind, selection_bind]
  match front with
  | [] =>
    by_cases hopen : texts.Open
    · exact (hsource .items [] hfront).unsettle (.inl rfl) hopen _
    · cases hahead : selectionAhead (upNext (texts.long []).rest) (upNext (texts.long []).rest.tail) with
      | none => exact hsource .items [] hfront
      | some =>
        obtain ⟨⟨name, hname⟩, _⟩ := selectionAhead_some hahead
        exact absurd ⟨_, hname, nofun⟩ hopen
  | [⟨lexeme, position⟩] =>
    have hshort : selectionAhead (some lexeme) none = none := by cases lexeme <;> rfl
    change Outcome texts texts.Open 1 _ (afterSelection _ (selectionAhead (some lexeme) none) _)
      (afterSelection _ (selectionAhead (some lexeme) (upNext texts.more)) _)
    rw [hshort]
    cases hahead : selectionAhead (some lexeme) (upNext texts.more) with
    | none => exact hsource .items _ hfront
    | some =>
      obtain ⟨⟨name, hname⟩, second, hsecond, hbegins⟩ := selectionAhead_some hahead
      obtain rfl := Option.some.inj hname
      have hopen : texts.Open := ⟨second, hsecond, by rintro rfl; cases hbegins⟩
      exact hr.outcome_lone (fun node => ⟨_, hnext .items node⟩) hfront hopen _
  | ⟨lexeme, position⟩ :: ⟨lexeme', position'⟩ :: rest =>
    change Outcome texts texts.Open 1 _ (afterSelection _ (selectionAhead (some lexeme) (some lexeme')) _)
      (afterSelection _ (selectionAhead (some lexeme) (some lexeme')) _)
    cases selectionAhead (some lexeme) (some lexeme') with
    | none => exact hsource .items _ hfront
    | some selection => exact .advance (hsource selection) (Nat.lt_of_succ_lt hfront) (by omega)

include hb hb' in
/-- A loop over a collection, continued by more text. -/
theorem continues_loop (position : Position) :
    Continues texts texts.Open size 1 (loop recur bound position)
      (loop recur' bound' (texts.move position)) := by
  refine (continues_loopNames hb hb').bind fun ⟨names, destructures⟩ => ?_
  refine (continues_expect _ _).andThen fun _ => ?_
  have hr' := hr.mono (Nat.le_trans (Nat.sub_le (size - 1) 1) (Nat.sub_le size 1))
  refine (continues_selection hr' fun selection source => ?_).less le_rfl (Nat.zero_le 1)
  refine (hr'.at (by omega) le_rfl .statement).andThen fun body => .pure ?_
  simp

/-- A loop with a condition, continued by more text. -/
theorem continues_loopWhile (position : Position) :
    Continues texts texts.Open size 1 (loopWhile recur position) (loopWhile recur' (texts.move position)) := by
  refine (hr.phrase .expression).bind fun condition => ?_
  exact (hr.at (by omega) le_rfl .statement).andThen fun body => .pure rfl

/-! ## Definitions -/

omit hr in
/-- A function is named and moved in either order. -/
theorem relocate_withName (move : Position → Position) (name : String) (node : Node) :
    (node.withName name).relocate move = (node.relocate move).withName name := by
  obtain ⟨position, form⟩ := node
  cases form with
  | function lambda =>
    obtain ⟨own, parameters, rest, body⟩ := lambda
    cases own <;> rfl
  | _ => rfl

include hb hb' in
/-- A definition, continued by more text. -/
theorem continues_definition (position : Position) :
    Continues texts texts.Open size 1 (definition recur bound position)
      (definition recur' bound' (texts.move position)) := by
  refine .ifSymbol (by decide) ?_ ((continues_expectName _).bind fun ⟨name, place⟩ => ?_)
  · refine ((continues_bracketedNames hb hb').less (by omega) le_rfl).andThen fun names => ?_
    refine (continues_expect _ _).andThen fun _ => ?_
    refine (hr.at (by omega) le_rfl .expression).andThen fun value => .pure ?_
    simp
  · have hfunction := (continues_function hr hb hb' (some name) place).less (Nat.sub_le size 1) le_rfl
    refine .ifUpcomingSymbol (by decide) (hfunction.andThen fun value => .pure rfl) ?_
    refine (continues_expect _ _).andThen fun _ => ?_
    refine (hr.at (by omega) le_rfl .expression).andThen fun value => .pure ?_
    simp [relocate_withName]

/-! ## Assignments -/

omit hr in
/-- The names of moved nodes are the names, and what is no name is moved with its failure. -/
theorem names?_relocate (move : Position → Position) (items : List Node) :
    Node.names? (Placed.relocate move items) = (Node.names? items).mapError move := by
  induction items with
  | nil => rfl
  | cons item items ih =>
    obtain ⟨position, form⟩ := item
    cases form with
    | name name =>
      show (Node.names? (Placed.relocate move items)).map (name :: ·) =
        ((Node.names? items).map (name :: ·)).mapError move
      rw [ih]
      cases Node.names? items <;> rfl
    | _ => rfl

omit hr in
/-- Whether something can be assigned to does not depend on the value. -/
theorem assigned_cases (move : Position → Position) (target : Node) :
    (∃ assign : Node → Node, (∀ value, target.assigned value = .ok (assign value)) ∧
      ∀ value, (target.relocate move).assigned (value.relocate move) =
        .ok ((assign value).relocate move)) ∨
    ∃ fault fault', (∀ value, target.assigned value = .error fault) ∧
      ∀ value, (target.relocate move).assigned value = .error fault' := by
  obtain ⟨position, form⟩ := target
  cases form with
  | name name => exact .inl ⟨_, fun _ => rfl, fun _ => rfl⟩
  | index collection key => exact .inl ⟨_, fun _ => rfl, fun _ => rfl⟩
  | list items =>
    have hnames := names?_relocate move items
    cases hfound : Node.names? items with
    | ok names =>
      rw [hfound] at hnames
      refine .inl ⟨fun value => .mk position (.assignAll names value), fun value => ?_, fun value => ?_⟩
      · simp only [Node.assigned, hfound]
      · simp only [relocate_mk, Form.relocate, relocateEach_eq, Node.assigned, hnames]
        rfl
    | error place =>
      rw [hfound] at hnames
      refine .inr ⟨⟨.notNames, place⟩, ⟨.notNames, move place⟩, fun value => ?_, fun value => ?_⟩
      · simp only [Node.assigned, hfound]
      · simp only [relocate_mk, Form.relocate, relocateEach_eq, Node.assigned, hnames]
        rfl
  | _ => exact .inr ⟨_, _, fun _ => rfl, fun _ => rfl⟩

/-- The value of an assignment behind its symbol. -/
theorem outcome_assigned (target : Node) (value value' : Node → Node)
    (hvalue : ∀ operand, value' (operand.relocate texts.move) = (value operand).relocate texts.move)
    {token : Token} {rest : List Token} (hnot : ¬Pending (token :: rest)) (hrest : rest.length < size) :
    Outcome texts texts.Open 0 (token :: rest)
      ((recur .expression >>= fun operand => liftM (target.assigned (value operand))) (texts.short rest))
      ((recur' .expression >>= fun operand =>
        liftM ((target.relocate texts.move).assigned (value' operand))) (texts.long rest)) := by
  rcases assigned_cases texts.move target with ⟨assign, hshort, hlong⟩ | ⟨fault, fault', hshort, hlong⟩
  · have hassign : Continues texts texts.Open size 1
        (recur .expression >>= fun operand => liftM (target.assigned (value operand)))
        (recur' .expression >>= fun operand =>
          liftM ((target.relocate texts.move).assigned (value' operand))) := by
      refine (hr.phrase .expression).bind fun operand => ?_
      rw [relocate_node, hvalue, hshort, hlong]
      exact .pure rfl
    exact hassign.skip hrest (Nat.zero_le _)
  · -- the value may still go on, but whatever it is the assignment fails
    have hfails : ∃ fault', (recur' .expression >>= fun operand =>
        liftM ((target.relocate texts.move).assigned (value' operand)) : Reading Node) (texts.long rest) =
          .error fault' := by
      cases hread : recur' .expression (texts.long rest) with
      | error fault => exact ⟨fault, bind_error hread⟩
      | ok found => exact ⟨fault', by rw [bind_ok hread, hlong]; rfl⟩
    obtain ⟨fault', hfails⟩ := hfails
    cases hr.phrase .expression rest hrest with
    | settled operand left _ h | unsettled operand left _ _ _ h =>
      exact .rejected fault fault' hnot (by rw [bind_ok h, hshort]; rfl) hfails
    | incomplete fault hfault h => exact .incomplete fault hfault (bind_error h)
    | awaiting fault hfault h => exact .awaiting fault (hfault.suffix (List.suffix_cons _ _)) (bind_error h)
    | rejected fault _ _ h => exact .rejected fault fault' hnot (bind_error h) hfails

omit hr in
/-- At a symbol nothing is open. -/
theorem not_pending_symbol {mark : Symbol} {place : Position} {rest : List Token} :
    ¬Pending (⟨.symbol mark, place⟩ :: rest) := by
  intro h
  have hhead := h.head
  simp at hhead

include hb hb' in
/-- An assignment, continued by more text. -/
theorem continues_assignment :
    Continues texts texts.Open (size + 1) 1 (assignment recur bound) (assignment recur' bound') := by
  refine (continues_expression hr hb hb').bind fun target => ?_
  have htarget : Continues texts texts.Open size 0 (pure target) (pure (target.relocate texts.move)) :=
    .pure rfl
  refine .peekOpen rfl htarget fun ⟨lexeme, place⟩ rest hrest => ?_
  have hrest' : rest.length < size := by omega
  cases lexeme with
  | symbol mark =>
    cases mark with
    | assign =>
      exact outcome_assigned hr target (fun value => value) (fun value => value) (fun _ => rfl)
        not_pending_symbol hrest'
    | plusAssign | minusAssign | starAssign | slashAssign | percentAssign =>
      exact outcome_assigned hr target (fun operand => .callOf _ place [target, operand])
        (fun operand => .callOf _ (texts.move place) [target.relocate texts.move, operand])
        (fun _ => rfl) not_pending_symbol hrest'
    | _ => exact htarget _ hrest
  | _ => exact htarget _ hrest

include hb hb' in
/-- A statement, continued by more text. -/
theorem continues_statement :
    Continues texts texts.Open (size + 1) 1 (statement recur bound) (statement recur' bound') := by
  have hassignment := continues_assignment hr hb hb'
  refine .peekOpen rfl hassignment fun ⟨lexeme, place⟩ rest hrest => ?_
  have hrest' : rest.length < size := by omega
  cases lexeme with
  | keyword word =>
    cases word with
    | require => exact .next (continues_require hb hb' place) hrest' (by omega)
    | define => exact .next (continues_definition hr hb hb' place) hrest' (by omega)
    | «for» => exact .next (continues_loop hr hb hb' place) hrest' (by omega)
    | «while» => exact .next (continues_loopWhile hr place) hrest' (by omega)
    | _ => exact hassignment _ hrest
  | _ => exact hassignment _ hrest

end Phrases

/-! ## The whole grammar -/

/-- A name is read as an expression. -/
theorem reads_name (recur : Recur) (bound : Nat) (word : String) :
    Reads (expression recur bound) [.name word] (Follows []) fun _ => True := by
  have hstarts : Starts [.name word] := ⟨_, rfl, rfl⟩
  have hoperand : Reads (operand recur bound) [.name word] Anything fun _ => True :=
    reads_one _ fun position _ _ _ => ⟨.mk position (.name word), rfl, trivial⟩
  have hsum := ((hoperand.stands (by simp)).inSuffixed.inPredicate.inSigned hstarts nofun).inSum
  exact (hsum.inComparison.inNegation hstarts nofun).inExpression hstarts

/-- Every phrase has an outcome, if the bounds are not less than the number of tokens. -/
theorem recurs_read (texts : Extension) {size bound bound' : Nat} (hb : size ≤ bound) (hb' : size ≤ bound') :
    Recurs texts size (read bound) (read bound') := by
  induction size generalizing bound bound' with
  | zero => exact ⟨fun phrase => .zero rfl, fun h => by omega⟩
  | succ size ih =>
    obtain ⟨bound, rfl⟩ : ∃ fewer, bound = fewer + 1 := ⟨bound - 1, by omega⟩
    obtain ⟨bound', rfl⟩ : ∃ fewer, bound' = fewer + 1 := ⟨bound' - 1, by omega⟩
    have hb : size ≤ bound := by omega
    have hb' : size ≤ bound' := by omega
    have hr := ih hb hb'
    refine ⟨fun phrase => ?_, fun _ word position => ?_⟩
    · cases phrase with
      | statement => exact continues_statement hr hb hb'
      | expression => exact continues_expression hr hb hb'
      | disjunction => exact continues_disjunction hr hb hb'
      | sum => exact continues_sum hr hb hb'
    · obtain ⟨node, hread, _⟩ := reads_name (read bound) bound word [⟨.name word, position⟩] [] texts.finish
        rfl rfl
      exact ⟨_, hread⟩

end Ckl.Source
