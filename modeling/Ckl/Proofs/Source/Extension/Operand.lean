import Ckl.Proofs.Source.Extension.Bracketed

/-!
# Operands, in a text that goes on

Every step for an operand takes a token before it comes to the phrases inside, so it has outcomes on one
token more than these. A fault that an operand is found to have stands at its first token.
-/

namespace Ckl.Source

open Reading Grammar

section Relocation

variable (move : Position → Position)

/-- The call of a function by name is moved by its operands. -/
@[simp] theorem relocate_callOf (function : String) (position : Position) (operands : List Node) :
    (Node.callOf function position operands).relocate move =
      .callOf function (move position) (Placed.relocate move operands) := by
  simp only [Node.callOf, relocate_mk, Form.relocate, relocateArguments_eq]
  simp only [Placed.relocate, List.map_map, Function.comp_def]

/-- A node is negated and moved in either order. -/
@[simp] theorem relocate_negatedIf (negated : Bool) (position : Position) (node : Node) :
    (Node.negatedIf negated position node).relocate move =
      .negatedIf negated (move position) (node.relocate move) := by
  cases negated <;> rfl

/-- The place of a moved node is the moved place. -/
@[simp] theorem position_relocate (node : Node) :
    (node.relocate move).position = move node.position := by
  cases node
  rfl

/-- A node with the opposite sign is moved by its operand. -/
theorem relocate_opposite (position : Position) (node : Node) :
    (Node.opposite position node).relocate move = .opposite (move position) (node.relocate move) := by
  obtain ⟨place, form⟩ := node
  cases form with
  | literal value => cases value <;> rfl
  | _ => rfl

end Relocation

variable {α : Type} [Placed α] {texts : Extension} {size bound bound' : Nat} {recur recur' : Recur}

section Phrases

variable (hr : Recurs texts size recur recur') (hb : size ≤ bound) (hb' : size ≤ bound')
include hr hb hb'

/-! ## Operands -/

/-- A phrase that begins with a keyword, which has been taken. -/
theorem outcome_keywordOperand (word : Keyword) (position : Position) {rest : List Token}
    (hrest : rest.length < size) :
    Outcome texts texts.Open 1 (⟨.keyword word, position⟩ :: rest)
      (keywordOperand recur bound word position (texts.short rest))
      (keywordOperand recur' bound' word (texts.move position) (texts.long rest)) := by
  cases word with
  | «if» => exact (continues_choice hr hb hb' position).skip hrest (by omega)
  | fn => exact (continues_function hr hb hb' none position).skip hrest (by omega)
  | «do» => exact (continues_block hr hb hb' position).skip hrest (by omega)
  | «break» => exact .settled _ rest (.tail _ rest) rfl rfl
  | «continue» => exact .settled _ rest (.tail _ rest) rfl rfl
  | «return» =>
    have hnothing : Continues texts texts.Open size 0 (pure (Node.mk position (.giveBack none)))
        (pure (Node.mk (texts.move position) (.giveBack none))) := .pure rfl
    have hvalue : Continues texts texts.Open size 0 (keywordOperand recur bound .return position)
        (keywordOperand recur' bound' .return (texts.move position)) := by
      refine .peekOpen rfl hnothing fun token rest hrest => ?_
      dsimp only [Option.any_some]
      split
      · have hsome : Continues texts texts.Open size 1
            (some <$> recur .expression >>= fun value => pure (Node.mk position (.giveBack value)))
            (some <$> recur' .expression >>= fun value =>
              pure (Node.mk (texts.move position) (.giveBack value))) :=
          (hr.phrase .expression).optional.bind fun value => .pure (by simp)
        exact (hsome (token :: rest) hrest).mono (by omega) id
      · exact hnothing (token :: rest) hrest
    exact hvalue.skip hrest (by omega)
  | error =>
    have hvalue : Continues texts texts.Open size 0 (keywordOperand recur bound .error position)
        (keywordOperand recur' bound' .error (texts.move position)) :=
      (hr.phrase .expression).andThen fun payload => .pure rfl
    exact hvalue.skip hrest (by omega)
  | _ => exact .atHead rfl rfl rfl

/-- A phrase that begins with a symbol, which has been taken. -/
theorem outcome_symbolOperand (mark : Symbol) (position : Position) {rest : List Token}
    (hrest : rest.length < size) :
    Outcome texts texts.Open 1 (⟨.symbol mark, position⟩ :: rest)
      (symbolOperand recur bound mark position (texts.short rest))
      (symbolOperand recur' bound' mark (texts.move position) (texts.long rest)) := by
  cases mark with
  | openParen =>
    have hinner : Continues texts texts.Open size 1 (symbolOperand recur bound .openParen position)
        (symbolOperand recur' bound' .openParen (texts.move position)) :=
      (hr.phrase .expression).bind fun inner => (continues_expect _ _).andThen fun _ => .pure rfl
    exact hinner.skip hrest (by omega)
  | openBracket =>
    have hitems : ∀ items, (Form.list items).relocate texts.move = .list (Placed.relocate texts.move items) :=
      fun items => by simp
    exact (continues_collection hr hb hb' .list hitems (by decide) position).skip hrest (by omega)
  | openSet =>
    have hitems : ∀ items, (Form.set items).relocate texts.move = .set (Placed.relocate texts.move items) :=
      fun items => by simp
    exact (continues_collection hr hb hb' .set hitems (by decide) position).skip hrest (by omega)
  | openMap => exact (continues_map hr hb hb' position).skip hrest (by omega)
  | openObject => exact (continues_object hr hb hb' position).skip hrest (by omega)
  | _ => exact .atHead rfl rfl rfl

/-- An operand, continued by more text. -/
theorem continues_operand :
    Continues texts texts.Open (size + 1) 1 (operand recur bound) (operand recur' bound') := by
  intro front hfront
  match front with
  | [] => exact .incomplete _ rfl rfl
  | ⟨lexeme, position⟩ :: rest =>
    have hrest : rest.length < size := Nat.lt_of_succ_lt_succ hfront
    cases lexeme with
    | whole ds =>
      show Outcome texts texts.Open 1 _ (wholeLiteral ds position (texts.short rest))
        (wholeLiteral ds (texts.move position) (texts.long rest))
      unfold wholeLiteral
      cases Number.readWhole ds.toList with
      | some value => exact .settled _ rest (.tail _ rest) rfl rfl
      | none => exact .atHead rfl rfl rfl
    | pattern source =>
      show Outcome texts texts.Open 1 _ (patternLiteral source position (texts.short rest))
        (patternLiteral source (texts.move position) (texts.long rest))
      unfold patternLiteral
      split
      · exact .settled _ rest (.tail _ rest) rfl rfl
      · exact .atHead rfl rfl rfl
    | keyword word => exact outcome_keywordOperand hr hb hb' word position hrest
    | symbol mark => exact outcome_symbolOperand hr hb hb' mark position hrest
    | _ => exact .settled _ rest (.tail _ rest) rfl rfl

/-! ## What stands behind an operand -/

omit hr in
/-- A path of members, continued by more text. -/
theorem continues_memberPath (target : Node) :
    Continues texts texts.Open size 0 (memberPath bound target)
      (memberPath bound' (target.relocate texts.move)) := by
  refine .loopFrom memberPath memberPath (fun size bound bound' hsize _ _ ih target => ?_) hb hb' target
  refine .ifSymbol (by decide) ((continues_expectName _).andThen fun ⟨name, place⟩ => ?_) (.pure rfl)
  have hmember : memberOf (target.relocate texts.move) name (texts.move place) =
      (memberOf target name place).relocate texts.move := by
    simp [memberOf]
  show Continues texts texts.Open _ _ (memberPath bound (memberOf target name place))
    (memberPath bound' (memberOf (target.relocate texts.move) name (texts.move place)))
  rw [hmember]
  exact (ih _).less (by omega) le_rfl

/-- A pipeline, continued by more text. -/
theorem continues_pipeline (subject : Node) :
    Continues texts texts.Open (size + 1) 1 (pipeline recur bound subject)
      (pipeline recur' bound' (subject.relocate texts.move)) := by
  have hoperand := continues_operand hr hb hb'
  unfold pipeline
  refine .upcoming (Extension.opens nofun) (hoperand.bind fun callee => ?_) (hoperand.bind fun callee => ?_)
  · exact .pure (by simp)
  · refine ((continues_memberPath hb hb' callee).less (by omega) le_rfl).andThen fun callee => ?_
    refine .branch (.ifSymbol (by decide) ?_ (.pure rfl)) fun arguments => ?_
    · exact (continues_arguments hr hb hb').less (by omega) (by omega)
    · exact .pure (by simp)

omit hr hb hb' in
/-- The symbols that a call, an index, a member or a pipeline begins with. -/
def suffixMarks : List Symbol := [.openParen, .openBracket, .arrow, .pipe]

/-- What stands behind a mark of a suffix, continued by more text. -/
theorem outcome_suffix? (target : Node) {mark : Symbol} (hmark : mark ∈ suffixMarks) (place : Position)
    {rest : List Token} (hrest : rest.length < size) :
    Outcome texts texts.Open 1 (⟨.symbol mark, place⟩ :: rest)
      (suffix? recur bound target (texts.short (⟨.symbol mark, place⟩ :: rest)))
      (suffix? recur' bound' (target.relocate texts.move) (texts.long (⟨.symbol mark, place⟩ :: rest))) := by
  have harguments := continues_arguments hr hb hb'
  unfold suffix?
  rw [ahead?_short, ahead?_long]
  cases mark with
  | openParen =>
    refine .advance (harguments.andThen fun given => .pure ?_) hrest (by omega)
    simp
  | openBracket =>
    refine .advance ((hr.phrase .expression).andThen fun key => ?_) hrest (Nat.le_add_left 1 0)
    refine (continues_expect _ _).andThen fun _ => .pure ?_
    simp
  | arrow =>
    refine .advance ((continues_expectName _).andThen fun ⟨name, place⟩ => ?_) hrest (Nat.le_add_left 1 0)
    refine .ifSymbol (by decide) ((harguments.less (by omega) le_rfl).andThen fun given => ?_) ?_
    · exact .pure (by simp)
    · exact .pure (by simp [memberOf])
  | pipe =>
    have hpipeline := (continues_pipeline hr hb hb' target).less (Nat.le_succ size) le_rfl
    exact .advance (hpipeline.andThen fun node => .pure rfl) hrest (by omega)
  | _ => simp [suffixMarks] at hmark

omit hr hb hb' in
/-- Without a mark no suffix is read. -/
theorem suffix?_none (recur : Recur) (bound : Nat) (target : Node) (tokens : Tokens)
    (h : ∀ mark ∈ suffixMarks, upNext tokens.rest ≠ some (.symbol mark)) :
    suffix? recur bound target tokens = .ok (none, tokens) := by
  obtain ⟨tokens, finish⟩ := tokens
  match tokens with
  | [] => rfl
  | ⟨lexeme, position⟩ :: tokens =>
    cases lexeme with
    | symbol mark => cases mark <;> first | rfl | exact absurd rfl (h _ (by decide))
    | _ => rfl

/-- Suffixes, continued by more text. -/
theorem continues_suffixes (target : Node) :
    Continues texts texts.Open size 0 (suffixes recur bound bound target)
      (suffixes recur' bound' bound' (target.relocate texts.move)) := by
  refine .loopFrom (suffixes recur bound) (suffixes recur' bound')
    (fun size left left' hsize _ _ ih target => ?_) hb hb' target
  intro front hfront
  by_cases hmark : ∃ mark ∈ suffixMarks, upNext front = some (.symbol mark)
  · obtain ⟨mark, hmark, hnext⟩ := hmark
    match front with
    | ⟨lexeme, place⟩ :: rest =>
      obtain rfl : lexeme = .symbol mark := Option.some.inj hnext
      rw [List.length_cons] at hfront
      refine Outcome.bind (outcome_suffix? hr hb hb' target hmark place (by omega))
        (fun found left hleft => ?_) (Nat.zero_le (1 + 0))
      have hleft' := hleft.2
      rw [List.length_cons] at hleft'
      cases found with
      | none => exact .settled target left (.refl left) rfl rfl
      | some node => exact ih node left (by omega)
  have hshort : suffixes recur bound (left + 1) target (texts.short front) =
      .ok (target, texts.short front) :=
    bind_ok (suffix?_none recur bound target (texts.short front) fun mark h hnext => hmark ⟨mark, h, hnext⟩)
  by_cases hmark' : ∃ mark ∈ suffixMarks, upNext (texts.long front).rest = some (.symbol mark)
  · obtain ⟨mark, hmem, hnext⟩ := hmark'
    cases front with
    | nil =>
      have hopen : texts.Open := Extension.opens_symbol (by rintro rfl; simp [suffixMarks] at hmem) hnext
      exact .unsettled target [] (.refl []) hopen (.inl rfl) hshort
    | cons token rest => exact absurd ⟨mark, hmem, hnext⟩ hmark
  · exact .settled target front (.refl front) hshort
      (bind_ok (suffix?_none recur' bound' _ (texts.long front)
        fun mark h hnext => hmark' ⟨mark, h, hnext⟩))

/-- An operand with its suffixes, continued by more text. -/
theorem continues_suffixed :
    Continues texts texts.Open (size + 1) 1 (suffixed recur bound) (suffixed recur' bound') :=
  (continues_operand hr hb hb').bind fun target => continues_suffixes hr hb hb' target

end Phrases

end Ckl.Source
