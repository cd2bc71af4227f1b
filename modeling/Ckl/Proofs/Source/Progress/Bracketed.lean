import Ckl.Proofs.Source.Progress

/-!
# Tokens that phrases in brackets take

The steps for phrases in brackets advance if those for the phrases inside them do. Their loops take a token
each time around, so a bound that is not less than the number of tokens left is enough for them.
-/

namespace Ckl.Source

open Reading Grammar

/-- The steps for the phrases inside another one do the same, and take a token each. -/
def Recur.Advances (size : Nat) (recur recur' : Recur) : Prop :=
  ∀ phrase, Source.Advances size (fun _ => 1) (recur phrase) (recur' phrase)

variable {size size' bound bound' : Nat} {recur recur' : Recur}

/-- The step for one phrase, with a smaller bound on the tokens left. -/
theorem Recur.Advances.at (hr : Recur.Advances size recur recur') (hsize : size' ≤ size) (phrase : Phrase) :
    Source.Advances size' (fun _ => 1) (recur phrase) (recur' phrase) :=
  (hr phrase).less hsize fun _ => le_rfl

/-- With fewer tokens left the steps advance all the same. -/
theorem Recur.Advances.less (hr : Recur.Advances size recur recur') (hsize : size' ≤ size) :
    Recur.Advances size' recur recur' := hr.at hsize

section Phrases

variable (hr : Recur.Advances size recur recur') (hb : size ≤ bound) (hb' : size ≤ bound')
include hr

/-! ## Functions -/

include hb hb' in
/-- Parameters take a token each. -/
theorem advances_parameterItems :
    Advances size (fun _ => 1) (parameterItems recur bound) (parameterItems recur' bound') := by
  apply Advances.loop _ hb hb'
  intro size bound bound' hsize _ _ ih
  apply (advances_expectName _).bind
  intro ⟨name, position⟩
  apply Advances.ifTook
  · exact .pure rfl
  apply Advances.branch
  · apply Advances.ifTook
    · exact (hr.at (by omega) .expression).optional
    · exact .pure rfl
  intro fallback
  apply Advances.ifTook
  · exact (ih.less (by omega) fun _ => le_rfl).bind fun found => .pure rfl
  · exact .pure rfl

include hb hb' in
/-- A function takes its brackets at least. -/
theorem advances_function (name : Option String) (position : Position) :
    Advances size (fun _ => 1) (function recur bound name position)
      (function recur' bound' name position) := by
  apply (advances_expect _ _).bind
  intro _
  apply Advances.branch
  · apply Advances.ifUpcoming
    · exact .pure rfl
    · exact (advances_parameterItems hr hb hb').less (by omega) fun _ => Nat.zero_le 1
  intro ⟨parameters, rest⟩
  apply (advances_expect _ _).bind
  intro _
  exact (hr.at (by omega) .statement).bind fun body => .pure rfl

/-! ## Blocks -/

include hb hb' in
/-- Statements take a token each. -/
theorem advances_statements (stops : List Keyword) :
    Advances size List.length (statements recur stops bound) (statements recur' stops bound') := by
  apply Advances.loop _ hb hb'
  intro size bound bound' hsize _ _ ih
  apply (advances_takeAll _).bind
  intro _
  apply Advances.look
  intro stop
  split
  · exact .pure rfl
  apply (hr.at (by omega) .statement).bind
  intro first
  have hrest : Advances size (fun nodes => nodes.length - 0 - 1)
      (statements recur stops bound >>= fun rest => pure (first :: rest))
      (statements recur' stops bound' >>= fun rest => pure (first :: rest)) :=
    ih.bind fun rest => .pure (by simp)
  apply Advances.take?
  · intro _
    exact hrest.less (by omega) fun _ => by omega
  · exact hrest

include hb hb' in
/-- Handlers take a token for each one of them. -/
theorem advances_handlers :
    Advances size List.length (handlers recur bound) (handlers recur' bound') := by
  apply Advances.loop _ hb hb'
  intro size bound bound' hsize hb hb' ih
  have hr' : Recur.Advances size recur recur' := hr.less (by omega)
  have hrest : ∀ filter : Option Node, Advances size (fun handlers => handlers.length - 1)
      (statements recur blockStops bound >>= fun body =>
        handlers recur bound >>= fun rest => pure (⟨filter, body⟩ :: rest))
      (statements recur' blockStops bound' >>= fun body =>
        handlers recur' bound' >>= fun rest => pure (⟨filter, body⟩ :: rest)) := by
    intro filter
    apply ((advances_statements hr' hb hb' _).less le_rfl fun _ => Nat.zero_le _).bind
    intro body
    exact ih.bind fun rest => .pure (by simp)
  apply Advances.ifTook
  · apply Advances.take?
    · intro _
      exact (hrest none).less (by omega) fun _ => by omega
    · exact (hr'.at le_rfl .expression).optional.bind hrest
  · exact .pure rfl

include hb hb' in
/-- A block takes its end at least. -/
theorem advances_block (position : Position) :
    Advances size (fun _ => 1) (block recur bound position) (block recur' bound' position) := by
  have hstatements : ∀ stops, Advances size (fun _ => 0) (statements recur stops bound)
      (statements recur' stops bound') := fun stops =>
    (advances_statements hr hb hb' stops).less le_rfl fun _ => Nat.zero_le _
  apply (hstatements blockStops).bind
  intro body
  apply ((advances_handlers hr hb hb').less le_rfl fun _ => Nat.zero_le _).bind
  intro handlers
  apply Advances.branch
  · apply Advances.ifTook
    · exact (hstatements [.end]).less (by omega) fun _ => le_rfl
    · exact .pure rfl
  intro cleanup
  exact (advances_expect _ _).bind fun _ => .pure rfl

/-! ## Choices -/

include hb hb' in
/-- Each branch takes its keyword. -/
theorem advances_branches :
    Advances size (fun _ => 1) (branches recur bound) (branches recur' bound') := by
  have hbranch : Advances size (fun _ => 1) (branches.branch recur) (branches.branch recur') := by
    apply (hr .disjunction).bind
    intro condition
    apply (advances_expect _ _).bind
    intro _
    exact (hr.at (by omega) .statement).bind fun body => .pure rfl
  apply Advances.loop _ hb hb'
  intro size bound bound' hsize _ _ ih
  apply (hbranch.less hsize fun _ => le_rfl).bind
  intro first
  apply Advances.ifTook
  · exact (ih.less (by omega) fun _ => le_rfl).bind fun rest => .pure rfl
  · exact .pure rfl

include hb hb' in
/-- A choice takes its condition at least. -/
theorem advances_choice (position : Position) :
    Advances size (fun _ => 1) (choice recur bound position) (choice recur' bound' position) := by
  apply (advances_branches hr hb hb').bind
  intro branches
  apply Advances.branch
  · apply Advances.ifTook
    · exact (hr.at (by omega) .statement).optional
    · exact .pure rfl
  intro otherwise
  exact .pure rfl

/-! ## Collections -/

/-- An item, with or without a spread, takes a token. -/
theorem advances_item : Advances size (fun _ => 1) (item recur) (item recur') := by
  apply Advances.take?
  · intro position
    exact (hr.at (by omega) .expression).bind fun inner => .pure rfl
  · exact hr .expression

/-- A comprehension takes its keywords. -/
theorem advances_comprehension (kind : CollectionKind) (element : Node) (value : Option Node)
    (position : Position) : Advances size (fun _ => 1) (comprehension recur kind element value position)
      (comprehension recur' kind element value position) := by
  apply (advances_expect _ _).bind
  intro _
  apply (advances_expectName _).bind
  intro ⟨binder, _⟩
  apply (advances_expect _ _).bind
  intro _
  apply (hr.at (by omega) .disjunction).bind
  intro source
  apply Advances.branch
  · apply Advances.ifTook
    · exact (hr.at (by omega) .disjunction).optional
    · exact .pure rfl
  intro condition
  exact .pure rfl

include hb hb' in
/-- More items may take nothing, but each of them takes a token. -/
theorem advances_moreItems (close : Symbol) :
    Advances size (fun _ => 0) (moreItems recur bound close) (moreItems recur' bound' close) := by
  apply Advances.ifTook
  · apply Advances.ifUpcoming
    · exact .pure rfl
    · exact (advances_separatedBefore (advances_item hr) hb hb' close).less (by omega) fun _ => Nat.zero_le 1
  · exact .pure rfl

include hb hb' in
/-- A collection takes its closing bracket. -/
theorem advances_collection (kind : CollectionKind) (form : List Node → Form) (close : Symbol)
    (position : Position) : Advances size (fun _ => 1) (collection recur bound kind form close position)
      (collection recur' bound' kind form close position) := by
  have hclosed : ∀ {size : Nat} (node : Node), Advances size (fun _ => 0)
      (expectSymbol close (.closing close) >>= fun _ => pure node)
      (expectSymbol close (.closing close) >>= fun _ => pure node) :=
    fun node => (advances_expect _ _).bind fun _ => .pure rfl
  apply Advances.ifTook
  · exact .pure rfl
  apply (advances_item hr).bind
  intro first
  have hr' := hr.less (Nat.sub_le size 1)
  apply Advances.ifUpcoming
  · apply (advances_comprehension hr' kind first none position).bind
    exact hclosed
  · simp only [pure_bind]
    apply (advances_moreItems hr' (by omega) (by omega) close).bind
    intro rest
    exact hclosed _

/-- An item of a map takes a token. -/
theorem advances_mapItem : Advances size (fun _ => 1) (mapItem recur) (mapItem recur') := by
  apply Advances.ifTook
  · exact (hr.at (by omega) .expression).bind fun inner => .pure rfl
  apply (hr .expression).bind
  intro key
  apply (advances_expect _ _).bind
  intro _
  exact (hr.at (by omega) .expression).bind fun value => .pure rfl

include hb hb' in
/-- More items of a map may take nothing, but each of them takes a token. -/
theorem advances_moreMapItems :
    Advances size (fun _ => 0) (moreMapItems recur bound) (moreMapItems recur' bound') := by
  apply Advances.ifTook
  · apply Advances.ifUpcoming
    · exact .pure rfl
    · exact (advances_separatedBefore (advances_mapItem hr) hb hb' _).less (by omega) fun _ => Nat.zero_le 1
  · exact .pure rfl

include hb hb' in
/-- A map takes its closing bracket. -/
theorem advances_map (position : Position) :
    Advances size (fun _ => 1) (map recur bound position) (map recur' bound' position) := by
  have hclosed : ∀ {size : Nat} (node : Node), Advances size (fun _ => 0)
      (expectSymbol .closeMap (.closing .closeMap) >>= fun _ => pure node)
      (expectSymbol .closeMap (.closing .closeMap) >>= fun _ => pure node) :=
    fun node => (advances_expect _ _).bind fun _ => .pure rfl
  apply Advances.ifTook
  · exact .pure rfl
  apply (advances_mapItem hr).bind
  intro first
  have hr' := hr.less (Nat.sub_le size 1)
  have hitems : Advances (size - 1) (fun _ => 0)
      (moreMapItems recur bound >>= fun rest => expectSymbol .closeMap (.closing .closeMap) >>= fun _ =>
        pure (Node.mk position (.map (first :: rest))))
      (moreMapItems recur' bound' >>= fun rest => expectSymbol .closeMap (.closing .closeMap) >>= fun _ =>
        pure (.mk position (.map (first :: rest)))) := by
    apply (advances_moreMapItems hr' (by omega) (by omega)).bind
    intro rest
    exact hclosed _
  apply (advances_upcoming _).bind
  intro comes
  simp only [pure_bind]
  cases first with
  | spread inner => exact hitems
  | entry key value =>
    cases comes with
    | false => exact hitems
    | true =>
      apply (advances_comprehension hr' .map key (some value) position).bind
      exact hclosed

/-- A member of an object takes its name. -/
theorem advances_member : Advances size (fun _ => 1) (member recur) (member recur') := by
  apply (advances_expectName _).bind
  intro ⟨name, _⟩
  apply (advances_expect _ _).bind
  intro _
  exact (hr.at (by omega) .expression).bind fun value => .pure rfl

include hb hb' in
/-- An object takes its closing bracket. -/
theorem advances_object (position : Position) :
    Advances size (fun _ => 1) (object recur bound position) (object recur' bound' position) := by
  apply Advances.branch
  · apply Advances.ifUpcoming
    · exact .pure rfl
    · exact (advances_separatedBefore (advances_member hr) hb hb' _).less le_rfl fun _ => Nat.zero_le 1
  intro members
  exact (advances_expect _ _).bind fun _ => .pure rfl

/-! ## Arguments -/

/-- An argument, named or spread or plain, takes a token. -/
theorem advances_argument : Advances size (fun _ => 1) (argument recur) (argument recur') := by
  have hplain : Advances size (fun _ => 1)
      (recur .expression >>= fun value => pure (⟨none, value⟩ : Argument Node))
      (recur' .expression >>= fun value => pure ⟨none, value⟩) :=
    (hr .expression).bind fun value => .pure rfl
  apply Advances.take?
  · intro position
    exact (hr.at (by omega) .expression).bind fun inner => .pure rfl
  apply Advances.look
  intro first
  apply Advances.look
  intro second
  split
  · apply (advances_advance 2).bind
    intro _
    exact (hr.at (by omega) .expression).bind fun value => .pure rfl
  · exact hplain

include hb hb' in
/-- The arguments take their closing bracket. -/
theorem advances_arguments :
    Advances size (fun _ => 1) (arguments recur bound) (arguments recur' bound') := by
  apply Advances.branch
  · apply Advances.ifUpcoming
    · exact .pure rfl
    · exact (advances_separated (advances_argument hr) hb hb').less le_rfl fun _ => Nat.zero_le 1
  intro arguments
  exact (advances_expect _ _).bind fun _ => .pure rfl

end Phrases

end Ckl.Source
