import Ckl.Proofs.Source.Extension

/-!
# Phrases in brackets, in a text that goes on

The steps for phrases in brackets have outcomes if those for the phrases inside them have. Loops go on as
long as tokens are left, so each of them needs only that its bound is not less than their number.
-/

namespace Ckl.Source

open Reading Grammar

/-! ## Trees at other places -/

section Relocation

attribute [simp] Form.relocate relocateComprehension relocateLambda relocateLoop

variable (move : Position → Position)

/-- To be relocated as a thing with places is to be relocated as a node. -/
@[simp] theorem relocate_node (node : Node) : Placed.relocate move node = node.relocate move := rfl

@[simp] theorem relocate_mk (position : Position) (form : Form) :
    (Node.mk position form).relocate move = .mk (move position) (form.relocate move) := rfl

@[simp] theorem relocate_place (position : Position) : Placed.relocate move position = move position := rfl

@[simp] theorem relocate_string (text : String) : Placed.relocate move text = text := rfl

@[simp] theorem relocate_bool (value : Bool) : Placed.relocate move value = value := rfl

@[simp] theorem relocate_optionalString (text : Option String) : Placed.relocate move text = text := by
  cases text <;> rfl

@[simp] theorem relocate_strings (texts : List String) : Placed.relocate move texts = texts :=
  List.map_id _

@[simp] theorem relocate_none {α : Type} [Placed α] : Placed.relocate move (none : Option α) = none := rfl

@[simp] theorem relocate_some {α : Type} [Placed α] (a : α) :
    Placed.relocate move (some a) = some (Placed.relocate move a) := rfl

@[simp] theorem relocate_nil {α : Type} [Placed α] : Placed.relocate move ([] : List α) = [] := rfl

@[simp] theorem relocate_cons {α : Type} [Placed α] (a : α) (rest : List α) :
    Placed.relocate move (a :: rest) = Placed.relocate move a :: Placed.relocate move rest := rfl

@[simp] theorem relocate_argument (name : Option String) (value : Node) :
    Placed.relocate move (⟨name, value⟩ : Argument Node) = ⟨name, value.relocate move⟩ := rfl

/-- The parts of nodes are relocated as the things with places that they are; the instances and the
recursion over nodes agree. -/
@[simp] theorem relocateOption_eq (node : Option Node) :
    relocateOption move node = Placed.relocate move node := by
  cases node <;> rfl

@[simp] theorem relocateEach_eq (nodes : List Node) :
    relocateEach move nodes = Placed.relocate move nodes := relocateEach_eq_map move nodes

@[simp] theorem relocateMembers_eq (members : List (Member Node)) :
    relocateMembers move members = Placed.relocate move members := relocateMembers_eq_map move members

@[simp] theorem relocateMapItems_eq (items : List (MapItem Node)) :
    relocateMapItems move items = Placed.relocate move items := by
  induction items with
  | nil => rfl
  | cons item items ih => cases item <;> exact congrArg _ ih

@[simp] theorem relocateBranches_eq (branches : List (Branch Node)) :
    relocateBranches move branches = Placed.relocate move branches := by
  induction branches with
  | nil => rfl
  | cons branch branches ih => exact congrArg _ ih

@[simp] theorem relocateHandlers_eq (handlers : List (Handler Node)) :
    relocateHandlers move handlers = Placed.relocate move handlers := by
  induction handlers with
  | nil => rfl
  | cons handler handlers ih =>
    obtain ⟨filter, body⟩ := handler
    simp only [relocateHandlers, ih, relocateOption_eq, relocateEach_eq]
    rfl

@[simp] theorem relocateArguments_eq (arguments : List (Argument Node)) :
    relocateArguments move arguments = Placed.relocate move arguments := by
  induction arguments with
  | nil => rfl
  | cons argument arguments ih => exact congrArg _ ih

@[simp] theorem relocateParameters_eq (parameters : List (Parameter Node)) :
    relocateParameters move parameters = Placed.relocate move parameters := by
  induction parameters with
  | nil => rfl
  | cons parameter parameters ih =>
    obtain ⟨name, fallback⟩ := parameter
    simp only [relocateParameters, ih, relocateOption_eq]
    rfl

end Relocation

/-! ## Phrases inside others -/

/-- The phrases inside have outcomes on all tokens that are less than `size`, and a name that stands alone
is an expression. -/
structure Recurs (texts : Extension) (size : Nat) (recur recur' : Recur) : Prop where
  phrase : ∀ phrase, Continues texts texts.Open size 1 (recur phrase) (recur' phrase)
  lone : 1 < size → ∀ word position,
    ∃ found, recur .expression (texts.short [⟨.name word, position⟩]) = .ok found

variable {α : Type} [Placed α] {texts : Extension} {size size' bound bound' : Nat} {recur recur' : Recur}

/-! ## Items with commas between them -/

/-- Items between commas can be cut off at every token. -/
theorem continues_separated {item item' : Reading α} (hitem : Continues texts texts.Open size 1 item item')
    (hb : size ≤ bound) (hb' : size ≤ bound') :
    Continues texts texts.Open size 1 (separated item bound) (separated item' bound') := by
  refine .loop (fun size bound bound' hsize _ _ ih => ?_) hb hb'
  refine (hitem.less hsize le_rfl).bind fun first => .ifSymbol (by decide) ?_ (.pure rfl)
  exact (ih.less (by omega) le_rfl).andThen fun rest => .pure rfl

/-- So can items in front of a closing symbol. -/
theorem continues_separatedBefore {close : Symbol} (hclose : close ≠ .semicolon)
    {item item' : Reading α} (hitem : Continues texts texts.Open size 1 item item')
    (hb : size ≤ bound) (hb' : size ≤ bound') :
    Continues texts texts.Open size 1 (separatedBefore close item bound)
      (separatedBefore close item' bound') := by
  refine .loop (fun size bound bound' hsize _ _ ih => ?_) hb hb'
  refine (hitem.less hsize le_rfl).bind fun first => ?_
  refine .ifSymbol (by decide) (.ifUpcomingSymbol hclose (.pure rfl) ?_) (.pure rfl)
  exact (ih.less (by omega) le_rfl).andThen fun rest => .pure rfl

section Phrases

variable (hr : Recurs texts size recur recur') (hb : size ≤ bound) (hb' : size ≤ bound')
include hr

/-- Phrases inside may be shorter than they have to be. -/
theorem Recurs.mono (hsize : size' ≤ size) : Recurs texts size' recur recur' :=
  ⟨fun phrase => (hr.phrase phrase).less hsize le_rfl, fun h => hr.lone (by omega)⟩

/-- A phrase inside continues, also when a token has been used before it. -/
theorem Recurs.at {used : Nat} (hsize : size' ≤ size) (hused : used ≤ 1) (phrase : Phrase) :
    Continues texts texts.Open size' used (recur phrase) (recur' phrase) :=
  (hr.phrase phrase).less hsize hused

/-! ## Functions -/

include hb hb' in
/-- Parameters of functions can be cut off, their fallbacks included. -/
theorem continues_parameterItems :
    Continues texts texts.Open size 1 (parameterItems recur bound) (parameterItems recur' bound') := by
  refine .loop (fun size bound bound' hsize _ _ ih => ?_) hb hb'
  refine (continues_expectName _).bind fun ⟨name, position⟩ => .ifSymbol (by decide) (.pure rfl) ?_
  refine .branch (.ifSymbol (by decide) (hr.at (by omega) (by omega) .expression).optional (.pure rfl))
    fun fallback => ?_
  refine .ifSymbol (by decide) ?_ (.pure rfl)
  exact (ih.less (by omega) le_rfl).andThen fun found => .pure rfl

include hb hb' in
/-- So can a function, before and in its body. -/
theorem continues_function (name : Option String) (position : Position) :
    Continues texts texts.Open size 1 (function recur bound name position)
      (function recur' bound' name (texts.move position)) := by
  unfold function
  refine (continues_expect _ _).bind fun _ => ?_
  have hitems := (continues_parameterItems hr hb hb').less (Nat.sub_le size 1) (Nat.zero_le 1)
  refine .branch (.ifUpcomingSymbol (by decide) (.pure rfl) hitems) fun ⟨parameters, rest⟩ => ?_
  refine (continues_expect _ _).andThen fun _ => (hr.at (by omega) le_rfl .statement).andThen fun body => ?_
  exact .pure (by simp)

/-! ## Blocks -/

include hb hb' in
/-- Where the longer text goes on, more statements can follow those of the shorter one. -/
theorem continues_statements (stops : List Keyword) :
    Continues texts texts.Longer size 0 (statements recur stops bound) (statements recur' stops bound') := by
  refine .loop (fun size bound bound' hsize _ _ ih => ?_) hb hb'
  have hmore : Continues texts texts.Longer (size + 1) 1
      (do
        let first ← recur .statement
        let _ ← takeSymbol? .semicolon
        return first :: (← statements recur stops bound))
      (do
        let first ← recur' .statement
        let _ ← takeSymbol? .semicolon
        return first :: (← statements recur' stops bound')) := by
    have hfirst := (hr.phrase .statement).mono hsize le_rfl Extension.Open.longer
    refine hfirst.bind fun first => .take? Extension.longer_of_next (fun _ => ?_) ?_
    · exact (ih.less (by omega) le_rfl).bind fun rest => .pure rfl
    · exact (ih.less (by omega) le_rfl).bind fun rest => .pure rfl
  refine (continues_takeAll _ Extension.longer_of_next).andThen fun _ => ?_
  refine .peek (fun _ hnext => .inl (Extension.longer_of_next hnext)) (.pure rfl) fun token rest hrest => ?_
  split
  · exact .settled [] (token :: rest) (.refl _) rfl rfl
  · exact (hmore (token :: rest) hrest).mono (Nat.zero_le 1) id

include hb hb' in
/-- Handlers are cut off only inside: what has been read of them would be read of a longer text. -/
theorem continues_handlers :
    Continues texts texts.Longer size 0 (handlers recur bound) (handlers recur' bound') := by
  refine .loop (fun size bound bound' hsize hb hb' ih => ?_) hb hb'
  have hr' := hr.mono hsize.le
  have hrest : ∀ filter : Option Node, Continues texts texts.Longer size 0
      (do
        let body ← statements recur blockStops bound
        return ⟨filter, body⟩ :: (← handlers recur bound))
      (do
        let body ← statements recur' blockStops bound'
        return ⟨Placed.relocate texts.move filter, body⟩ :: (← handlers recur' bound')) := fun filter =>
    (continues_statements hr' hb hb' _).bind fun body => ih.bind fun rest => .pure rfl
  refine .ifTook Extension.longer_of_next
    (.take? Extension.longer_of_next (fun _ => (hrest none).less (by omega) (by omega)) ?_) (.pure rfl)
  have hfilter := hr'.at le_rfl (Nat.zero_le 1) .expression
  exact (hfilter.optional.mono le_rfl le_rfl Extension.Open.longer).bind hrest

omit hr in
/-- No opening begins with a word that goes on with a block. -/
theorem tookKeyword_of_pending {front : List Token} (hpending : Pending front) {word : Keyword}
    (hword : word ∈ blockStops) : tookKeyword word (texts.short front) = .ok (false, texts.short front) := by
  have hnext : upNext front ≠ some (.keyword word) := by
    cases front with
    | nil => exact nofun
    | cons token front =>
      intro hnext
      have hhead := hpending.head
      rw [Option.some.inj hnext] at hhead
      revert hword hhead
      cases word <;> decide
  obtain ⟨_, htook, rfl⟩ := reads_tookKeyword_none word [] front texts.finish rfl hnext
  exact htook

omit hr in
/-- A block that is not closed is at the end of the text. -/
theorem blocked_blockEnd (node : Node) :
    Blocked texts (do let _ ← expectKeyword .end .blockEnd; return node) := by
  intro front hpending
  cases front with
  | nil => exact ⟨_, rfl⟩
  | cons token front =>
    have hend : token.lexeme ≠ .keyword .end := by
      intro hend
      have hhead := hpending.head
      rw [hend] at hhead
      revert hhead
      decide
    exact ⟨_, bind_error (if_neg hend)⟩

include hb hb' in
/-- A block can be cut off before its closing word. -/
theorem continues_block (position : Position) :
    Continues texts texts.Open size 0 (block recur bound position)
      (block recur' bound' (texts.move position)) := by
  unfold block
  simp only [bind_branch]
  -- whatever follows, the block needs its `end`, which no opening is
  have hcleanup : Continues texts texts.Longer size 0
      (tookKeyword .finally >>= fun took =>
        if took = true then statements recur [.end] bound else pure [])
      (tookKeyword .finally >>= fun took =>
        if took = true then statements recur' [.end] bound' else pure []) :=
    .ifTook Extension.longer_of_next ((continues_statements hr hb hb' _).less (by omega) le_rfl)
      (.pure rfl)
  have hclosed : ∀ body handlers, Blocked texts
      ((tookKeyword .finally >>= fun took =>
        if took = true then statements recur [.end] bound else pure []) >>= fun cleanup => do
          let _ ← expectKeyword .end .blockEnd
          return Node.mk position (.block body handlers cleanup)) := fun body handlers =>
    .behind (fun front hpending => ⟨[], bind_ok (tookKeyword_of_pending hpending (by decide))⟩)
      fun cleanup => blocked_blockEnd _
  refine .closing (continues_statements hr hb hb' _) (fun body => ?_) fun body => ?_
  · refine .closing (continues_handlers hr hb hb') (fun handlers => ?_) (hclosed body)
    refine hcleanup.closing (fun cleanup => ?_) fun cleanup => blocked_blockEnd _
    exact (continues_expect _ _).andThen fun _ => .pure (by simp)
  · refine .behind (fun front hpending => ⟨[], ?_⟩) (hclosed body)
    cases bound with
    | zero => rfl
    | succ bound => exact bind_ok (tookKeyword_of_pending hpending (by decide))

/-! ## Choices -/

include hb hb' in
/-- So can the branches of a choice, -/
theorem continues_branches :
    Continues texts texts.Open size 1 (branches recur bound) (branches recur' bound') := by
  have hbranch : Continues texts texts.Open size 1 (branches.branch recur) (branches.branch recur') := by
    refine (hr.phrase .disjunction).bind fun condition => ?_
    refine (continues_expect _ _).andThen fun _ => ?_
    exact (hr.at (by omega) le_rfl .statement).andThen fun body => .pure rfl
  refine .loop (fun size bound bound' hsize _ _ ih => ?_) hb hb'
  refine (hbranch.less hsize le_rfl).bind fun first => .ifKeyword ?_ (.pure rfl)
  exact (ih.less (by omega) le_rfl).andThen fun rest => .pure rfl

include hb hb' in
/-- and the choice with them. -/
theorem continues_choice (position : Position) :
    Continues texts texts.Open size 1 (choice recur bound position)
      (choice recur' bound' (texts.move position)) := by
  refine (continues_branches hr hb hb').bind fun branches => ?_
  refine .branch (.ifKeyword (hr.at (by omega) (by omega) .statement).optional (.pure rfl))
    fun otherwise => ?_
  exact .pure (by simp)

/-! ## Collections -/

/-- Items of lists and sets, spread or not. -/
theorem continues_item : Continues texts texts.Open size 1 (item recur) (item recur') := by
  refine .take? (Extension.opens nofun) (fun position => ?_) (hr.phrase .expression)
  exact (hr.at (by omega) le_rfl .expression).andThen fun inner => .pure rfl

/-- A comprehension behind its element: its name, its source and its condition. -/
theorem continues_comprehension (kind : CollectionKind) (element : Node) (value : Option Node)
    (position : Position) :
    Continues texts texts.Open size 1 (comprehension recur kind element value position)
      (comprehension recur' kind (Placed.relocate texts.move element) (Placed.relocate texts.move value)
        (texts.move position)) := by
  refine (continues_expect _ _).bind fun _ => (continues_expectName _).andThen fun ⟨binder, _⟩ => ?_
  refine (continues_expect _ _).andThen fun _ => ?_
  refine (hr.at (by omega) le_rfl .disjunction).andThen fun source => ?_
  refine .branch (.ifKeyword (hr.at (by omega) (by omega) .disjunction).optional (.pure rfl))
    fun condition => ?_
  exact .pure (by simp)

include hb hb' in
/-- The rest of the items behind the first one. -/
theorem continues_moreItems {close : Symbol} (hclose : close ≠ .semicolon) :
    Continues texts texts.Open size 0 (moreItems recur bound close) (moreItems recur' bound' close) := by
  refine .ifSymbol (by decide) (.ifUpcomingSymbol hclose (.pure rfl) ?_) (.pure rfl)
  exact (continues_separatedBefore hclose (continues_item hr) hb hb').less (by omega) (by omega)

include hb hb' in
/-- A list or a set, whether it turns out to be a comprehension or not. -/
theorem continues_collection (kind : CollectionKind) {form : List Node → Form}
    (hform : ∀ items, (form items).relocate texts.move = form (Placed.relocate texts.move items))
    {close : Symbol} (hclose : close ≠ .semicolon) (position : Position) :
    Continues texts texts.Open size 1 (collection recur bound kind form close position)
      (collection recur' bound' kind form close (texts.move position)) := by
  refine .ifSymbol hclose (.pure ?_) ((continues_item hr).bind fun first => ?_)
  · exact congrArg (Node.mk _) (hform []).symm
  have hclosed : ∀ {size : Nat} (node : Node), Continues texts texts.Open size 0
      (do let _ ← expectSymbol close (.closing close); return node)
      (do let _ ← expectSymbol close (.closing close); return node.relocate texts.move) :=
    fun node => (continues_expect _ _).andThen fun _ => .pure rfl
  have hr' := hr.mono (Nat.sub_le size 1)
  refine .ifUpcomingKeyword ?_ ?_
  · exact (continues_comprehension hr' kind first none position).andThen hclosed
  · refine (continues_moreItems hr' (by omega) (by omega) hclose).andThen fun rest => ?_
    exact .andThen (.pure (congrArg (Node.mk _) (hform (first :: rest)).symm)) hclosed

/-- Entries of maps, spread or not. -/
theorem continues_mapItem : Continues texts texts.Open size 1 (mapItem recur) (mapItem recur') := by
  refine .ifSymbol (by decide) ?_ ((hr.phrase .expression).bind fun key => ?_)
  · exact (hr.at (by omega) le_rfl .expression).andThen fun inner => .pure rfl
  · refine (continues_expect _ _).andThen fun _ => ?_
    exact (hr.at (by omega) le_rfl .expression).andThen fun value => .pure rfl

include hb hb' in
/-- The rest of the entries behind the first one. -/
theorem continues_moreMapItems :
    Continues texts texts.Open size 0 (moreMapItems recur bound) (moreMapItems recur' bound') := by
  refine .ifSymbol (by decide) (.ifUpcomingSymbol (by decide) (.pure rfl) ?_) (.pure rfl)
  exact (continues_separatedBefore (by decide) (continues_mapItem hr) hb hb').less (by omega) (by omega)

include hb hb' in
/-- A map, whether it turns out to be a comprehension or not. -/
theorem continues_map (position : Position) :
    Continues texts texts.Open size 1 (map recur bound position)
      (map recur' bound' (texts.move position)) := by
  refine .ifSymbol (by decide) (.pure rfl) ((continues_mapItem hr).bind fun first => ?_)
  have hclosed : ∀ {size : Nat} (node : Node), Continues texts texts.Open size 0
      (do let _ ← expectSymbol .closeMap (.closing .closeMap); return node)
      (do let _ ← expectSymbol .closeMap (.closing .closeMap); return node.relocate texts.move) :=
    fun node => (continues_expect _ _).andThen fun _ => .pure rfl
  have hr' := hr.mono (Nat.sub_le size 1)
  have hitems := continues_moreMapItems hr' (by omega : size - 1 ≤ bound) (by omega : size - 1 ≤ bound')
  cases first with
  | spread inner =>
    refine .upcoming (Extension.opens nofun) ?_ ?_
    all_goals
      refine hitems.andThen fun rest => .andThen (.pure ?_) hclosed
      simp
  | entry key value =>
    refine .upcoming (Extension.opens nofun) ?_ ?_
    · exact (continues_comprehension hr' .map key (some value) position).andThen hclosed
    · refine hitems.andThen fun rest => .andThen (.pure ?_) hclosed
      simp

/-- Members of objects. -/
theorem continues_member : Continues texts texts.Open size 1 (member recur) (member recur') := by
  refine (continues_expectName _).bind fun ⟨name, _⟩ => (continues_expect _ _).andThen fun _ => ?_
  exact (hr.at (by omega) le_rfl .expression).andThen fun value => .pure rfl

include hb hb' in
/-- An object with its members. -/
theorem continues_object (position : Position) :
    Continues texts texts.Open size 1 (object recur bound position)
      (object recur' bound' (texts.move position)) := by
  unfold object
  have hmembers := continues_separatedBefore (by decide : Symbol.closeObject ≠ .semicolon)
    (continues_member hr) hb hb'
  refine .branch (.ifUpcomingSymbol (by decide) (.pure rfl) (hmembers.less le_rfl (Nat.zero_le 1)))
    fun members => (continues_expect _ _).bind fun _ => .pure ?_
  simp

/-! ## Arguments -/

/-- A name at the end of the text is an expression, whatever it is in the longer text. -/
theorem Recurs.outcome_lone {next : Node → Reading α} {word : String} {position : Position}
    (hnext : ∀ node, ∃ step, Continues texts texts.Open (size - 1) 0 (next node) step)
    (hsize : 1 < size) (hopen : texts.Open) (found : Except Fault (α × Tokens)) :
    Outcome texts texts.Open 1 [⟨.name word, position⟩]
      ((recur .expression >>= next) (texts.short [⟨.name word, position⟩])) found := by
  obtain ⟨_, hlone⟩ := hr.lone hsize word position
  cases hr.phrase .expression [⟨.name word, position⟩] hsize with
  | settled node left hleft h | unsettled node left hleft _ _ h =>
    obtain ⟨step, hstep⟩ := hnext node
    have hlength := hleft.2
    simp only [List.length_singleton] at hlength
    obtain rfl : left = [] := List.length_eq_zero_iff.mp (by omega)
    rw [bind_ok h]
    exact ((hstep [] (by simp; omega)).unsettle (.inl rfl) hopen found).behind hleft le_rfl
  | incomplete _ _ h | awaiting _ _ h | rejected _ _ _ h => cases hlone.symm.trans h

omit hr in
/-- An argument that is an expression alone. -/
theorem argument_unnamed (recur : Recur) (tokens : Tokens)
    (hspread : upNext tokens.rest ≠ some (.symbol .spread))
    (hname : ∀ word, upNext tokens.rest = some (.name word) →
      upNext tokens.rest.tail ≠ some (.symbol .assign)) :
    argument recur tokens =
      (recur .expression >>= fun value => pure ⟨none, value⟩ : Reading (Argument Node)) tokens := by
  obtain ⟨tokens, finish⟩ := tokens
  obtain ⟨_, htake, rfl⟩ := reads_take?_none (.symbol .spread) [] tokens finish rfl hspread
  refine (bind_ok htake).trans ?_
  dsimp only
  rw [ahead?_bind, ahead?_bind]
  have hfirst : (⟨tokens, finish⟩ : Tokens).ahead? 0 = upNext tokens := by cases tokens <;> rfl
  have hsecond : (⟨tokens, finish⟩ : Tokens).ahead? 1 = upNext tokens.tail := by
    cases tokens with
    | nil => rfl
    | cons token tokens => cases tokens <;> rfl
  rw [hfirst, hsecond]
  dsimp only at hname
  generalize upNext tokens = first at hname
  generalize upNext tokens.tail = second at hname
  split
  · next name => exact absurd rfl (hname name rfl)
  · rfl

/-- Arguments, named or spread or neither. -/
theorem continues_argument : Continues texts texts.Open size 1 (argument recur) (argument recur') := by
  have hplain : Continues texts texts.Open size 1
      (recur .expression >>= fun value => pure ⟨none, value⟩ : Reading (Argument Node))
      (recur' .expression >>= fun value => pure ⟨none, value⟩) :=
    (hr.phrase .expression).bind fun value => .pure rfl
  intro front hfront
  match front with
  | [] =>
    by_cases hopen : texts.Open
    · exact (hplain [] hfront).unsettle (.inl rfl) hopen _
    · have hnext : ∀ lexeme, lexeme ≠ .symbol .semicolon → upNext texts.more ≠ some lexeme :=
        fun lexeme h hnext => hopen ⟨lexeme, hnext, h⟩
      rw [argument_unnamed recur' (texts.long []) (hnext _ nofun) fun word h => absurd h (hnext _ nofun)]
      exact hplain [] hfront
  | ⟨lexeme, position⟩ :: rest =>
    rw [List.length_cons] at hfront
    -- the three ways an argument begins: spread, with a name, as an expression alone
    by_cases hspread : lexeme = .symbol .spread
    · subst hspread
      have hinner : Continues texts texts.Open (size - 1) 1
          (recur .expression >>= fun inner => pure ⟨none, .mk position (.spread inner)⟩ :
            Reading (Argument Node))
          (recur' .expression >>= fun inner => pure ⟨none, .mk (texts.move position) (.spread inner)⟩) :=
        (hr.at (by omega) le_rfl .expression).bind fun inner => .pure rfl
      exact hinner.skip (by omega) (by omega)
    by_cases hname : ∃ word, lexeme = .name word ∧ upNext (texts.long rest).rest = some (.symbol .assign)
    -- the sign behind the name may stand in the text that is added
    · obtain ⟨word, rfl, hassign⟩ := hname
      cases rest with
      | nil =>
        have hvalue : ∀ value, ∃ step, Continues texts texts.Open (size - 1) 0
            (pure ⟨none, value⟩ : Reading (Argument Node)) step := fun value => ⟨_, .pure rfl⟩
        exact hr.outcome_lone hvalue hfront (Extension.opens_symbol (by decide) hassign) _
      | cons second rest =>
        obtain ⟨lexeme, place⟩ := second
        obtain rfl : lexeme = .symbol .assign := Option.some.inj hassign
        rw [List.length_cons] at hfront
        have hvalue : Continues texts texts.Open (size - 2) 1
            (recur .expression >>= fun value => pure ⟨some word, value⟩ : Reading (Argument Node))
            (recur' .expression >>= fun value => pure ⟨some word, value⟩) :=
          (hr.at (by omega) le_rfl .expression).bind fun value => .pure rfl
        exact (hvalue.skip (by omega) le_rfl).behind (.tail _ _) (by omega)
    · have hspread' : some lexeme ≠ some (.symbol .spread) := fun h => hspread (Option.some.inj h)
      rw [argument_unnamed recur (texts.short (⟨lexeme, position⟩ :: rest)) hspread',
        argument_unnamed recur' (texts.long (⟨lexeme, position⟩ :: rest)) hspread']
      · exact hplain _ hfront
      · exact fun word hword hassign => hname ⟨word, Option.some.inj hword, hassign⟩
      · intro word hword hassign
        refine hname ⟨word, Option.some.inj hword, ?_⟩
        cases rest with
        | nil => cases hassign
        | cons => exact hassign

include hb hb' in
/-- All arguments of a call. -/
theorem continues_arguments :
    Continues texts texts.Open size 1 (arguments recur bound) (arguments recur' bound') := by
  unfold arguments
  have hitems := continues_separated (continues_argument hr) hb hb'
  refine .branch (.ifUpcomingSymbol (by decide) (.pure rfl) (hitems.less le_rfl (Nat.zero_le 1)))
    fun arguments => (continues_expect _ _).bind fun _ => .pure rfl

end Phrases

end Ckl.Source
