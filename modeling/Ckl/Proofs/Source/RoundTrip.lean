import Ckl.Proofs.Source.Bracketed

/-!
# Printed expressions are read back

A plain expression is read on three levels: as an operand, which its suffixes stand behind, as a sum, and
as what stands between `and` and `or`. A negation is read on the last of these only, and a negative number
on the last two, which is why they may not stand everywhere. In parentheses every expression is an
operand again.
-/

namespace Ckl.Source

open Reading Grammar

/-! ## How plain expressions begin -/

/-- Lexemes that do not begin an assignment do not begin one with others behind them. -/
theorem Unnamed.append {lexemes more : List Lexeme} (h : Unnamed lexemes) (hstarts : Starts lexemes)
    (hmore : more.head? ≠ some (.symbol .assign)) : Unnamed (lexemes ++ more) := by
  intro name behind heq
  match lexemes with
  | [] =>
    obtain ⟨_, hnone, _⟩ := hstarts
    cases hnone
  | [first] => exact hmore (congrArg List.head? (List.cons.inj heq).2)
  | first :: second :: rest =>
    simp only [List.cons_append, List.cons.injEq] at heq
    exact h name rest (by rw [heq.1, heq.2.1])

/-- What begins with no name begins no assignment. -/
theorem unnamed_of_head {first : Lexeme} {more : List Lexeme} (h : ∀ name, first ≠ .name name) :
    Unnamed (first :: more) := fun name _ heq => h name (List.cons.inj heq).1

/-- The lexemes of a plain node begin like an operand. -/
theorem Node.Plain.starts {node : Node} (h : node.Plain) : Starts node.lexemes := by
  induction h with
  | boolean position value => exact ⟨_, rfl, rfl⟩
  | int position hvalue =>
    rename_i value
    show Starts (wholeLexemes value.toInt)
    unfold wholeLexemes
    split <;> exact ⟨_, rfl, rfl⟩
  | call position place hfunction _ _ _ => exact ⟨_, rfl, rfl⟩
  | index position _ _ _ _ htarget _ => exact (htarget.append _).append _
  | invoke position _ _ _ _ _ _ htarget _ => exact (htarget.append _).append _
  | _ => exact ⟨_, rfl, rfl⟩

/-- The lexemes of a plain node begin no assignment to a name. -/
theorem Node.Plain.unnamed {node : Node} (h : node.Plain) : Unnamed node.lexemes := by
  induction h with
  | name position hname => exact nofun
  | int position hvalue =>
    rename_i value
    show Unnamed (wholeLexemes value.toInt)
    unfold wholeLexemes
    split <;> exact unnamed_of_head nofun
  | call position place hfunction _ _ _ =>
    rw [lexemes_call]
    intro name more heq
    cases heq
  | index position htarget _ _ _ ih _ =>
    rw [lexemes_index]
    exact ih.append htarget.starts nofun
  | invoke position htarget _ _ _ _ _ ih _ =>
    rw [lexemes_invoke]
    exact ih.append htarget.starts nofun
  | _ => exact unnamed_of_head nofun

/-- A plain node that is no negation does not begin with its keyword. -/
theorem Node.Plain.head_ne_not {node : Node} (h : node.Plain) (hnot : node.isNot = false) :
    node.lexemes.head? ≠ some (.keyword .not) := by
  induction h with
  | int position hvalue =>
    rename_i value
    show (wholeLexemes value.toInt).head? ≠ _
    unfold wholeLexemes
    split <;> exact nofun
  | not position _ _ => cases hnot
  | index position htarget _ hoperand _ ih _ =>
    rw [lexemes_index, List.head?_append, htarget.starts.next]
    exact ih hoperand
  | invoke position htarget _ _ _ hoperand _ ih _ =>
    rw [lexemes_invoke, List.head?_append, htarget.starts.next]
    exact ih hoperand
  | _ => exact nofun

/-- A plain node that is not negative does not begin with a minus. -/
theorem Node.Plain.head_ne_minus {node : Node} (h : node.Plain) (hnegative : node.isNegative = false) :
    node.lexemes.head? ≠ some (.symbol .minus) := by
  induction h with
  | int position hvalue =>
    rename_i value
    show (wholeLexemes value.toInt).head? ≠ _
    unfold wholeLexemes
    rw [if_neg (of_decide_eq_false hnegative)]
    exact nofun
  | index position htarget _ _ hoperand ih _ =>
    rw [lexemes_index, List.head?_append, htarget.starts.next]
    exact ih hoperand
  | invoke position htarget _ _ _ _ hoperand ih _ =>
    rw [lexemes_invoke, List.head?_append, htarget.starts.next]
    exact ih hoperand
  | _ => exact nofun

/-! ## The levels -/

/-- A node whose tokens are read back on every level that it can stand on. -/
structure Node.Readable (node : Node) : Prop where
  stands : node.isNot = false → node.isNegative = false → ∀ bound, node.lexemes.length ≤ bound →
    Stands (read bound) bound node.lexemes node.Same
  sum : node.isNot = false → ∀ bound, node.lexemes.length ≤ bound →
    Reads (sum (read bound) bound) node.lexemes (Follows connectives) node.Same
  negation : ∀ bound, node.lexemes.length ≤ bound →
    Reads (negation (read bound) bound) node.lexemes (Follows [.and, .or]) node.Same

/-- A node that can be read is read as an expression. -/
theorem Node.Readable.expression {node : Node} (h : node.Readable) (hstarts : Starts node.lexemes)
    {bound : Nat} (hbound : node.lexemes.length < bound) :
    Reads (read bound .expression) node.lexemes (Follows []) node.Same := by
  obtain ⟨bound, rfl⟩ : ∃ fewer, bound = fewer + 1 := ⟨bound - 1, by omega⟩
  exact (h.negation bound (Nat.le_of_lt_succ hbound)).inExpression hstarts

/-- A negative node is read if the reader of sums reads it. -/
theorem Node.Plain.readable_of_sum {node : Node} (hplain : node.Plain) (hnot : node.isNot = false)
    (hnegative : node.isNegative = true) (h : ∀ bound, node.lexemes.length ≤ bound →
      Reads (Grammar.sum (read bound) bound) node.lexemes (Follows connectives) node.Same) :
    node.Readable where
  stands _ hpositive := absurd (hnegative.symm.trans hpositive) (by decide)
  sum _ := h
  negation bound hbound :=
    (h bound hbound).inComparison.inNegation hplain.starts (hplain.head_ne_not hnot)

/-- A node that stands as an operand is read at every level above. -/
theorem Node.Plain.readable_of_stands {node : Node} (hplain : node.Plain) (hnot : node.isNot = false)
    (hnegative : node.isNegative = false) (h : ∀ bound, node.lexemes.length ≤ bound →
      Stands (read bound) bound node.lexemes node.Same) : node.Readable := by
  have hsum (bound : Nat) (hbound : node.lexemes.length ≤ bound) :
      Reads (Grammar.sum (read bound) bound) node.lexemes (Follows connectives) node.Same :=
    ((h bound hbound).inSuffixed.inPredicate.inSigned hplain.starts
      (hplain.head_ne_minus hnegative)).inSum
  exact {
    stands := fun _ _ => h
    sum := fun _ => hsum
    negation := fun bound hbound =>
      (hsum bound hbound).inComparison.inNegation hplain.starts (hplain.head_ne_not hnot) }

/-- An operand can stand everywhere. -/
theorem Node.Plain.readable_of_operand {node : Node} (hplain : node.Plain) (hnot : node.isNot = false)
    (hnegative : node.isNegative = false) (h : ∀ bound, node.lexemes.length ≤ bound →
      Reads (operand (read bound) bound) node.lexemes Anything node.Same) : node.Readable :=
  hplain.readable_of_stands hnot hnegative fun bound hbound =>
    (h bound hbound).stands hplain.starts.length_pos

/-- Two phrases in parentheses with a word between them are an operand. -/
theorem Node.Plain.readable_of_joined {node : Node} {left right : List Lexeme} {word : Keyword}
    (hplain : node.Plain) (hnot : node.isNot = false) (hnegative : node.isNegative = false)
    (hlexemes : node.lexemes =
      .symbol .openParen :: (left ++ .keyword word :: (right ++ [.symbol .closeParen])))
    (h : ∀ bound, left.length + right.length < bound →
      Reads (Grammar.expression (read bound) bound) (left ++ .keyword word :: right) (Follows [])
        node.Same) : node.Readable := by
  refine hplain.readable_of_operand hnot hnegative fun bound hbound => ?_
  have hinner : left ++ .keyword word :: (right ++ [.symbol .closeParen]) =
      (left ++ .keyword word :: right) ++ [.symbol .closeParen] := by simp
  rw [hlexemes] at hbound ⊢
  simp only [List.length_cons, List.length_append, List.length_nil] at hbound
  obtain ⟨bound, rfl⟩ : ∃ fewer, bound = fewer + 1 := ⟨bound - 1, by omega⟩
  rw [hinner]
  exact reads_parenthesized (h bound (by omega)) rfl

/-- A part between commas is no longer than the whole. -/
theorem length_le_of_mem {part : List Lexeme} {parts : List (List Lexeme)} (h : part ∈ parts) :
    part.length ≤ (commaLexemes parts).length := by
  induction parts with
  | nil => cases h
  | cons first rest ih =>
    cases rest with
    | nil =>
      rw [commaLexemes_singleton, List.mem_singleton.mp h]
    | cons second rest =>
      rw [commaLexemes_cons_cons, List.length_append, List.length_cons]
      rcases List.mem_cons.mp h with rfl | h
      · omega
      · have := ih h
        omega

/-- There is one part more than there are commas at most. -/
theorem parts_length_le (parts : List (List Lexeme)) :
    parts.length ≤ (commaLexemes parts).length + 1 := by
  induction parts with
  | nil => exact Nat.zero_le _
  | cons first rest ih =>
    cases rest with
    | nil => exact Nat.le_add_left 1 _
    | cons second rest =>
      have hlength := congrArg List.length (commaLexemes_cons_cons first second rest)
      rw [List.length_append, List.length_cons] at hlength
      rw [List.length_cons]
      omega

/-! ## Trees with the same parts -/

/-- Arguments that are the same node by node are the same as a list. -/
theorem same_arguments {arguments found : List (Argument Node)}
    (h : List.Forall₂ Argument.Same arguments found) :
    relocateArguments (fun _ => default) found = relocateArguments (fun _ => default) arguments := by
  induction h with
  | nil => rfl
  | cons hsame _ ih => exact congrArg₂ List.cons (congrArg₂ Argument.mk hsame.1 hsame.2) ih

/-! ## Every plain expression is read back -/

/-- Arguments whose values are read back. -/
theorem reads_plainArguments {arguments : List (Argument Node)} (bound : Nat)
    (hplain : ∀ argument ∈ arguments, argument.value.Plain)
    (hread : ∀ argument ∈ arguments, argument.value.Readable)
    (hbound : (commaLexemes (lexemesArguments arguments)).length < bound) :
    Reads (Grammar.arguments (read bound) bound)
      (commaLexemes (lexemesArguments arguments) ++ [.symbol .closeParen]) Anything
      (List.Forall₂ Argument.Same arguments) := by
  rw [lexemesArguments_eq_map] at hbound
  have hparts := parts_length_le (arguments.map fun argument =>
    namedLexemes argument.name argument.value.lexemes)
  rw [List.length_map] at hparts
  refine reads_arguments (by omega) (fun argument ha => (hplain argument ha).starts)
    (fun argument ha => (hplain argument ha).unnamed) fun argument ha => ?_
  have hpart := length_le_of_mem (List.mem_map_of_mem ha
    (f := fun argument => namedLexemes argument.name argument.value.lexemes))
  have hvalue : argument.value.lexemes.length ≤
      (namedLexemes argument.name argument.value.lexemes).length := by
    cases argument.name <;> simp only [namedLexemes, List.length_cons] <;> omega
  exact (hread argument ha).expression (hplain argument ha).starts (by omega)

/-- The digits of a whole number are read as the number. -/
theorem reads_whole {value : Int} {size : Int64} (bound : Nat)
    (h : Number.readWhole (Number.digitsOf value.natAbs) = some size) :
    Reads (operand (read bound) bound) [.whole (String.ofList (Number.digitsOf value.natAbs))] Anything
      fun node => ∃ position, node = .mk position (.literal (.int size)) := by
  refine Reads.withToken fun position => ?_
  show Reads (wholeLiteral _ position) _ _ _
  simp only [wholeLiteral, String.toList_ofList, h]
  exact .pure ⟨position, rfl⟩

/-- The bounds of parts with commas between them in brackets. -/
theorem bounds_of_enclosed {opening closing : Lexeme} {parts : List (List Lexeme)} {bound : Nat}
    (h : (opening :: (commaLexemes parts ++ [closing])).length ≤ bound) :
    parts.length ≤ bound + 1 ∧ ∀ part ∈ parts, part.length < bound := by
  have hparts := parts_length_le parts
  simp only [List.length_cons, List.length_append, List.length_nil] at h
  refine ⟨by omega, fun part hpart => ?_⟩
  have := length_le_of_mem hpart
  omega

/-- The tokens of a plain expression are read back on every level. -/
theorem Node.Plain.readable {node : Node} (h : node.Plain) : node.Readable := by
  induction h with
  | boolean position value =>
    refine (Plain.boolean position value).readable_of_operand rfl rfl fun bound _ => ?_
    exact Reads.withToken fun place => .pure rfl
  | int position hvalue =>
    rename_i value
    -- the digits of a negative number stand behind a minus, which only the reader of sums takes
    obtain ⟨size, hsize, hsign⟩ := Number.exists_size hvalue
    have hplain := Plain.int position hvalue
    have hlexemes : (Node.mk position (.literal (.int value))).lexemes = wholeLexemes value.toInt := rfl
    unfold wholeLexemes at hlexemes
    by_cases hnegative : value.toInt < 0
    · rw [if_pos hnegative] at hlexemes hsign
      refine hplain.readable_of_sum rfl (decide_eq_true hnegative) fun bound hbound => ?_
      rw [hlexemes] at hbound ⊢
      have hdigits := (reads_whole bound hsize).stands Nat.one_pos
      have hsigned := hdigits.inSuffixed.inPredicate.inSigned ⟨_, rfl, rfl⟩ nofun
      refine hsigned.behindMinus.inSum.giving ?_
      rintro _ ⟨place, _, rfl, place', rfl⟩
      exact hsign ▸ rfl
    · rw [if_neg hnegative] at hlexemes hsign
      refine hplain.readable_of_operand rfl (decide_eq_false hnegative) fun bound hbound => ?_
      rw [hlexemes]
      refine (reads_whole bound hsize).giving ?_
      rintro _ ⟨place, rfl⟩
      exact hsign ▸ rfl
  | string position value =>
    refine (Plain.string position value).readable_of_operand rfl rfl fun bound _ => ?_
    exact Reads.withToken fun place => .pure rfl
  | name position hname =>
    refine (Plain.name position hname).readable_of_operand rfl rfl fun bound _ => ?_
    exact Reads.withToken fun place => .pure rfl
  | list position hitems ih =>
    refine (Plain.list position hitems).readable_of_operand rfl rfl fun bound hbound => ?_
    rw [lexemes_list] at hbound ⊢
    obtain ⟨hparts, hpart⟩ := bounds_of_enclosed hbound
    refine Reads.withToken fun place => ?_
    refine (reads_collection (List.length_map _ ▸ hparts) (.inl rfl) (fun item hi => (hitems item hi).starts)
      fun item hi => (ih item hi).expression (hitems item hi).starts
        (hpart _ (List.mem_map_of_mem hi))).giving ?_
    rintro _ ⟨found, rfl, hfound⟩
    exact congrArg (fun items => Node.mk default (.list items)) (same_items_iff.mpr hfound)
  | set position hitems hfirst hlast ih =>
    refine (Plain.set position hitems hfirst hlast).readable_of_operand rfl rfl fun bound hbound => ?_
    rw [lexemes_set] at hbound ⊢
    obtain ⟨hparts, hpart⟩ := bounds_of_enclosed hbound
    refine Reads.withToken fun place => ?_
    refine (reads_collection (List.length_map _ ▸ hparts) (.inr rfl) (fun item hi => (hitems item hi).starts)
      fun item hi => (ih item hi).expression (hitems item hi).starts
        (hpart _ (List.mem_map_of_mem hi))).giving ?_
    rintro _ ⟨found, rfl, hfound⟩
    exact congrArg (fun items => Node.mk default (.set items)) (same_items_iff.mpr hfound)
  | map position hkeys hvalues hlast ihkeys ihvalues =>
    refine (Plain.map position hkeys hvalues hlast).readable_of_operand rfl rfl fun bound hbound => ?_
    rw [lexemes_map] at hbound ⊢
    obtain ⟨hparts, hpart⟩ := bounds_of_enclosed hbound
    have hentry (entry : Node × Node) (he) := hpart _ (List.mem_map_of_mem (a := entry) he)
    simp only [List.length_append, List.length_cons] at hentry
    refine Reads.withToken fun place => ?_
    refine (reads_map (List.length_map _ ▸ hparts) (fun entry he => (hkeys entry he).starts)
      (fun entry he => (ihkeys entry he).expression (hkeys entry he).starts
        (by have := hentry entry he; omega))
      fun entry he => (ihvalues entry he).expression (hvalues entry he).starts
        (by have := hentry entry he; omega)).giving ?_
    rintro _ ⟨found, rfl, hfound⟩
    exact congrArg (fun items => Node.mk default (.map items)) (same_entries_iff.mpr hfound)
  | object position hnames hvalues ih =>
    refine (Plain.object position hnames hvalues).readable_of_operand rfl rfl fun bound hbound => ?_
    rw [lexemes_object] at hbound ⊢
    obtain ⟨hparts, hpart⟩ := bounds_of_enclosed hbound
    have hmember (member : Member Node) (hm) := hpart _ (List.mem_map_of_mem (a := member) hm)
    simp only [List.length_cons] at hmember
    refine Reads.withToken fun place => ?_
    refine (reads_object (List.length_map _ ▸ hparts) fun member hm =>
      (ih member hm).expression (hvalues member hm).starts
        (by have := hmember member hm; omega)).giving ?_
    rintro _ ⟨found, rfl, hfound⟩
    exact congrArg (fun members => Node.mk default (.object members)) (same_members_iff.mpr hfound)
  | and position hleft hright ihleft ihright =>
    refine (Plain.and position hleft hright).readable_of_joined rfl rfl (lexemes_and _ _ _)
      fun bound hbound => ?_
    refine ((ihleft.negation bound (by omega)).and (ihright.negation bound (by omega)) (by omega)
      hleft.starts).giving ?_
    rintro _ ⟨place, left, right, rfl, hsame, hsame'⟩
    exact congrArg₂ (fun left right => Node.mk default (.and left right)) hsame hsame'
  | or position hleft hright ihleft ihright =>
    refine (Plain.or position hleft hright).readable_of_joined rfl rfl (lexemes_or _ _ _)
      fun bound hbound => ?_
    refine ((ihleft.negation bound (by omega)).or (ihright.negation bound (by omega)) (by omega)
      hleft.starts).giving ?_
    rintro _ ⟨place, left, right, rfl, hsame, hsame'⟩
    exact congrArg₂ (fun left right => Node.mk default (.or left right)) hsame hsame'
  | not position hoperand ih =>
    refine ⟨nofun, nofun, fun bound hbound => ?_⟩
    rw [lexemes_not] at hbound ⊢
    refine (ih.negation bound (Nat.le_of_succ_le hbound)).behindNot.giving ?_
    rintro _ ⟨place, operand, rfl, hsame⟩
    exact congrArg (fun operand => Node.mk default (.not operand)) hsame
  | contained position helement hcontainer hnot hnot' ihelement ihcontainer =>
    rename_i element container
    refine (Plain.contained position helement hcontainer hnot hnot').readable_of_joined rfl rfl
      (lexemes_contained _ _ _) fun bound hbound => ?_
    have hstarts := helement.starts.append (.keyword .in :: container.lexemes)
    -- a `not` in front would be read as the negation of the whole membership
    have hhead : (element.lexemes ++ .keyword .in :: container.lexemes).head? ≠
        some (.keyword .not) := by
      rw [List.head?_append, helement.starts.next]
      exact helement.head_ne_not hnot
    have hcomparison := (ihelement.sum hnot bound (by omega)).contained
      (ihcontainer.sum hnot' bound (by omega))
    have hnegation := hcomparison.inNegation hstarts hhead
    -- what may follow an expression is only less than what may follow the container
    refine ((hnegation.restrict (List.subset_cons_self _ _)).inExpression hstarts).giving ?_
    rintro _ ⟨place, element, container, rfl, hsame, hsame'⟩
    exact congrArg₂ (fun element container => Node.mk default (.contained element container))
      hsame hsame'
  | call position place hfunction hnames harguments ih =>
    rename_i function arguments
    refine (Plain.call position place hfunction hnames harguments).readable_of_stands rfl rfl
      fun bound hbound => ?_
    rw [lexemes_call] at hbound ⊢
    have hlength := hbound
    simp only [List.length_cons, List.length_append, List.length_nil] at hlength
    -- the callee is a name, so it stands as an operand by itself
    have hcallee : Reads (operand (read bound) bound) [.name function] Anything
        (Node.mk place (.name function)).Same := Reads.withToken fun _ => .pure rfl
    have harguments := reads_plainArguments bound harguments ih (by omega)
    refine (hcallee.stands Nat.one_pos).addSuffix (Nat.succ_pos _) hbound fun callee hcallee => ?_
    refine (reads_callSuffix harguments).giving ?_
    rintro _ ⟨_, rfl, found, rfl, hfound⟩
    exact ⟨_, rfl, congrArg₂ (fun callee arguments => Node.mk default (.call callee arguments))
      hcallee (same_arguments hfound)⟩
  | index position htarget hkey hnot hnegative ihtarget ihkey =>
    refine (Plain.index position htarget hkey hnot hnegative).readable_of_stands rfl rfl
      fun bound hbound => ?_
    rw [lexemes_index] at hbound ⊢
    have hlength := hbound
    simp only [List.length_cons, List.length_append, List.length_nil] at hlength
    refine (ihtarget.stands hnot hnegative bound (by omega)).addSuffix (Nat.succ_pos _) hbound
      fun target htarget => ?_
    refine (reads_indexSuffix (ihkey.expression hkey.starts (by omega))).giving ?_
    rintro _ ⟨_, rfl, key, rfl, hkey⟩
    exact ⟨_, rfl, congrArg₂ (fun target key => Node.mk default (.index target key)) htarget hkey⟩
  | invoke position htarget hmember hnames harguments hnot hnegative ihtarget ih =>
    rename_i _ member _
    refine (Plain.invoke position htarget hmember hnames harguments hnot hnegative).readable_of_stands
      rfl rfl fun bound hbound => ?_
    rw [lexemes_invoke] at hbound ⊢
    have hlength := hbound
    simp only [List.length_cons, List.length_append, List.length_nil] at hlength
    have harguments := reads_plainArguments bound harguments ih (by omega)
    refine (ihtarget.stands hnot hnegative bound (by omega)).addSuffix (Nat.succ_pos _) hbound
      fun target htarget => ?_
    refine (reads_invokeSuffix member harguments).giving ?_
    rintro _ ⟨_, rfl, found, rfl, hfound⟩
    exact ⟨_, rfl, congrArg₂ (fun target arguments =>
      Node.mk default (.invoke target member arguments)) htarget (same_arguments hfound)⟩

/-! ## Scripts -/

/-- At the end nothing is ahead. -/
theorem reads_ahead?_none : Reads (ahead? 0) [] (· = none) (· = none) := by
  refine reads_nothing fun rest finish h => ?_
  cases rest with
  | nil => rfl
  | cons token rest => cases h

section Script

variable {recur : Recur} {bound : Nat} {lexemes : List Lexeme} {result : Node → Prop}

/-- A step that looks at the first lexeme, which it knows. -/
theorem Reads.behindAhead {α : Type} {step : Option Lexeme → Reading α} {first : Lexeme}
    {follow : Option Lexeme → Prop} {result : α → Prop}
    (h : Reads (step (some first)) (first :: lexemes) follow result) :
    Reads (ahead? 0 >>= step) (first :: lexemes) follow result := by
  intro tokens rest finish htokens hrest
  obtain ⟨token, tokens, rfl, rfl, rfl⟩ := List.map_eq_cons_iff.mp htokens
  exact h (token :: tokens) rest finish rfl hrest

/-- What is read as an expression and not followed by an assignment is read as an assignment. -/
theorem reads_assignment (h : Reads (expression recur bound) lexemes (· = none) result) :
    Reads (assignment recur bound) lexemes (· = none) result :=
  h.finish fun _ htarget => reads_ahead?_none.peek (.pure htarget) fun _ hn => hn

/-- What begins like an operand and is read as an expression is read as a statement. -/
theorem reads_statement (hstarts : Starts lexemes)
    (h : Reads (expression recur bound) lexemes (· = none) result) :
    Reads (statement recur bound) lexemes (· = none) result := by
  obtain ⟨first, hfirst, hbegins⟩ := hstarts
  obtain ⟨more, rfl⟩ := List.head?_eq_some_iff.mp hfirst
  refine Reads.behindAhead ?_
  cases first with
  | keyword word => cases word <;> first | exact reads_assignment h | cases hbegins
  | _ => exact reads_assignment h

/-- A script of one statement. -/
theorem reads_statements (hstarts : Starts lexemes)
    (h : Reads (recur .statement) lexemes (· = none) result) :
    Reads (statements recur [] (bound + 1)) lexemes (· = none) fun nodes =>
      ∃ node, nodes = [node] ∧ result node := by
  have hend : Reads (statements recur [] bound) [] (· = none) (· = []) := by
    cases bound with
    | zero => exact .pure rfl
    | succ bound =>
      refine (reads_takeAll_none _).peek ?_ fun n hn => hn ▸ nofun
      exact reads_ahead?_none.peek (.pure rfl) fun _ hn => hn
  have hsemicolon : Reads (takeSymbol? .semicolon) [] (· = none) (· = none) :=
    (reads_take?_none _).imp (fun n hn => hn ▸ nofun) fun _ ha => ha
  refine (reads_takeAll_none _).peek ?_ fun n _ => hstarts.next_ne rfl n
  obtain ⟨first, hfirst, hbegins⟩ := hstarts
  obtain ⟨more, rfl⟩ := List.head?_eq_some_iff.mp hfirst
  refine Reads.behindAhead (h.finish fun node hnode => ?_)
  refine hsemicolon.peek ?_ fun _ hn => hn
  exact hend.finish fun _ hnil => hnil ▸ .pure ⟨node, rfl, hnode⟩

/-- A text whose tokens are read as an expression is a script of this expression. -/
theorem Reads.readScript {file text : String} {found : Scan} (hscan : scan file text = .ok found)
    (hlexemes : found.tokens.map Token.lexeme = lexemes) (hstarts : Starts lexemes)
    (h : Reads (expression (read found.tokens.length) found.tokens.length) lexemes (· = none) result) :
    ∃ node, readScript file text = .ok node ∧ result node := by
  let bound := found.tokens.length
  have hstatement : Reads (read (bound + 1) .statement) lexemes (· = none) result :=
    reads_statement hstarts h
  have hscript : Reads (statements (read (bound + 1)) [] (bound + 1)) lexemes (· = none) _ :=
    reads_statements hstarts hstatement
  obtain ⟨_, hread, node, rfl, hnode⟩ := hscript found.tokens [] found.finish hlexemes rfl
  refine ⟨node, ?_, hnode⟩
  rw [List.append_nil] at hread
  have hstatements : scriptStatements found = .ok [node] := by
    show (statements (read (bound + 1)) [] (bound + 1) ⟨found.tokens, found.finish⟩ >>=
      fun read => Except.ok read.1) = _
    rw [hread]
    rfl
  show (scan file text >>= fun found => scriptStatements found >>= fun nodes =>
    Except.ok (scriptOfStatements found.position nodes)) = _
  rw [hscan]
  show (scriptStatements found >>= fun nodes =>
    Except.ok (scriptOfStatements found.position nodes)) = _
  rw [hstatements]
  rfl

end Script

/-- The text of a plain node is scanned into its lexemes. -/
theorem Node.Plain.scan_text {node : Node} (h : node.Plain) (file : String) :
    ∃ found, scan file node.text = .ok found ∧ found.tokens.map Token.lexeme = node.lexemes := by
  have hscans := h.piece [] [] divides_nil (fun _ => nofun) scans_nil (.start file)
  rwa [List.append_nil, List.append_nil, ← String.toList_ofList (l := node.chars)] at hscans

/-- A script with the tokens of a plain expression is this expression up to places. -/
theorem Node.Plain.readScript_of_scan {node : Node} (h : node.Plain) {file text : String} {tokens : Scan}
    (hscan : scan file text = .ok tokens) (hlexemes : tokens.tokens.map Token.lexeme = node.lexemes) :
    ∃ found, readScript file text = .ok found ∧ node.Same found := by
  have hbound : node.lexemes.length ≤ tokens.tokens.length := by rw [← hlexemes, List.length_map]
  have hexpression := (h.readable.negation tokens.tokens.length hbound).inExpression h.starts
  have hlast : Reads (Grammar.expression (read tokens.tokens.length) tokens.tokens.length) node.lexemes
      (· = none) node.Same := hexpression.imp (fun n hn => hn ▸ rfl) fun _ hnode => hnode
  exact hlast.readScript hscan hlexemes h.starts

/-- The text of a plain expression is a script that is the same expression up to places. -/
theorem Node.Plain.readScript_text {node : Node} (h : node.Plain) (file : String) :
    ∃ found, readScript file node.text = .ok found ∧ node.Same found := by
  obtain ⟨tokens, hscan, hlexemes⟩ := h.scan_text file
  exact h.readScript_of_scan hscan hlexemes

/-- A negated test of membership, with a negative argument that has a name, an index, and a member that is
called. -/
def negatedMembership : Node :=
  let node := Node.mk default
  let element := node (.index
    (node (.call (node (.name "f")) [⟨some "n", node (.literal (.int (-1)))⟩]))
    (node (.literal (.int 0))))
  let container := node (.invoke (node (.name "t")) "m" [⟨none, node (.literal (.string "a"))⟩])
  node (.not (node (.contained element container)))

example : negatedMembership.text = "not (f(n=-1)[0] in t->m('a'))" := by decide +kernel

/-- A negated membership, printed and read again. -/
theorem readScript_negatedMembership : negatedMembership.Plain ∧
    ∃ found, readScript "" negatedMembership.text = .ok found ∧ negatedMembership.Same found := by
  have hcall : (Node.mk default (.call (.mk default (.name "f"))
      [⟨some "n", .mk default (.literal (.int (-1)))⟩])).Plain := by
    refine .call _ _ (by decide +kernel) (fun argument ha => ?_) fun argument ha => ?_
    · rw [List.mem_singleton.mp ha]
      decide +kernel
    · rw [List.mem_singleton.mp ha]
      exact .int _ (by decide)
  have hinvoke : (Node.mk default (.invoke (.mk default (.name "t")) "m"
      [⟨none, .mk default (.literal (.string "a"))⟩])).Plain := by
    refine .invoke _ (.name _ (by decide +kernel)) (by decide +kernel) (fun argument ha => ?_)
      (fun argument ha => ?_) rfl rfl
    · rw [List.mem_singleton.mp ha]
      rfl
    · rw [List.mem_singleton.mp ha]
      exact .string _ _
  have hplain : negatedMembership.Plain :=
    .not _ (.contained _ (.index _ hcall (.int _ (by decide)) rfl rfl) hinvoke rfl rfl)
  exact ⟨hplain, hplain.readScript_text ""⟩

end Ckl.Source
