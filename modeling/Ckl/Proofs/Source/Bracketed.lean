import Ckl.Proofs.Source.Place
import Ckl.Proofs.Source.Plain
import Ckl.Proofs.Source.Reading

/-!
# Reading what stands in brackets

Items with commas between them, and the collections, arguments and indices that hold such items. The
expressions inside are read by steps of which it is assumed that they read them.
-/

namespace Ckl.Source

open Reading Grammar

variable {recur : Recur} {bound : Nat}

/-! ## Items with commas between them -/

/-- The tokens behind the first one of several parts with commas between them. -/
def moreLexemes : List (List Lexeme) → List Lexeme
  | [] => []
  | part :: parts => .symbol .comma :: commaLexemes (part :: parts)

/-- The lexemes of the first part, and the others with commas in front. -/
theorem commaLexemes_cons (first : List Lexeme) (rest : List (List Lexeme)) :
    commaLexemes (first :: rest) = first ++ moreLexemes rest := by
  cases rest with
  | nil => simp [commaLexemes, moreLexemes]
  | cons second rest => exact commaLexemes_cons_cons first second rest

section Separated

variable {α γ : Type} {item : Reading α} {parts : List γ} {lexemes : γ → List Lexeme}
  {result : γ → α → Prop} {close : Symbol}

/-- Items between commas are read one by one, as far as no comma follows. -/
theorem reads_separated (hne : parts ≠ []) (hbound : parts.length ≤ bound + 1)
    (hitem : ∀ part ∈ parts, Reads item (lexemes part) (Follows []) (result part)) :
    Reads (separated item bound) (commaLexemes (parts.map lexemes))
      (fun next => Follows [] next ∧ next ≠ some (.symbol .comma)) (List.Forall₂ result parts) := by
  induction parts generalizing bound with
  | nil => exact absurd rfl hne
  | cons first rest ih =>
    have hfirst := hitem first List.mem_cons_self
    cases rest with
    | nil =>
      rw [List.map_singleton, commaLexemes_singleton]
      have hlast : Reads item (lexemes first)
          (fun next => Follows [] next ∧ next ≠ some (.symbol .comma)) (result first) :=
        hfirst.imp (fun _ hn => hn.1) fun _ ha => ha
      cases bound with
      | zero => exact hlast.finish fun a ha => .pure (.cons ha .nil)
      | succ bound =>
        refine hlast.finish fun a ha => ?_
        exact (reads_tookSymbol_none .comma).peek (.pure (.cons ha .nil)) fun _ hn => hn.2
    | cons second rest =>
      obtain ⟨bound, rfl⟩ : ∃ fewer, bound = fewer + 1 := ⟨bound - 1, by grind⟩
      rw [List.map_cons, List.map_cons, commaLexemes_cons_cons]
      refine hfirst.bind (fun a ha => ?_) fun _ _ => rfl
      refine (reads_tookSymbol .comma).take fun | _, rfl => ?_
      have hrest := ih (List.cons_ne_nil second rest) (Nat.le_of_succ_le_succ hbound) fun part hpart =>
        hitem part (List.mem_cons_of_mem first hpart)
      exact hrest.finish fun as has => .pure (.cons ha has)

/-- Items between commas are read up to the closing symbol. -/
theorem reads_separatedBefore (hne : parts ≠ []) (hbound : parts.length ≤ bound + 1)
    (hclose : close.follows = true) (hcomma : close ≠ .comma)
    (hbegins : (Lexeme.symbol close).begins = false) (hstarts : ∀ part ∈ parts, Starts (lexemes part))
    (hitem : ∀ part ∈ parts, Reads item (lexemes part) (Follows []) (result part)) :
    Reads (separatedBefore close item bound) (commaLexemes (parts.map lexemes))
      (· = some (.symbol close)) (List.Forall₂ result parts) := by
  induction parts generalizing bound with
  | nil => exact absurd rfl hne
  | cons first rest ih =>
    have hfirst := hitem first List.mem_cons_self
    cases rest with
    | nil =>
      rw [List.map_singleton, commaLexemes_singleton]
      have hlast : Reads item (lexemes first) (· = some (.symbol close)) (result first) :=
        hfirst.imp (fun _ hn => hn ▸ hclose) fun _ ha => ha
      cases bound with
      | zero => exact hlast.finish fun a ha => .pure (.cons ha .nil)
      | succ bound =>
        refine hlast.finish fun a ha => ?_
        refine (reads_tookSymbol_none .comma).peek (.pure (.cons ha .nil)) fun n hn => ?_
        rintro rfl
        exact hcomma (Lexeme.symbol.inj (Option.some.inj hn)).symm
    | cons second rest =>
      obtain ⟨bound, rfl⟩ : ∃ fewer, bound = fewer + 1 := ⟨bound - 1, by grind⟩
      rw [List.map_cons, List.map_cons, commaLexemes_cons_cons]
      refine hfirst.bind (fun a ha => ?_) fun _ _ => rfl
      refine (reads_tookSymbol .comma).take fun | _, rfl => ?_
      have hsecond : Starts (commaLexemes ((second :: rest).map lexemes)) := by
        rw [List.map_cons, commaLexemes_cons]
        exact (hstarts second (List.mem_cons_of_mem first List.mem_cons_self)).append _
      refine (reads_upcoming_none _ _).peek ?_ fun n _ => hsecond.next_ne hbegins n
      have hrest := ih (List.cons_ne_nil second rest) (Nat.le_of_succ_le_succ hbound)
        (fun part hpart => hstarts part (List.mem_cons_of_mem first hpart)) fun part hpart =>
          hitem part (List.mem_cons_of_mem first hpart)
      exact hrest.finish fun as has => .pure (.cons ha has)

/-- What stands behind the first item of a list, set or map. -/
theorem reads_more (hbound : parts.length ≤ bound + 1) (hclose : close.follows = true)
    (hcomma : close ≠ .comma) (hbegins : (Lexeme.symbol close).begins = false)
    (hstarts : ∀ part ∈ parts, Starts (lexemes part))
    (hitem : ∀ part ∈ parts, Reads item (lexemes part) (Follows []) (result part)) :
    Reads (do
        if ← tookSymbol .comma then
          if ← upcomingSymbol close then return [] else separatedBefore close item bound
        else
          return [])
      (moreLexemes (parts.map lexemes)) (· = some (.symbol close)) (List.Forall₂ result parts) := by
  cases parts with
  | nil =>
    refine (reads_tookSymbol_none .comma).peek (.pure .nil) fun n hn => ?_
    rintro rfl
    exact hcomma (Lexeme.symbol.inj (Option.some.inj hn)).symm
  | cons first rest =>
    have hfirst : Starts (commaLexemes ((first :: rest).map lexemes)) := by
      rw [List.map_cons, commaLexemes_cons]
      exact (hstarts first List.mem_cons_self).append _
    refine (reads_tookSymbol .comma).take fun | _, rfl => ?_
    refine (reads_upcoming_none _ _).peek ?_ fun n _ => hfirst.next_ne hbegins n
    exact reads_separatedBefore (List.cons_ne_nil _ _) hbound hclose hcomma hbegins hstarts hitem

end Separated

/-! ## Collections -/

section Collections

variable {close : Symbol} {position : Position}

/-- An item that is not spread is read as an expression. -/
theorem reads_item {lexemes : List Lexeme} {result : Node → Prop} (hstarts : Starts lexemes)
    (h : Reads (recur .expression) lexemes (Follows []) result) :
    Reads (item recur) lexemes (Follows []) result :=
  (reads_take?_none _).peek h fun n _ => hstarts.next_ne rfl n

/-- A list or a set is read from its items. -/
theorem reads_collection {kind : CollectionKind} {form : List Node → Form} {items : List Node}
    (hbound : items.length ≤ bound + 1) (hclose : close = .closeBracket ∨ close = .closeSet)
    (hstarts : ∀ item ∈ items, Starts item.lexemes)
    (hitem : ∀ item ∈ items, Reads (recur .expression) item.lexemes (Follows []) item.Same) :
    Reads (collection recur bound kind form close position)
      (commaLexemes (items.map Node.lexemes) ++ [.symbol close]) Anything
      fun node => ∃ found, node = .mk position (form found) ∧ List.Forall₂ Node.Same items found := by
  have hfollows : close.follows = true := by rcases hclose with rfl | rfl <;> rfl
  have hcomma : close ≠ .comma := by rcases hclose with rfl | rfl <;> decide
  have hbegins : (Lexeme.symbol close).begins = false := by rcases hclose with rfl | rfl <;> rfl
  cases items with
  | nil => exact (reads_tookSymbol close).take fun | _, rfl => .pure ⟨[], rfl, .nil⟩
  | cons first rest =>
    have hfirst := hstarts first List.mem_cons_self
    rw [List.map_cons, commaLexemes_cons, List.append_assoc]
    refine (reads_tookSymbol_none close).peek ?_ fun n _ => (hfirst.append _).next_ne hbegins n
    refine (reads_item hfirst (hitem first List.mem_cons_self)).bind (fun node hnode => ?_) fun n _ => ?_
    · refine (reads_upcoming_none _ _).peek ?_ fun n _ => ?_
      · refine (reads_more (Nat.le_of_succ_le hbound) hfollows hcomma hbegins
          (fun item hi => hstarts item (List.mem_cons_of_mem first hi)) fun item hi =>
            reads_item (hstarts item (List.mem_cons_of_mem first hi))
              (hitem item (List.mem_cons_of_mem first hi))).bind (fun more hmore => ?_) fun _ _ => rfl
        refine Reads.behindPure ?_
        exact (reads_expect _ _).finish fun _ _ => .pure ⟨node :: more, rfl, .cons hnode hmore⟩
      · cases rest <;> exact nofun
    · cases rest with
      | nil => exact hfollows
      | cons second rest => rfl

/-- A key, an arrow and a value are read as an item of a map. -/
theorem reads_mapItem {key value : List Lexeme} {result result' : Node → Prop} (hstarts : Starts key)
    (h : Reads (recur .expression) key (Follows []) result)
    (h' : Reads (recur .expression) value (Follows []) result') :
    Reads (mapItem recur) (key ++ .symbol .fatArrow :: value) (Follows []) fun found =>
      ∃ key value, found = .entry key value ∧ result key ∧ result' value := by
  refine (reads_tookSymbol_none _).peek ?_ fun n _ => (hstarts.append _).next_ne rfl n
  refine h.bind (fun key hkey => ?_) fun _ _ => rfl
  refine (reads_expect _ _).take fun _ _ => ?_
  exact h'.finish fun value hvalue => .pure ⟨key, value, rfl, hkey, hvalue⟩

/-- A map is read from its keys and values. -/
theorem reads_map {entries : List (Node × Node)} (hbound : entries.length ≤ bound + 1)
    (hstarts : ∀ entry ∈ entries, Starts entry.1.lexemes)
    (hkeys : ∀ entry ∈ entries,
      Reads (recur .expression) entry.1.lexemes (Follows []) entry.1.Same)
    (hvalues : ∀ entry ∈ entries,
      Reads (recur .expression) entry.2.lexemes (Follows []) entry.2.Same) :
    Reads (map recur bound position)
      (commaLexemes (entries.map fun entry =>
        entry.1.lexemes ++ .symbol .fatArrow :: entry.2.lexemes) ++ [.symbol .closeMap]) Anything
      fun node => ∃ found, node = .mk position (.map found) ∧ List.Forall₂ SameEntry entries found := by
  have hitem (entry : Node × Node) (he : entry ∈ entries) :
      Reads (mapItem recur) (entry.1.lexemes ++ .symbol .fatArrow :: entry.2.lexemes) (Follows [])
        (SameEntry entry) := reads_mapItem (hstarts entry he) (hkeys entry he) (hvalues entry he)
  cases entries with
  | nil => exact (reads_tookSymbol _).take fun | _, rfl => .pure ⟨[], rfl, .nil⟩
  | cons first rest =>
    have hfirst := hstarts first List.mem_cons_self
    rw [List.map_cons, commaLexemes_cons, List.append_assoc]
    refine (reads_tookSymbol_none _).peek ?_ fun n _ =>
      ((hfirst.append _).append _).next_ne rfl n
    refine (hitem first List.mem_cons_self).bind (fun entry hentry => ?_) fun n _ => ?_
    · obtain ⟨key, value, rfl, hsame⟩ := hentry
      refine (reads_upcoming_none _ _).peek ?_ fun n _ => ?_
      · refine (reads_more (Nat.le_of_succ_le hbound) rfl (by decide) rfl
          (fun entry he => (hstarts entry (List.mem_cons_of_mem first he)).append _) fun entry he =>
            hitem entry (List.mem_cons_of_mem first he)).bind (fun more hmore => ?_) fun _ _ => rfl
        refine Reads.behindPure ?_
        exact (reads_expect _ _).finish fun _ _ =>
          .pure ⟨.entry key value :: more, rfl, .cons ⟨key, value, rfl, hsame⟩ hmore⟩
      · cases rest <;> exact nofun
    · cases rest with
      | nil => rfl
      | cons second rest => rfl

/-- A name, an assignment and a value are read as a member of an object. -/
theorem reads_member (name : String) {lexemes : List Lexeme} {result : Node → Prop}
    (h : Reads (recur .expression) lexemes (Follows []) result) :
    Reads (member recur) (.name name :: .symbol .assign :: lexemes) (Follows []) fun found =>
      found.name = name ∧ result found.value := by
  refine (reads_expectName _ name).take fun found hfound => ?_
  obtain ⟨_, place⟩ := found
  obtain rfl := hfound
  refine (reads_expect _ _).take fun _ _ => ?_
  exact h.finish fun value hvalue => .pure ⟨rfl, hvalue⟩

/-- An object is read from its members. -/
theorem reads_object {members : List (Member Node)} (hbound : members.length ≤ bound + 1)
    (hvalues : ∀ member ∈ members,
      Reads (recur .expression) member.value.lexemes (Follows []) member.value.Same) :
    Reads (object recur bound position)
      (commaLexemes (members.map fun member =>
        .name member.name :: .symbol .assign :: member.value.lexemes) ++ [.symbol .closeObject])
      Anything fun node =>
        ∃ found, node = .mk position (.object found) ∧ List.Forall₂ Member.Same members found := by
  cases members with
  | nil =>
    refine (reads_upcoming _).peek (Reads.behindPure ?_) fun _ _ => rfl
    exact (reads_expect _ _).finish fun _ _ => .pure ⟨[], rfl, .nil⟩
  | cons first rest =>
    refine (reads_upcoming_none _ _).peek ?_ fun n _ => ?_
    · refine (reads_separatedBefore (List.cons_ne_nil _ _) hbound rfl (by decide) rfl
        (fun member _ => ⟨_, rfl, rfl⟩) fun member hm => reads_member member.name (hvalues member hm)).bind
          (fun found hfound => ?_) fun _ _ => rfl
      exact (reads_expect _ _).finish fun _ _ => .pure ⟨found, rfl, hfound⟩
    · rw [List.map_cons, commaLexemes_cons]
      exact nofun

end Collections

/-! ## Arguments -/

/-- The argument has the same name, and the same value up to places. -/
def Argument.Same (argument found : Argument Node) : Prop :=
  found.name = argument.name ∧ argument.value.Same found.value

/-- Tokens that do not begin with a name and an equality sign, as a named argument does. -/
def Unnamed (lexemes : List Lexeme) : Prop :=
  ∀ name more, lexemes ≠ .name name :: .symbol .assign :: more

/-- The next two lexemes, of which the second may stand behind the phrase. -/
theorem Unnamed.ahead {tokens rest : List Token} (finish : Position)
    (h : Unnamed (tokens.map Token.lexeme)) (hstarts : Starts (tokens.map Token.lexeme))
    (hrest : Follows [] (upNext rest)) (name : String) :
    ¬ ((⟨tokens ++ rest, finish⟩ : Tokens).ahead? 0 = some (.name name) ∧
      (⟨tokens ++ rest, finish⟩ : Tokens).ahead? 1 = some (.symbol .assign)) := by
  rintro ⟨hname, hassign⟩
  match tokens with
  | [] =>
    obtain ⟨_, hnone, _⟩ := hstarts
    cases hnone
  | [first] =>
    have hnext : upNext rest = some (.symbol .assign) := by
      rw [← hassign]
      cases rest <;> rfl
    exact hrest.ne rfl hnext
  | first :: second :: more =>
    have hfirst : first.lexeme = .name name := Option.some.inj hname
    have hsecond : second.lexeme = .symbol .assign := Option.some.inj hassign
    exact h name (more.map Token.lexeme) (by rw [List.map_cons, List.map_cons, hfirst, hsecond])

/-- An argument is read with its name, or without one if it begins no assignment. -/
theorem reads_argument {argument : Argument Node} (hstarts : Starts argument.value.lexemes)
    (hunnamed : Unnamed argument.value.lexemes)
    (h : Reads (recur .expression) argument.value.lexemes (Follows []) argument.value.Same) :
    Reads (Grammar.argument recur) (namedLexemes argument.name argument.value.lexemes) (Follows [])
      argument.Same := by
  obtain ⟨name, value⟩ := argument
  cases name with
  | some name =>
    intro tokens rest finish htokens hrest
    obtain ⟨⟨_, place⟩, tokens, rfl, rfl, hassign⟩ := List.map_eq_cons_iff.mp htokens
    obtain ⟨⟨_, place'⟩, tokens, rfl, rfl, hvalue⟩ := List.map_eq_cons_iff.mp hassign
    obtain ⟨found, hread, hfound⟩ := h tokens rest finish hvalue hrest
    refine ⟨⟨some name, found⟩, ?_, rfl, hfound⟩
    show (recur .expression >>= fun value => pure ⟨some name, value⟩ : Reading (Argument Node)) _ = _
    exact bind_ok hread
  | none =>
    refine (reads_take?_none _).peek ?_ fun n _ => hstarts.next_ne rfl n
    intro tokens rest finish htokens hrest
    obtain ⟨found, hread, hfound⟩ := h tokens rest finish htokens hrest
    refine ⟨⟨none, found⟩, ?_, rfl, hfound⟩
    change tokens.map Token.lexeme = value.lexemes at htokens
    have hahead := Unnamed.ahead finish (htokens.symm ▸ hunnamed) (htokens.symm ▸ hstarts) hrest
    dsimp only
    rw [ahead?_bind, ahead?_bind]
    generalize (⟨tokens ++ rest, finish⟩ : Tokens).ahead? 0 = first at hahead ⊢
    generalize (⟨tokens ++ rest, finish⟩ : Tokens).ahead? 1 = second at hahead ⊢
    split
    · next name => exact absurd ⟨rfl, rfl⟩ (hahead name)
    · exact bind_ok hread

/-- Arguments are read up to the bracket that closes them. -/
theorem reads_arguments {arguments : List (Argument Node)} (hbound : arguments.length ≤ bound + 1)
    (hstarts : ∀ argument ∈ arguments, Starts argument.value.lexemes)
    (hunnamed : ∀ argument ∈ arguments, Unnamed argument.value.lexemes)
    (hvalues : ∀ argument ∈ arguments,
      Reads (recur .expression) argument.value.lexemes (Follows []) argument.value.Same) :
    Reads (Grammar.arguments recur bound)
      (commaLexemes (lexemesArguments arguments) ++ [.symbol .closeParen]) Anything
      (List.Forall₂ Argument.Same arguments) := by
  cases arguments with
  | nil =>
    refine (reads_upcoming _).peek (Reads.behindPure ?_) fun _ _ => rfl
    exact (reads_expect _ _).finish fun _ _ => .pure .nil
  | cons first rest =>
    rw [lexemesArguments_eq_map]
    refine (reads_upcoming_none _ _).peek ?_ fun n _ => ?_
    · refine (reads_separated (List.cons_ne_nil _ _) hbound fun argument ha =>
        reads_argument (hstarts argument ha) (hunnamed argument ha) (hvalues argument ha)).bind
          (fun found hfound => ?_) fun _ _ => ⟨rfl, nofun⟩
      exact (reads_expect _ _).finish fun _ _ => .pure hfound
    · have hfirst : Starts (namedLexemes first.name first.value.lexemes) := by
        cases hname : first.name with
        | none => exact hstarts first List.mem_cons_self
        | some name => exact ⟨_, rfl, rfl⟩
      rw [List.map_cons, commaLexemes_cons]
      exact ((hfirst.append _).append _).next_ne rfl n

/-! ## Operands and suffixes -/

section Suffixes

variable {target : Node} {lexemes : List Lexeme}

/-- A phrase in parentheses stands for itself. -/
theorem reads_parenthesized {follow : Option Lexeme → Prop} {result : Node → Prop}
    (h : Reads (recur .expression) lexemes follow result)
    (hfollow : follow (some (.symbol .closeParen))) :
    Reads (operand recur bound) (.symbol .openParen :: (lexemes ++ [.symbol .closeParen])) Anything
      result := by
  refine Reads.withToken fun position => ?_
  refine h.bind (fun inner hinner => ?_) fun _ _ => hfollow
  exact (reads_expect _ _).finish fun _ _ => .pure hinner

/-- Arguments behind an operand are read as a call of it. -/
theorem reads_callSuffix {result : List (Argument Node) → Prop}
    (h : Reads (arguments recur bound) lexemes Anything result) :
    Reads (suffix? recur bound target) (.symbol .openParen :: lexemes) Anything fun found =>
      ∃ node, found = some node ∧
        ∃ arguments, node = .mk target.position (.call target arguments) ∧ result arguments :=
  (h.finish fun arguments harguments => .pure ⟨_, rfl, arguments, rfl, harguments⟩).skip
    fun _ _ _ => rfl

/-- A key in brackets behind an operand is read as its index. -/
theorem reads_indexSuffix {result : Node → Prop}
    (h : Reads (recur .expression) lexemes (Follows []) result) :
    Reads (suffix? recur bound target)
      (.symbol .openBracket :: (lexemes ++ [.symbol .closeBracket])) Anything fun found =>
        ∃ node, found = some node ∧
          ∃ key, node = .mk target.position (.index target key) ∧ result key := by
  have hkey : Reads (do
        let key ← recur .expression
        let _ ← expectSymbol .closeBracket .indexEnd
        return some (Node.mk target.position (.index target key)))
      (lexemes ++ [.symbol .closeBracket]) Anything fun found => ∃ node, found = some node ∧
        ∃ key, node = .mk target.position (.index target key) ∧ result key := by
    refine h.bind (fun key hkey => ?_) fun _ _ => rfl
    exact (reads_expect _ _).finish fun _ _ => .pure ⟨_, rfl, key, rfl, hkey⟩
  exact hkey.skip fun _ _ _ => rfl

/-- A member and arguments behind an operand are read as an invocation of it. -/
theorem reads_invokeSuffix (member : String) {result : List (Argument Node) → Prop}
    (h : Reads (arguments recur bound) lexemes Anything result) :
    Reads (suffix? recur bound target)
      (.symbol .arrow :: .name member :: .symbol .openParen :: lexemes) Anything fun found =>
        ∃ node, found = some node ∧
          ∃ arguments, node = .mk target.position (.invoke target member arguments) ∧
            result arguments := by
  have hcall (place : Position) : Reads (do
        if ← tookSymbol .openParen then
          return some (.mk target.position (.invoke target member (← arguments recur bound)))
        else
          return some (memberOf target member place))
      (.symbol .openParen :: lexemes) Anything fun found => ∃ node, found = some node ∧
        ∃ arguments, node = .mk target.position (.invoke target member arguments) ∧
          result arguments := by
    refine (reads_tookSymbol _).take fun | _, rfl => ?_
    exact h.finish fun arguments harguments => .pure ⟨_, rfl, arguments, rfl, harguments⟩
  have hmember : Reads (do
        let found ← expectName .memberName
        if ← tookSymbol .openParen then
          return some (.mk target.position (.invoke target found.1 (← arguments recur bound)))
        else
          return some (memberOf target found.1 found.2)) _ _ _ :=
    (reads_expectName .memberName member).take fun | ⟨_, place⟩, rfl => hcall place
  exact hmember.skip fun _ _ _ => rfl

end Suffixes

end Ckl.Source
