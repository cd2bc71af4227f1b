import Ckl.Proofs.Number.Whole
import Ckl.Proofs.Source.Lexing
import Ckl.Proofs.Source.Place
import Ckl.Source.Node.Printed

/-!
# Plain expressions

The expressions whose texts can be read back: literals, names, collections without spread items, the
logical operators, membership, calls of named functions, indices and members that are called. All other
operators stand for such expressions. `Node.lexemes` are the tokens that the text of a plain expression
has; `Node.Plain.scans` says that these are the tokens that are found in it.
-/

namespace Ckl.Source

/-! ## Tokens -/

/-- The digits of an integer, behind a sign if it is negative. -/
def wholeLexemes (value : Int) : List Lexeme :=
  (if value < 0 then [.symbol .minus] else []) ++
    [.whole (String.ofList (Number.digitsOf value.natAbs))]

/-- The tokens of a literal; decimals and patterns are not covered. -/
def Literal.lexemes : Literal → List Lexeme
  | .boolean value => [.boolean value]
  | .int value => wholeLexemes value.toInt
  | .string value => [.string value]
  | _ => []

/-- Tokens with commas between them. -/
def commaLexemes (parts : List (List Lexeme)) : List Lexeme :=
  (parts.intersperse [.symbol .comma]).flatten

/-- A name and an equality sign in front of tokens, if there is a name. -/
def namedLexemes (name : Option String) (lexemes : List Lexeme) : List Lexeme :=
  match name with
  | some name => .name name :: .symbol .assign :: lexemes
  | none => lexemes

mutual

/-- The tokens of the text of a plain expression. -/
def Node.lexemes : Node → List Lexeme
  | .mk _ form => form.lexemes
termination_by structural node => node

/-- The tokens of the text of a form. -/
def Form.lexemes : Form → List Lexeme
  | .literal value => value.lexemes
  | .name name => [.name name]
  | .list items =>
    .symbol .openBracket :: commaLexemes (lexemesEach items) ++ [.symbol .closeBracket]
  | .set items => .symbol .openSet :: commaLexemes (lexemesEach items) ++ [.symbol .closeSet]
  | .map items => .symbol .openMap :: commaLexemes (lexemesMapItems items) ++ [.symbol .closeMap]
  | .object members =>
    .symbol .openObject :: commaLexemes (lexemesMembers members) ++ [.symbol .closeObject]
  | .and left right =>
    .symbol .openParen :: left.lexemes ++ .keyword .and :: right.lexemes ++ [.symbol .closeParen]
  | .or left right =>
    .symbol .openParen :: left.lexemes ++ .keyword .or :: right.lexemes ++ [.symbol .closeParen]
  | .not operand => .keyword .not :: operand.lexemes
  | .contained element container =>
    .symbol .openParen :: element.lexemes ++ .keyword .in :: container.lexemes ++
      [.symbol .closeParen]
  | .call callee arguments =>
    callee.lexemes ++ .symbol .openParen :: commaLexemes (lexemesArguments arguments) ++
      [.symbol .closeParen]
  | .index target key =>
    target.lexemes ++ .symbol .openBracket :: key.lexemes ++ [.symbol .closeBracket]
  | .invoke target member arguments =>
    target.lexemes ++ .symbol .arrow :: .name member :: .symbol .openParen ::
      commaLexemes (lexemesArguments arguments) ++ [.symbol .closeParen]
  | _ => []
termination_by structural form => form

/-- The tokens of each node. -/
def lexemesEach : List Node → List (List Lexeme)
  | [] => []
  | node :: nodes => node.lexemes :: lexemesEach nodes
termination_by structural nodes => nodes

/-- The tokens of an item of a map. -/
def lexemesMapItem : MapItem Node → List Lexeme
  | .entry key value => key.lexemes ++ .symbol .fatArrow :: value.lexemes
  | .spread _ => []
termination_by structural item => item

/-- The tokens of each item of a map. -/
def lexemesMapItems : List (MapItem Node) → List (List Lexeme)
  | [] => []
  | item :: items => lexemesMapItem item :: lexemesMapItems items
termination_by structural items => items

/-- The tokens of each member of an object. -/
def lexemesMembers : List (Member Node) → List (List Lexeme)
  | [] => []
  | ⟨name, value⟩ :: members =>
    (.name name :: .symbol .assign :: value.lexemes) :: lexemesMembers members
termination_by structural members => members

/-- The tokens of each argument of a call. -/
def lexemesArguments : List (Argument Node) → List (List Lexeme)
  | [] => []
  | ⟨name, value⟩ :: arguments => namedLexemes name value.lexemes :: lexemesArguments arguments
termination_by structural arguments => arguments

end

/-! ## Plain expressions -/

/-- Whether a node is a negation, which is written without parentheses. -/
def Node.isNot (node : Node) : Bool :=
  match node.form with
  | .not _ => true
  | _ => false

/-- Whether a node is a number behind a minus sign. -/
def Node.isNegative (node : Node) : Bool :=
  match node.form with
  | .literal (.int value) => value.toInt < 0
  | _ => false

/-- Behind the text of a node, one more angle would be read together with its last one. -/
def Node.endsInSet (node : Node) : Prop := node.lexemes.getLast? = some (.symbol .closeSet)

/-- An expression whose text can be read back. The angles of collections that stand inside each other
must not touch where they would be read as others. -/
inductive Node.Plain : Node → Prop where
  | boolean (position : Position) (value : Bool) : Plain (.mk position (.literal (.boolean value)))
  | int (position : Position) {value : Int64} : value ≠ Int64.minValue →
    Plain (.mk position (.literal (.int value)))
  | string (position : Position) (value : String) : Plain (.mk position (.literal (.string value)))
  | name (position : Position) {name : String} : isName name = true → Plain (.mk position (.name name))
  | list (position : Position) {items : List Node} : (∀ item ∈ items, Plain item) →
    Plain (.mk position (.list items))
  | set (position : Position) {items : List Node} : (∀ item ∈ items, Plain item) →
    (∀ item ∈ items.head?, item.chars.head? ≠ some '<') →
    (∀ item ∈ items.getLast?, ¬ item.endsInSet) → Plain (.mk position (.set items))
  | map (position : Position) {entries : List (Node × Node)} : (∀ entry ∈ entries, Plain entry.1) →
    (∀ entry ∈ entries, Plain entry.2) → (∀ entry ∈ entries.getLast?, ¬ entry.2.endsInSet) →
    Plain (.mk position (.map (entries.map fun entry => .entry entry.1 entry.2)))
  | object (position : Position) {members : List (Member Node)} :
    (∀ member ∈ members, isName member.name = true) → (∀ member ∈ members, Plain member.value) →
    Plain (.mk position (.object members))
  | and (position : Position) {left right : Node} : Plain left → Plain right →
    Plain (.mk position (.and left right))
  | or (position : Position) {left right : Node} : Plain left → Plain right →
    Plain (.mk position (.or left right))
  | not (position : Position) {operand : Node} : Plain operand → Plain (.mk position (.not operand))
  | contained (position : Position) {element container : Node} : Plain element → Plain container →
    element.isNot = false → container.isNot = false →
    Plain (.mk position (.contained element container))
  | call (position place : Position) {function : String} {arguments : List (Argument Node)} :
    isName function = true → (∀ argument ∈ arguments, argument.name.all isName = true) →
    (∀ argument ∈ arguments, Plain argument.value) →
    Plain (.mk position (.call (.mk place (.name function)) arguments))
  | index (position : Position) {target key : Node} : Plain target → Plain key →
    target.isNot = false → target.isNegative = false → Plain (.mk position (.index target key))
  | invoke (position : Position) {target : Node} {member : String} {arguments : List (Argument Node)} :
    Plain target → isName member = true →
    (∀ argument ∈ arguments, argument.name.all isName = true) →
    (∀ argument ∈ arguments, Plain argument.value) → target.isNot = false →
    target.isNegative = false → Plain (.mk position (.invoke target member arguments))

/-- A plain expression does not spread what it stands for. -/
theorem Node.Plain.not_spread {node found : Node} (h : node.Plain) (hsame : node.Same found)
    (inner : Node) : found.form ≠ .spread inner := by
  obtain ⟨place, form⟩ := found
  rintro (rfl : form = .spread inner)
  cases h <;> cases (Node.mk.inj hsame).2

/-! ## The parts of lists -/

/-- The texts of nodes one by one, and so with all parts of plain forms below. -/
theorem charsEach_eq_map (nodes : List Node) : charsEach nodes = nodes.map Node.chars := by
  induction nodes with
  | nil => rfl
  | cons node nodes ih => exact congrArg _ ih

theorem lexemesEach_eq_map (nodes : List Node) : lexemesEach nodes = nodes.map Node.lexemes := by
  induction nodes with
  | nil => rfl
  | cons node nodes ih => exact congrArg _ ih

theorem charsMapItems_eq_map (entries : List (Node × Node)) :
    charsMapItems (entries.map fun entry => .entry entry.1 entry.2) =
      entries.map fun entry => entry.1.chars ++ " => ".toList ++ entry.2.chars := by
  induction entries with
  | nil => rfl
  | cons entry entries ih => exact congrArg _ ih

theorem lexemesMapItems_eq_map (entries : List (Node × Node)) :
    lexemesMapItems (entries.map fun entry => .entry entry.1 entry.2) =
      entries.map fun entry => entry.1.lexemes ++ .symbol .fatArrow :: entry.2.lexemes := by
  induction entries with
  | nil => rfl
  | cons entry entries ih => exact congrArg _ ih

theorem charsMembers_eq_map (members : List (Member Node)) :
    charsMembers members = members.map fun member => member.name.toList ++ '=' :: member.value.chars := by
  induction members with
  | nil => rfl
  | cons member members ih => exact congrArg _ ih

theorem lexemesMembers_eq_map (members : List (Member Node)) :
    lexemesMembers members =
      members.map fun member => .name member.name :: .symbol .assign :: member.value.lexemes := by
  induction members with
  | nil => rfl
  | cons member members ih => exact congrArg _ ih

theorem charsArguments_eq_map (arguments : List (Argument Node)) :
    charsArguments arguments = arguments.map fun argument => named argument.name argument.value.chars := by
  induction arguments with
  | nil => rfl
  | cons argument arguments ih => exact congrArg _ ih

theorem lexemesArguments_eq_map (arguments : List (Argument Node)) :
    lexemesArguments arguments =
      arguments.map fun argument => namedLexemes argument.name argument.value.lexemes := by
  induction arguments with
  | nil => rfl
  | cons argument arguments ih => exact congrArg _ ih

section Equations

variable (position : Position)

/-- A list is written in square brackets, with commas and blanks between its items. -/
theorem chars_list (items : List Node) : (Node.mk position (.list items)).chars =
    Symbol.openBracket.chars ++ (commas (items.map Node.chars) ++ Symbol.closeBracket.chars) := by
  rw [← charsEach_eq_map]
  rfl

/-- The tokens of a list are those of its items with commas between them. -/
theorem lexemes_list (items : List Node) : (Node.mk position (.list items)).lexemes =
    .symbol .openBracket :: (commaLexemes (items.map Node.lexemes) ++ [.symbol .closeBracket]) := by
  rw [← lexemesEach_eq_map]
  rfl

/-- A set is written between doubled angle brackets. -/
theorem chars_set (items : List Node) : (Node.mk position (.set items)).chars =
    Symbol.openSet.chars ++ (commas (items.map Node.chars) ++ Symbol.closeSet.chars) := by
  show "<<".toList ++ commas (charsEach items) ++ ">>".toList = _
  simp [charsEach_eq_map, Symbol.chars]

theorem lexemes_set (items : List Node) : (Node.mk position (.set items)).lexemes =
    .symbol .openSet :: (commaLexemes (items.map Node.lexemes) ++ [.symbol .closeSet]) := by
  rw [← lexemesEach_eq_map]
  rfl

/-- A map is written between tripled angle brackets, with arrows between keys and values. -/
theorem chars_map (entries : List (Node × Node)) :
    (Node.mk position (.map (entries.map fun entry => .entry entry.1 entry.2))).chars =
      Symbol.openMap.chars ++
        (commas (entries.map fun entry => entry.1.chars ++ ' ' :: '=' :: '>' :: ' ' :: entry.2.chars) ++
          Symbol.closeMap.chars) := by
  show "<<<".toList ++ commas (charsMapItems _) ++ ">>>".toList = _
  simp [charsMapItems_eq_map, Symbol.chars]

theorem lexemes_map (entries : List (Node × Node)) :
    (Node.mk position (.map (entries.map fun entry => .entry entry.1 entry.2))).lexemes =
      .symbol .openMap ::
        (commaLexemes (entries.map fun entry =>
          entry.1.lexemes ++ .symbol .fatArrow :: entry.2.lexemes) ++ [.symbol .closeMap]) := by
  rw [← lexemesMapItems_eq_map]
  rfl

/-- An object is written between starred angle brackets, with its members like assignments. -/
theorem chars_object (members : List (Member Node)) : (Node.mk position (.object members)).chars =
    Symbol.openObject.chars ++
      (commas (members.map fun member => member.name.toList ++ '=' :: member.value.chars) ++
        Symbol.closeObject.chars) := by
  show "<*".toList ++ commas (charsMembers members) ++ "*>".toList = _
  simp [charsMembers_eq_map, Symbol.chars]

theorem lexemes_object (members : List (Member Node)) : (Node.mk position (.object members)).lexemes =
    .symbol .openObject ::
      (commaLexemes (members.map fun member =>
        .name member.name :: .symbol .assign :: member.value.lexemes) ++ [.symbol .closeObject]) := by
  rw [← lexemesMembers_eq_map]
  rfl

/-- A conjunction is written in parentheses of its own, as are all connectives. -/
theorem chars_and (left right : Node) : (Node.mk position (.and left right)).chars =
    '(' :: (left.chars ++ ' ' :: (Keyword.and.text.toList ++ ' ' :: (right.chars ++ [')']))) := by
  show '(' :: left.chars ++ " and ".toList ++ right.chars ++ [')'] = _
  simp [Keyword.text]

theorem lexemes_and (left right : Node) : (Node.mk position (.and left right)).lexemes =
    .symbol .openParen :: (left.lexemes ++ .keyword .and :: (right.lexemes ++ [.symbol .closeParen])) := by
  show .symbol .openParen :: left.lexemes ++ .keyword .and :: right.lexemes ++ [.symbol .closeParen] = _
  simp

theorem chars_or (left right : Node) : (Node.mk position (.or left right)).chars =
    '(' :: (left.chars ++ ' ' :: (Keyword.or.text.toList ++ ' ' :: (right.chars ++ [')']))) := by
  show '(' :: left.chars ++ " or ".toList ++ right.chars ++ [')'] = _
  simp [Keyword.text]

theorem lexemes_or (left right : Node) : (Node.mk position (.or left right)).lexemes =
    .symbol .openParen :: (left.lexemes ++ .keyword .or :: (right.lexemes ++ [.symbol .closeParen])) := by
  show .symbol .openParen :: left.lexemes ++ .keyword .or :: right.lexemes ++ [.symbol .closeParen] = _
  simp

/-- A negation is written without parentheses. -/
theorem chars_not (operand : Node) :
    (Node.mk position (.not operand)).chars = Keyword.not.text.toList ++ ' ' :: operand.chars := by
  show "not ".toList ++ operand.chars = _
  simp [Keyword.text]

theorem lexemes_not (operand : Node) :
    (Node.mk position (.not operand)).lexemes = .keyword .not :: operand.lexemes := rfl

/-- A test of membership is written in parentheses too. -/
theorem chars_contained (element container : Node) :
    (Node.mk position (.contained element container)).chars =
      '(' :: (element.chars ++ ' ' ::
        (Keyword.in.text.toList ++ ' ' :: (container.chars ++ [')']))) := by
  show '(' :: element.chars ++ " in ".toList ++ container.chars ++ [')'] = _
  simp [Keyword.text]

theorem lexemes_contained (element container : Node) :
    (Node.mk position (.contained element container)).lexemes =
      .symbol .openParen ::
        (element.lexemes ++ .keyword .in :: (container.lexemes ++ [.symbol .closeParen])) := by
  show .symbol .openParen :: element.lexemes ++ .keyword .in :: container.lexemes ++
    [.symbol .closeParen] = _
  simp

/-- A call is written as its callee with the arguments behind it. -/
theorem chars_call (callee : Node) (arguments : List (Argument Node)) :
    (Node.mk position (.call callee arguments)).chars =
      callee.chars ++ '(' :: (commas (charsArguments arguments) ++ [')']) := by
  show callee.chars ++ '(' :: commas (charsArguments arguments) ++ [')'] = _
  simp

theorem lexemes_call (callee : Node) (arguments : List (Argument Node)) :
    (Node.mk position (.call callee arguments)).lexemes =
      callee.lexemes ++
        .symbol .openParen :: (commaLexemes (lexemesArguments arguments) ++ [.symbol .closeParen]) := by
  show callee.lexemes ++ .symbol .openParen :: commaLexemes (lexemesArguments arguments) ++
    [.symbol .closeParen] = _
  simp

/-- An index is written in square brackets behind its target. -/
theorem chars_index (target key : Node) : (Node.mk position (.index target key)).chars =
    target.chars ++ '[' :: (key.chars ++ [']']) := by
  show target.chars ++ '[' :: key.chars ++ [']'] = _
  simp

theorem lexemes_index (target key : Node) : (Node.mk position (.index target key)).lexemes =
    target.lexemes ++ .symbol .openBracket :: (key.lexemes ++ [.symbol .closeBracket]) := by
  show target.lexemes ++ .symbol .openBracket :: key.lexemes ++ [.symbol .closeBracket] = _
  simp

/-- A call of a member is written with an arrow. -/
theorem chars_invoke (target : Node) (member : String) (arguments : List (Argument Node)) :
    (Node.mk position (.invoke target member arguments)).chars =
      target.chars ++ '-' :: '>' ::
        (member.toList ++ '(' :: (commas (charsArguments arguments) ++ [')'])) := by
  show target.chars ++ "->".toList ++ member.toList ++ '(' :: commas (charsArguments arguments) ++
    [')'] = _
  simp

theorem lexemes_invoke (target : Node) (member : String) (arguments : List (Argument Node)) :
    (Node.mk position (.invoke target member arguments)).lexemes =
      target.lexemes ++ .symbol .arrow :: ([.name member] ++
        .symbol .openParen :: (commaLexemes (lexemesArguments arguments) ++ [.symbol .closeParen])) := by
  show target.lexemes ++ .symbol .arrow :: .name member :: .symbol .openParen ::
    commaLexemes (lexemesArguments arguments) ++ [.symbol .closeParen] = _
  simp

end Equations

/-- Between two texts there are a comma and a blank. -/
theorem commas_cons_cons (first second : List Char) (rest : List (List Char)) :
    commas (first :: second :: rest) = first ++ ',' :: ' ' :: commas (second :: rest) := by
  simp [commas]

/-- Texts with commas between them begin with the first of them. -/
theorem commas_cons (first : List Char) (rest : List (List Char)) :
    ∃ behind, commas (first :: rest) = first ++ behind := by
  cases rest with
  | nil => exact ⟨[], by simp [commas]⟩
  | cons second rest => exact ⟨_, commas_cons_cons first second rest⟩

theorem commaLexemes_cons_cons (first second : List Lexeme) (rest : List (List Lexeme)) :
    commaLexemes (first :: second :: rest) =
      first ++ .symbol .comma :: commaLexemes (second :: rest) := by
  simp [commaLexemes]

/-! ## Scanning -/

/-- A text whose tokens are known whatever stands behind it, if that neither continues a word or number
nor is an angle behind the end of a set. -/
def Piece (cs : List Char) (lexemes : List Lexeme) : Prop :=
  ∀ rest more, Divides rest →
    (lexemes.getLast? = some (.symbol .closeSet) → rest.head? ≠ some '>') → Scans rest more →
    Scans (cs ++ rest) (lexemes ++ more)

/-- A symbol is read for itself if nothing that follows could make it a longer one. -/
theorem scans_symbol (mark : Symbol) {rest : List Char} {more : List Lexeme}
    (hrest : ∀ c ∈ rest.head?, c ∉ mark.continuations) (hslash : mark.chars.head? ≠ some '/')
    (h : Scans rest more) : Scans (mark.chars ++ rest) (.symbol mark :: more) :=
  (begins_symbol hrest hslash).scans h

/-- A symbol that is not the beginning of another one. -/
theorem scans_final (mark : Symbol) {rest : List Char} {more : List Lexeme}
    (hfinal : mark.continuations = []) (hslash : mark.chars.head? ≠ some '/') (h : Scans rest more) :
    Scans (mark.chars ++ rest) (.symbol mark :: more) :=
  scans_symbol mark (fun c _ hc => by rw [hfinal] at hc; cases hc) hslash h

/-- Parts with commas between them. -/
theorem scans_commas {α : Type} {text : α → List Char} {lexemes : α → List Lexeme} {items : List α}
    {rest : List Char} {more : List Lexeme}
    (hpiece : ∀ item ∈ items, Piece (text item) (lexemes item)) (hrest : Divides rest)
    (hlast : ∀ item ∈ items.getLast?, (lexemes item).getLast? = some (.symbol .closeSet) →
      rest.head? ≠ some '>')
    (h : Scans rest more) :
    Scans (commas (items.map text) ++ rest) (commaLexemes (items.map lexemes) ++ more) := by
  induction items with
  | nil => exact h
  | cons first items ih =>
    have hfirst := hpiece first List.mem_cons_self
    cases items with
    | nil =>
      have htext : commas [text first] = text first := by simp [commas]
      have hlexemes : commaLexemes [lexemes first] = lexemes first := by simp [commaLexemes]
      simp only [List.map_cons, List.map_nil, htext, hlexemes]
      exact hfirst rest more hrest (hlast first rfl) h
    | cons second items =>
      have hbehind := ih (fun item hi => hpiece item (List.mem_cons_of_mem first hi)) fun item hi =>
        hlast item (by rwa [List.getLast?_cons_cons])
      simp only [List.map_cons] at hbehind ⊢
      rw [commas_cons_cons, commaLexemes_cons_cons, List.append_assoc, List.append_assoc,
        List.cons_append, List.cons_append, List.cons_append]
      refine hfirst _ _ (divides_cons (by decide)) (fun _ => by simp) ?_
      exact scans_final .comma (by decide) (by decide) hbehind.blank

/-- A text that does not begin with a character that would make an equality sign before it longer. -/
def Opens (cs : List Char) : Prop := ∃ c more, cs = c :: more ∧ c ≠ '=' ∧ c ≠ '>'

/-- A beginning that separates keeps doing so, whatever is written behind it. -/
theorem Opens.append {cs : List Char} (h : Opens cs) (rest : List Char) : Opens (cs ++ rest) := by
  obtain ⟨c, more, rfl, hc⟩ := h
  exact ⟨c, more ++ rest, rfl, hc⟩

/-- Before what separates, all symbols are read for themselves that only `=` and `>` could make longer. -/
theorem Opens.scans_symbol {cs : List Char} {more : List Lexeme} (h : Opens cs) (mark : Symbol)
    (hmark : mark.continuations ⊆ ['=', '>']) (hslash : mark.chars.head? ≠ some '/')
    (hcs : Scans cs more) : Scans (mark.chars ++ cs) (.symbol mark :: more) := by
  refine Source.scans_symbol mark (fun c hc hm => ?_) hslash hcs
  obtain ⟨d, rest, rfl, hassign, hangle⟩ := h
  cases hc
  rcases List.mem_pair.mp (hmark hm) with rfl | rfl
  · exact hassign rfl
  · exact hangle rfl

/-- Words separate from the symbols before them. -/
theorem opens_word {word : List Char} (h : spellsWord word = true) : Opens word := by
  cases word with
  | nil => cases h
  | cons c rest =>
    simp only [spellsWord, Bool.and_eq_true] at h
    refine ⟨c, rest, rfl, ?_, ?_⟩ <;> rintro rfl <;> exact absurd h.1 (by decide)

/-- So do names, -/
theorem opens_name {name : String} (h : isName name = true) : Opens name.toList := by
  simp only [isName, Bool.and_eq_true] at h
  exact opens_word h.1

/-- and so do numbers. -/
theorem opens_digits (n : Nat) : Opens (Number.digitsOf n) := by
  cases hd : Number.digitsOf n with
  | nil => exact absurd hd (Number.digitsOf_ne_nil n)
  | cons c rest =>
    have hc : c.isDigit = true := Number.isDigit_of_mem_digitsOf (hd ▸ List.mem_cons_self)
    refine ⟨c, rest, rfl, ?_, ?_⟩ <;> rintro rfl <;> cases hc

/-- The text of a plain node separates from the symbol in front of it. -/
theorem Node.Plain.opens {node : Node} (h : node.Plain) : Opens node.chars := by
  induction h with
  | boolean position value => cases value <;> exact ⟨_, _, rfl, by decide, by decide⟩
  | int position hvalue =>
    rename_i value
    show Opens (Number.wholeText value.toInt)
    unfold Number.wholeText Number.minus
    split
    · exact ⟨'-', _, rfl, by decide, by decide⟩
    · exact opens_digits _
  | name position hname => exact opens_name hname
  | call position place hfunction _ _ _ => exact ((opens_name hfunction).append _).append _
  | index position _ _ _ _ htarget _ => exact (htarget.append _).append _
  | invoke position _ _ _ _ _ _ htarget _ =>
    exact (((htarget.append _).append _).append _).append _
  | _ => exact ⟨_, _, rfl, by decide, by decide⟩

/-- Whether tokens end a set is told by the last of them. -/
theorem endsInSet_cons {lexeme : Lexeme} {lexemes : List Lexeme} (hne : lexeme ≠ .symbol .closeSet)
    (h : (lexeme :: lexemes).getLast? = some (.symbol .closeSet)) :
    lexemes.getLast? = some (.symbol .closeSet) := by
  cases lexemes with
  | nil => exact absurd (Option.some.inj h) hne
  | cons second rest => rwa [List.getLast?_cons_cons] at h

/-- A named part: a name and an equality sign in front of a text. -/
theorem Piece.named {cs : List Char} {lexemes : List Lexeme} (h : Piece cs lexemes) (hopens : Opens cs)
    {name : String} (hname : isName name = true) :
    Piece (name.toList ++ '=' :: cs) (.name name :: .symbol .assign :: lexemes) := by
  intro rest more hdivides hset hrest
  rw [List.append_assoc]
  refine (begins_name hname (divides_cons (by decide))).scans ?_
  refine (hopens.append rest).scans_symbol .assign (by decide) (by decide)
    (h rest more hdivides ?_ hrest)
  intro hlast
  refine hset ?_
  cases lexemes with
  | nil => cases hlast
  | cons first rest => rwa [List.getLast?_cons_cons, List.getLast?_cons_cons]

/-- Whether words and sets can stand before a symbol, and a set may end in it. -/
def Symbol.closes (mark : Symbol) : Bool :=
  mark.chars.head?.all (fun c => divides c && c != '/') &&
    (mark.continuations.isEmpty || mark == .closeSet)

/-- Parts with commas between them in brackets. -/
theorem Piece.enclosed {α : Type} {text : α → List Char} {lexemes : α → List Lexeme} {items : List α}
    (opening closing : Symbol) (hpiece : ∀ item ∈ items, Piece (text item) (lexemes item))
    (hopening : ∀ c ∈ (commas (items.map text) ++ closing.chars).head?, c ∉ opening.continuations)
    (hlast : ∀ item ∈ items.getLast?, (lexemes item).getLast? = some (.symbol .closeSet) →
      closing.chars.head? ≠ some '>')
    (hslash : opening.chars.head? ≠ some '/') (hcloses : closing.closes = true) :
    Piece (opening.chars ++ (commas (items.map text) ++ closing.chars))
      (.symbol opening :: (commaLexemes (items.map lexemes) ++ [.symbol closing])) := by
  intro rest more hdivides hset hrest
  have hhead : ∀ cs : List Char, (closing.chars ++ cs).head? = closing.chars.head? := by
    intro cs
    cases hc : closing.chars with
    | nil => exact absurd hc closing.chars_ne_nil
    | cons c chars => rfl
  simp only [Symbol.closes, Bool.and_eq_true, Bool.or_eq_true, List.isEmpty_iff, beq_iff_eq,
    Option.all_eq_true, bne_iff_ne, ne_eq] at hcloses
  obtain ⟨hfirst, hfinal⟩ := hcloses
  have hclosing : Scans (closing.chars ++ rest) (.symbol closing :: more) := by
    refine scans_symbol closing (fun c hc hcontinues => ?_) (fun h => (hfirst '/' h).2 rfl) hrest
    rcases hfinal with hfinal | rfl
    · rw [hfinal] at hcontinues
      cases hcontinues
    -- only `>>` can go on, with a third `>`
    · have hangle : c = '>' := List.mem_singleton.mp hcontinues
      refine hset ?_ (hangle ▸ hc)
      rw [← List.cons_append, List.getLast?_append_of_ne_nil _ (List.cons_ne_nil _ _)]
      rfl
  rw [List.append_assoc, List.append_assoc, List.cons_append, List.append_assoc]
  refine scans_symbol opening (fun c hc => hopening c ?_) hslash ?_
  · rw [← List.append_assoc] at hc
    cases htext : commas (items.map text) ++ closing.chars with
    | nil => exact absurd (List.append_eq_nil_iff.mp htext).2 closing.chars_ne_nil
    | cons d ds =>
      rw [htext] at hc
      exact hc
  · refine scans_commas hpiece (fun c hc => ?_) (fun item hi h => ?_) hclosing
    · exact (hfirst c (hhead rest ▸ hc)).1
    · rw [hhead]
      exact hlast item hi h

theorem commaLexemes_singleton (lexemes : List Lexeme) : commaLexemes [lexemes] = lexemes := by
  simp [commaLexemes]

/-- A text behind another one that it divides from what follows. -/
theorem Piece.append {first second : List Char} {lexemes lexemes' : List Lexeme}
    (h : Piece first lexemes) (h' : Piece second lexemes')
    (hhead : ∃ c cs, second = c :: cs ∧ divides c = true ∧ c ≠ '>') (hne : lexemes' ≠ []) :
    Piece (first ++ second) (lexemes ++ lexemes') := by
  intro rest more hdivides hset hrest
  obtain ⟨c, cs, rfl, hc, hangle⟩ := hhead
  rw [List.append_assoc, List.append_assoc]
  refine h _ _ (divides_cons hc) (fun _ heq => hangle (Option.some.inj heq)) ?_
  refine h' rest more hdivides (fun hlast => hset ?_) hrest
  rwa [List.getLast?_append_of_ne_nil _ hne]

/-- Two texts in parentheses with a keyword between them. -/
theorem Piece.joined {left right : List Char} {lexemes lexemes' : List Lexeme} (word : Keyword)
    (h : Piece left lexemes) (h' : Piece right lexemes') :
    Piece ('(' :: (left ++ ' ' :: (word.text.toList ++ ' ' :: (right ++ [')']))))
      (.symbol .openParen :: (lexemes ++ .keyword word :: (lexemes' ++ [.symbol .closeParen]))) := by
  intro rest more hdivides _ hrest
  simp only [List.cons_append, List.append_assoc, List.nil_append]
  refine scans_final .openParen (by decide) (by decide) ?_
  refine h _ _ (divides_cons (by decide)) (fun _ heq => by cases heq) (Scans.blank ?_)
  refine (begins_keyword word (divides_cons (by decide))).scans (Scans.blank ?_)
  refine h' _ _ (divides_cons (by decide)) (fun _ heq => by cases heq) ?_
  exact scans_final .closeParen (by decide) (by decide) hrest

/-- A keyword in front of a text. -/
theorem Piece.behindKeyword {cs : List Char} {lexemes : List Lexeme} (word : Keyword)
    (h : Piece cs lexemes) :
    Piece (word.text.toList ++ ' ' :: cs) (.keyword word :: lexemes) := by
  intro rest more hdivides hset hrest
  rw [List.append_assoc]
  refine (begins_keyword word (divides_cons (by decide))).scans (Scans.blank ?_)
  refine h rest more hdivides (fun hlast => hset ?_) hrest
  cases lexemes with
  | nil => cases hlast
  | cons first rest => rwa [List.getLast?_cons_cons]

/-- A key and a value with an arrow between them. -/
theorem Piece.entry {key value : List Char} {lexemes lexemes' : List Lexeme} (h : Piece key lexemes)
    (h' : Piece value lexemes') :
    Piece (key ++ ' ' :: '=' :: '>' :: ' ' :: value) (lexemes ++ .symbol .fatArrow :: lexemes') := by
  intro rest more hdivides hset hrest
  simp only [List.append_assoc, List.cons_append]
  refine h _ _ (divides_cons (by decide)) (fun _ heq => by cases heq) (Scans.blank ?_)
  refine scans_final .fatArrow (by decide) (by decide) (Scans.blank ?_)
  refine h' rest more hdivides (fun hlast => hset ?_) hrest
  rw [List.getLast?_append_of_ne_nil _ (List.cons_ne_nil _ _)]
  cases lexemes' with
  | nil => cases hlast
  | cons first rest => rwa [List.getLast?_cons_cons]

/-- An integer is read from its digits, with a sign in front of them if it is negative. -/
theorem piece_whole (value : Int) : Piece (Number.wholeText value) (wholeLexemes value) := by
  intro rest more hdivides _ hrest
  have hdigits : Scans (Number.digitsOf value.natAbs ++ rest)
      (.whole (String.ofList (Number.digitsOf value.natAbs)) :: more) :=
    (begins_whole (Number.digitsOf_ne_nil _) (fun c hc => Number.isDigit_of_mem_digitsOf hc)
      hdivides).scans hrest
  unfold Number.wholeText Number.minus wholeLexemes
  by_cases hneg : value < 0
  · simp only [hneg, decide_true, if_true, List.cons_append, List.nil_append]
    exact ((opens_digits _).append rest).scans_symbol .minus (by decide) (by decide) hdigits
  · simp only [hneg, decide_false, Bool.false_eq_true, if_false, List.nil_append]
    exact hdigits

/-- The arguments of a call. -/
theorem piece_arguments {arguments : List (Argument Node)}
    (hnames : ∀ argument ∈ arguments, argument.name.all isName = true)
    (hopens : ∀ argument ∈ arguments, Opens argument.value.chars)
    (hpiece : ∀ argument ∈ arguments, Piece argument.value.chars argument.value.lexemes) :
    Piece ('(' :: (commas (charsArguments arguments) ++ [')']))
      (.symbol .openParen :: (commaLexemes (lexemesArguments arguments) ++ [.symbol .closeParen])) := by
  rw [charsArguments_eq_map, lexemesArguments_eq_map]
  refine Piece.enclosed .openParen .closeParen (fun argument ha => ?_) (fun c _ => ?_)
    (fun _ _ _ => by decide) (by decide) (by decide)
  · cases hn : argument.name with
    | none => exact hpiece argument ha
    | some name =>
      have hname := hnames argument ha
      rw [hn] at hname
      exact (hpiece argument ha).named (hopens argument ha) hname
  · rw [show Symbol.openParen.continuations = [] from rfl]
    exact List.not_mem_nil

/-- A name is read from its characters. -/
theorem piece_name {name : String} (h : isName name = true) : Piece name.toList [.name name] :=
  fun _ _ hdivides _ hrest => (begins_name h hdivides).scans hrest

/-- A text in brackets. -/
theorem Piece.bracketed {cs : List Char} {lexemes : List Lexeme} (h : Piece cs lexemes) :
    Piece ('[' :: (cs ++ [']'])) (.symbol .openBracket :: (lexemes ++ [.symbol .closeBracket])) := by
  intro rest more hdivides _ hrest
  simp only [List.cons_append, List.append_assoc, List.nil_append]
  refine scans_final .openBracket (by decide) (by decide) ?_
  refine h _ _ (divides_cons (by decide)) (fun _ heq => by cases heq) ?_
  exact scans_final .closeBracket (by decide) (by decide) hrest

/-- The call of a member. -/
theorem Piece.behindArrow {cs : List Char} {lexemes : List Lexeme} (h : Piece cs lexemes) :
    Piece ('-' :: '>' :: cs) (.symbol .arrow :: lexemes) := by
  intro rest more hdivides hset hrest
  refine scans_final .arrow (by decide) (by decide) (h rest more hdivides (fun hlast => hset ?_) hrest)
  cases lexemes with
  | nil => cases hlast
  | cons first rest => rwa [List.getLast?_cons_cons]

/-- Nothing that begins another symbol stands behind an opening bracket. -/
theorem not_mem_continuations {mark : Symbol} (h : mark.continuations = []) (c : Char) :
    c ∉ mark.continuations := by
  rw [h]
  exact List.not_mem_nil

/-- The text of a plain expression has the tokens of the expression. -/
theorem Node.Plain.piece {node : Node} (h : node.Plain) : Piece node.chars node.lexemes := by
  induction h with
  | boolean position value =>
    exact fun rest more hdivides _ hrest => (begins_boolean value hdivides).scans hrest
  | int position hvalue => exact piece_whole _
  | string position value =>
    intro rest more _ _ hrest
    have hquote := begins_quote value.toList rest
    rw [String.ofList_toList] at hquote
    exact hquote.scans hrest
  | name position hname => exact piece_name hname
  | list position hitems ih =>
    rw [chars_list, lexemes_list]
    exact Piece.enclosed .openBracket .closeBracket ih
      (fun c _ => not_mem_continuations (by decide) c) (fun _ _ _ => by decide) (by decide) (by decide)
  | set position hitems hfirst hlast ih =>
    rename_i items
    rw [chars_set, lexemes_set]
    refine Piece.enclosed .openSet .closeSet ih (fun c hc hcontinues => ?_)
      (fun item hi hends => absurd hends (hlast item hi)) (by decide) (by decide)
    -- `<<` goes on with `<` alone, with which the first element does not begin
    have hangle : c = '<' := List.mem_singleton.mp hcontinues
    cases items with
    | nil => cases hc; cases hangle
    | cons first rest =>
      obtain ⟨d, more, hchars, _⟩ := (hitems first List.mem_cons_self).opens
      obtain ⟨behind, hbehind⟩ := commas_cons first.chars (rest.map Node.chars)
      rw [List.map_cons, hbehind, hchars] at hc
      refine hfirst first rfl ?_
      rw [hchars]
      exact hangle ▸ hc
  | map position hkeys hvalues hlast ihkeys ihvalues =>
    rw [chars_map, lexemes_map]
    refine Piece.enclosed .openMap .closeMap
      (fun entry he => (ihkeys entry he).entry (ihvalues entry he))
      (fun c _ => not_mem_continuations (by decide) c) (fun entry he hends => ?_)
      (by decide) (by decide)
    -- an entry ends in a set if its value does
    rw [List.getLast?_append_of_ne_nil _ (List.cons_ne_nil _ _)] at hends
    exact absurd (endsInSet_cons (by decide) hends) (hlast entry he)
  | object position hnames hvalues ih =>
    rw [chars_object, lexemes_object]
    exact Piece.enclosed .openObject .closeObject
      (fun member hm => (ih member hm).named (hvalues member hm).opens (hnames member hm))
      (fun c _ => not_mem_continuations (by decide) c) (fun _ _ _ => by decide) (by decide) (by decide)
  | and position _ _ ihleft ihright =>
    rw [chars_and, lexemes_and]
    exact ihleft.joined .and ihright
  | or position _ _ ihleft ihright =>
    rw [chars_or, lexemes_or]
    exact ihleft.joined .or ihright
  | not position _ ih =>
    rw [chars_not, lexemes_not]
    exact ih.behindKeyword .not
  | contained position _ _ _ _ ihelement ihcontainer =>
    rw [chars_contained, lexemes_contained]
    exact ihelement.joined .in ihcontainer
  | call position place hfunction hnames harguments ih =>
    rw [chars_call, lexemes_call]
    exact (piece_name hfunction).append
      (piece_arguments hnames (fun a ha => (harguments a ha).opens) ih)
      ⟨'(', _, rfl, by decide, by decide⟩ (List.cons_ne_nil _ _)
  | index position _ _ _ _ ihtarget ihkey =>
    rw [chars_index, lexemes_index]
    exact ihtarget.append ihkey.bracketed ⟨'[', _, rfl, by decide, by decide⟩ (List.cons_ne_nil _ _)
  | invoke position _ hmember hnames harguments _ _ ihtarget ih =>
    rw [chars_invoke, lexemes_invoke]
    have hcalled := (piece_name hmember).append
      (piece_arguments hnames (fun a ha => (harguments a ha).opens) ih)
      ⟨'(', _, rfl, by decide, by decide⟩ (List.cons_ne_nil _ _)
    exact ihtarget.append hcalled.behindArrow ⟨'-', _, rfl, by decide, by decide⟩
      (List.cons_ne_nil _ _)

end Ckl.Source
