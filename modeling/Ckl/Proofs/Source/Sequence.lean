import Ckl.Proofs.Source.Extension.Statement
import Ckl.Proofs.Source.Lines

/-!
# Scripts one after the other

Two scripts with a semicolon on a line of its own between them are one script, and its statements are those
of the first and then those of the second. To a statement a semicolon behind it is like the end of the text,
so the first script's statements are found as before; and the second one is the same text at lines further
down.
-/

namespace Ckl.Source

open Grammar Reading

/-- The statements of a text. -/
def statementsOf (file text : String) : Except Fault (List Node) := do
  scriptStatements (← scan file text)

/-- The place some lines further down. -/
def Position.down (lines : Nat) (position : Position) : Position :=
  { position with line := position.line + lines }

/-! ## Statements and what stands behind a semicolon -/

/-- The tokens without the semicolons in front. -/
def dropSemicolons (tokens : List Token) : List Token :=
  tokens.dropWhile fun token => token.lexeme == .symbol .semicolon

/-- The tokens without one semicolon in front. -/
def dropSemicolon : List Token → List Token
  | [] => []
  | token :: tokens => if token.lexeme = .symbol .semicolon then tokens else token :: tokens

/-- A statement and those behind it. -/
def oneAndMore (recur : Recur) (bound : Nat) : Reading (List Node) := do
  let first ← recur .statement
  let _ ← takeSymbol? .semicolon
  return first :: (← statements recur [] bound)

/-- Statements are read behind any semicolons, until no token is left. -/
theorem statements_eq (recur : Recur) (bound : Nat) (tokens : Tokens) :
    statements recur [] (bound + 1) tokens =
      if dropSemicolons tokens.rest = [] then .ok ([], ⟨[], tokens.finish⟩)
      else oneAndMore recur bound ⟨dropSemicolons tokens.rest, tokens.finish⟩ := by
  show (ahead? 0 >>= fun stop => if stop.all fun _ => false then return [] else oneAndMore recur bound)
    ⟨dropSemicolons tokens.rest, tokens.finish⟩ = _
  cases dropSemicolons tokens.rest <;> rfl

/-- At the end of the tokens there is no statement. -/
theorem statements_end (recur : Recur) (bound : Nat) (finish : Position) :
    statements recur [] bound ⟨[], finish⟩ = .ok ([], ⟨[], finish⟩) := by
  cases bound <;> rfl

/-- Behind the first statement, and a semicolon if there is one, the others are read. -/
theorem oneAndMore_eq {recur : Recur} {bound : Nat} {tokens left : Tokens} {first : Node}
    (h : recur .statement tokens = .ok (first, left)) : oneAndMore recur bound tokens =
      (statements recur [] bound ⟨dropSemicolon left.rest, left.finish⟩).map
        fun found => (first :: found.1, found.2) := by
  have htake : ∃ place, takeSymbol? .semicolon left =
      .ok (place, ⟨dropSemicolon left.rest, left.finish⟩) := by
    obtain ⟨rest, finish⟩ := left
    cases rest with
    | nil => exact ⟨none, rfl⟩
    | cons token rest =>
      by_cases htoken : token.lexeme = .symbol .semicolon
      · exact ⟨some token.position, by simp [takeSymbol?, take?, dropSemicolon, htoken]⟩
      · exact ⟨none, by simp [takeSymbol?, take?, dropSemicolon, htoken]⟩
  obtain ⟨place, hplace⟩ := htake
  unfold oneAndMore
  rw [bind_ok h, bind_ok hplace]
  rfl

/-- Dropping semicolons leaves no more tokens. -/
theorem length_dropSemicolons_le (tokens : List Token) : (dropSemicolons tokens).length ≤ tokens.length :=
  (List.dropWhile_suffix _).length_le

/-- Dropping one semicolon leaves no more tokens. -/
theorem length_dropSemicolon_le (tokens : List Token) : (dropSemicolon tokens).length ≤ tokens.length := by
  cases tokens with
  | nil => exact le_rfl
  | cons token tokens =>
    by_cases htoken : token.lexeme = .symbol .semicolon <;> simp [dropSemicolon, htoken]

section Separated

variable {texts : Extension} {recur recur' : Recur} {limit : Nat} {separator : Token} {rest : List Token}
  (hmore : texts.more = separator :: rest) (hseparator : separator.lexeme = .symbol .semicolon)

include hmore hseparator

/-- A text that goes on with a semicolon leaves nothing open. -/
theorem not_open_of_semicolon : ¬texts.Open := by
  rintro ⟨lexeme, hnext, hne⟩
  rw [hmore] at hnext
  cases hnext
  exact hne hseparator

/-- A semicolon behind the tokens is skipped with those in front of it. -/
theorem dropSemicolons_long (front : List Token) : dropSemicolons (texts.long front).rest =
    if dropSemicolons front = [] then dropSemicolons rest else (texts.long (dropSemicolons front)).rest := by
  have hsame : ∀ token : Token, ((Placed.relocate texts.move token).lexeme == .symbol .semicolon) =
      (token.lexeme == .symbol .semicolon) := fun _ => rfl
  simp only [Extension.long, dropSemicolons, hmore]
  induction front with
  | nil => simp [hseparator]
  | cons token front ih =>
    by_cases htoken : token.lexeme = .symbol .semicolon
    · simpa [hsame, htoken] using ih
    · simp [hsame, htoken]

/-- The semicolon behind the tokens can be the one that ends the last statement. -/
theorem dropSemicolon_long (front : List Token) : dropSemicolon (texts.long front).rest =
    if front = [] then rest else (texts.long (dropSemicolon front)).rest := by
  have hsame : ∀ token : Token, (Placed.relocate texts.move token).lexeme = token.lexeme := fun _ => rfl
  cases front with
  | nil => simp [Extension.long, dropSemicolon, hmore, hseparator]
  | cons token front =>
    by_cases htoken : token.lexeme = .symbol .semicolon <;>
      simp [Extension.long, dropSemicolon, hsame, htoken]

/-- Where no statement is left in front of the semicolon, those behind it are all. -/
theorem statements_long_of_none (recur : Recur) {front : List Token} (hnone : dropSemicolons front = [])
    (bound : Nat) : statements recur [] (bound + 1) (texts.long front) =
      statements recur [] (bound + 1) ⟨rest, texts.finish'⟩ := by
  rw [statements_eq, statements_eq, dropSemicolons_long hmore hseparator, if_pos hnone]
  rfl

/-- The first statement in front of the semicolon is the same, and the semicolon can be the one that ends
it. -/
theorem statements_long_of_first (hr : Recurs texts limit recur recur') {bound : Nat} {front : List Token}
    {nodes : List Node} {left : Tokens} (hlimit : front.length < limit) (hsome : dropSemicolons front ≠ [])
    (h : statements recur [] (bound + 1) (texts.short front) = .ok (nodes, left)) :
    ∃ first behind, behind.length < front.length ∧
      statements recur [] (bound + 1) (texts.short front) =
        (statements recur [] bound (texts.short (dropSemicolon behind))).map
          (fun found => (first :: found.1, found.2)) ∧
      ∀ bound', statements recur' [] (bound' + 1) (texts.long front) =
        (statements recur' [] bound'
          (if behind = [] then ⟨rest, texts.finish'⟩ else texts.long (dropSemicolon behind))).map
            (fun found => (first.relocate texts.move :: found.1, found.2)) := by
  have hshort := statements_eq recur bound (texts.short front)
  rw [Extension.short, if_neg hsome] at hshort
  have hlength := length_dropSemicolons_le front
  cases hr.phrase .statement (dropSemicolons front) (by omega) with
  | settled first behind hbehind hfirst hfirst' =>
    have hfewer := hbehind.2
    refine ⟨first, behind, by omega, hshort.trans (oneAndMore_eq hfirst), fun bound' => ?_⟩
    have hlong := statements_eq recur' bound' (texts.long front)
    rw [dropSemicolons_long hmore hseparator, if_neg hsome, if_neg (by simp [Extension.long, hmore])] at hlong
    have hlater := hlong.trans (oneAndMore_eq hfirst')
    rw [dropSemicolon_long hmore hseparator] at hlater
    rw [hlater]
    split <;> rfl
  | unsettled _ _ _ hopen => exact absurd hopen (not_open_of_semicolon hmore hseparator)
  | incomplete _ _ herror => cases (hshort.trans (bind_error herror)).symm.trans h
  | awaiting _ _ herror => cases (hshort.trans (bind_error herror)).symm.trans h
  | rejected _ _ _ herror => cases (hshort.trans (bind_error herror)).symm.trans h

/-- Statements in front of a semicolon are found as at the end of the text, and then those behind it. -/
theorem statements_separated (hr : Recurs texts limit recur recur') {size extra bound bound' : Nat}
    {front : List Token} {nodes : List Node} {left : Tokens} (hfront : front.length < size)
    (hlimit : size ≤ limit) (hb : size ≤ bound) (hb' : size + extra ≤ bound')
    (h : statements recur [] bound (texts.short front) = .ok (nodes, left)) :
    ∃ fewer, extra ≤ fewer ∧ statements recur' [] bound' (texts.long front) =
      (statements recur' [] fewer ⟨rest, texts.finish'⟩).map
        fun found => (nodes.map (Node.relocate texts.move) ++ found.1, found.2) := by
  -- by the bound for the tokens in front, of which each statement takes some
  induction size generalizing front bound bound' nodes left with
  | zero => omega
  | succ size ih =>
    obtain ⟨bound, rfl⟩ : ∃ fewer, bound = fewer + 1 := ⟨bound - 1, by omega⟩
    obtain ⟨bound', rfl⟩ : ∃ fewer, bound' = fewer + 1 := ⟨bound' - 1, by omega⟩
    by_cases hnone : dropSemicolons front = []
    · rw [statements_eq, Extension.short, if_pos hnone] at h
      cases h
      refine ⟨bound' + 1, by omega, ?_⟩
      rw [statements_long_of_none hmore hseparator recur' hnone]
      cases statements recur' [] (bound' + 1) ⟨rest, texts.finish'⟩ <;> rfl
    · obtain ⟨first, behind, hbehind, hlater, hlater'⟩ :=
        statements_long_of_first hmore hseparator hr (by omega) hnone h
      rw [hlater] at h
      rw [hlater']
      by_cases hlast : behind = []
      · subst hlast
        rw [dropSemicolon, Extension.short, statements_end] at h
        cases h
        exact ⟨bound', by omega, by rw [if_pos rfl]; rfl⟩
      · cases hnodes : statements recur [] bound (texts.short (dropSemicolon behind)) with
        | error fault =>
          rw [hnodes] at h
          cases h
        | ok found =>
          rw [hnodes] at h
          cases h
          have hfewer : (dropSemicolon behind).length < size := by
            have := length_dropSemicolon_le behind
            omega
          have hroom : size + extra ≤ bound' := by omega
          obtain ⟨fewer, hextra, hfound⟩ := ih hfewer (by omega) (by omega) hroom hnodes
          refine ⟨fewer, hextra, ?_⟩
          rw [if_neg hlast, hfound]
          cases statements recur' [] fewer ⟨rest, texts.finish'⟩ <;> rfl

end Separated

/-! ## Scripts -/

/-- The statements of a script are those that are read of all its tokens. -/
theorem scriptStatements_ok {found : Scan} {nodes : List Node} :
    scriptStatements found = .ok nodes ↔
      ∃ left, statements (read (found.tokens.length + 1)) [] (found.tokens.length + 1)
        ⟨found.tokens, found.finish⟩ = .ok (nodes, left) := by
  unfold scriptStatements
  show Except.map _ _ = _ ↔ _
  cases statements (read (found.tokens.length + 1)) [] (found.tokens.length + 1)
    ⟨found.tokens, found.finish⟩ with
  | error fault => simp [Except.map]
  | ok found => simp [Except.map, Prod.ext_iff]

/-- The same statements at other places. -/
theorem statements_moved (move : Position → Position) {found : Scan} {nodes : List Node}
    (finish' : Position) {bound limit : Nat} (h : scriptStatements found = .ok nodes)
    (hbound : found.tokens.length + 1 ≤ bound) (hlimit : found.tokens.length + 1 ≤ limit) :
    ∃ left, statements (read limit) [] bound ⟨found.tokens.map (Placed.relocate move), finish'⟩ =
      .ok (nodes.map (Node.relocate move), left) := by
  obtain ⟨left, hread⟩ := scriptStatements_ok.mp h
  have hr := recurs_read ⟨move, [], found.finish, finish'⟩ (le_refl (found.tokens.length + 1)) hlimit
  have houtcome := continues_statements hr le_rfl hbound [] found.tokens (Nat.lt_succ_self _)
  rw [Extension.long, List.append_nil] at houtcome
  cases houtcome with
  | settled nodes' _ _ hshort hlong =>
    cases hshort.symm.trans hread
    exact ⟨_, hlong⟩
  | unsettled _ _ _ hlonger => exact absurd rfl hlonger
  | incomplete _ _ herror | awaiting _ _ herror | rejected _ _ _ herror =>
    cases herror.symm.trans hread

/-- Moving statements nowhere changes nothing. -/
theorem relocate_id_of_scriptStatements {found : Scan} {nodes : List Node}
    (h : scriptStatements found = .ok nodes) : nodes.map (Node.relocate id) = nodes := by
  obtain ⟨left, hread⟩ := scriptStatements_ok.mp h
  obtain ⟨left', hmoved⟩ := statements_moved id found.finish h le_rfl le_rfl
  rw [show found.tokens.map (Placed.relocate id) = found.tokens from List.map_id _] at hmoved
  exact congrArg Prod.fst (Except.ok.inj (hmoved.symm.trans hread))

/-- A position is moved down before or after a character alike. -/
theorem after_down (lines : Nat) (position : Position) (c : Char) :
    (position.down lines).after c = (position.after c).down lines := by
  unfold Position.after Position.down
  split
  · simp only [Position.mk.injEq, true_and, and_true]
    omega
  · rfl

/-- The tokens of two texts with a semicolon between them. -/
theorem scan_sequence {file first second : String} {found found' : Scan}
    (h : scan file first = .ok found) (h' : scan file second = .ok found') :
    ∃ place, scan file (first ++ "\n;\n" ++ second) = .ok
      ⟨found.tokens ++ ⟨.symbol .semicolon, place⟩ :: found'.tokens.map
          (Placed.relocate (Position.down (first.toList.count '\n' + 2))),
        found'.finish.down (first.toList.count '\n' + 2)⟩ := by
  have hdivided : Divided file found.finish [] first.toList found.tokens := scanFrom_divided h
  have hfinish : found.finish = placeBehind file first.toList := hdivided.finish_eq
  have htext : (first ++ "\n;\n" ++ second).toList =
      first.toList ++ '\n' :: ([';'] ++ '\n' :: second.toList) := by simp
  have hsemicolon : ∀ place, scanFrom place [';'] = .ok ⟨[⟨.symbol .semicolon, place⟩], place.after ';'⟩ := by
    intro place
    rw [scanFrom_of_token rfl rfl, scanFrom_of_end rfl]
    rfl
  have hsecond : ((found.finish.after '\n').after ';').after '\n' =
      (Position.start file).down (first.toList.count '\n' + 2) := by
    rw [hfinish]
    simp [placeBehind, Position.after, Position.down, Position.start]
    omega
  refine ⟨found.finish.after '\n', ?_⟩
  rw [scan, htext, scanFrom_line _ h, scanFrom_line _ (hsemicolon _), hsecond,
    scanFrom_move (after_down _) h']
  rfl

/-- The statements of two scripts with a semicolon between them. -/
theorem scriptStatements_sequence {found found' : Scan} {nodes nodes' : List Node} (place : Position)
    (move : Position → Position) (h : scriptStatements found = .ok nodes)
    (h' : scriptStatements found' = .ok nodes') :
    scriptStatements ⟨found.tokens ++ ⟨.symbol .semicolon, place⟩ ::
      found'.tokens.map (Placed.relocate move), move found'.finish⟩ =
        .ok (nodes ++ nodes'.map (Node.relocate move)) := by
  set rest := found'.tokens.map (Placed.relocate move) with hrest
  set bound := (found.tokens ++ ⟨.symbol .semicolon, place⟩ :: rest).length + 1 with hbound
  have hroom : found.tokens.length + 1 + (found'.tokens.length + 1) = bound := by
    simp [hbound, hrest]
    omega
  obtain ⟨left, hread⟩ := scriptStatements_ok.mp h
  have hr := recurs_read (.inPlace found.finish (⟨.symbol .semicolon, place⟩ :: rest) (move found'.finish))
    (le_refl (found.tokens.length + 1)) (by omega : found.tokens.length + 1 ≤ bound)
  obtain ⟨fewer, hextra, hseparated⟩ := statements_separated rfl rfl hr (Nat.lt_succ_self _) le_rfl le_rfl
    hroom.le hread
  obtain ⟨left', hmoved⟩ := statements_moved move (move found'.finish) h' hextra
    (by omega : found'.tokens.length + 1 ≤ bound)
  rw [Extension.long_inPlace] at hseparated
  refine scriptStatements_ok.mpr ⟨left', hseparated.trans ?_⟩
  show Except.map _ (statements (read bound) [] fewer ⟨rest, move found'.finish⟩) = _
  rw [hmoved]
  show Except.ok (nodes.map (Node.relocate id) ++ nodes'.map (Node.relocate move), left') = _
  rw [relocate_id_of_scriptStatements h]

/-- A script is read exactly if its statements are. -/
theorem readScript_ok_iff {file text : String} : (∃ script, readScript file text = .ok script) ↔
    ∃ nodes, statementsOf file text = .ok nodes := by
  unfold readScript statementsOf
  cases scan file text with
  | error fault => exact ⟨nofun, nofun⟩
  | ok found =>
    show (∃ script, (scriptStatements found >>= _) = _) ↔ ∃ nodes, scriptStatements found = .ok nodes
    cases scriptStatements found with
    | error fault => exact ⟨nofun, nofun⟩
    | ok nodes => exact ⟨fun _ => ⟨nodes, rfl⟩, fun _ => ⟨_, rfl⟩⟩

/-- The statements of a text are those of its tokens. -/
theorem statementsOf_ok_iff {file text : String} {nodes : List Node} :
    statementsOf file text = .ok nodes ↔
      ∃ found, scan file text = .ok found ∧ scriptStatements found = .ok nodes := by
  unfold statementsOf
  cases scan file text with
  | error fault => exact ⟨nofun, nofun⟩
  | ok found => exact ⟨fun h => ⟨found, rfl, h⟩, fun ⟨_, hscan, h⟩ => by cases hscan; exact h⟩

/-- The statements of two scripts with a semicolon on a line between them are those of the first and then
those of the second, which stand further down. -/
theorem readScript_sequence {file first second : String} {script script' : Node}
    (h : readScript file first = .ok script) (h' : readScript file second = .ok script') :
    ∃ nodes nodes' whole, statementsOf file first = .ok nodes ∧ statementsOf file second = .ok nodes' ∧
      readScript file (first ++ "\n;\n" ++ second) = .ok whole ∧
      statementsOf file (first ++ "\n;\n" ++ second) = .ok
        (nodes ++ nodes'.map (Node.relocate (Position.down (first.toList.count '\n' + 2)))) := by
  obtain ⟨nodes, hnodes⟩ := readScript_ok_iff.mp ⟨script, h⟩
  obtain ⟨nodes', hnodes'⟩ := readScript_ok_iff.mp ⟨script', h'⟩
  obtain ⟨found, hscan, hread⟩ := statementsOf_ok_iff.mp hnodes
  obtain ⟨found', hscan', hread'⟩ := statementsOf_ok_iff.mp hnodes'
  obtain ⟨place, hwhole⟩ := scan_sequence hscan hscan'
  have hstatements := statementsOf_ok_iff.mpr ⟨_, hwhole, scriptStatements_sequence place _ hread hread'⟩
  obtain ⟨whole, hscript⟩ := readScript_ok_iff.mpr ⟨_, hstatements⟩
  exact ⟨nodes, nodes', whole, hnodes, hnodes', hscript, hstatements⟩

/-- A choice that could go on and a comment that does not end its line, and brackets that would else hold
the value to give back. -/
theorem readScript_sequence_choice :
    ∃ script script' whole, readScript "" "if a then return # b" = .ok script ∧
      readScript "" "(c)" = .ok script' ∧
      readScript "" ("if a then return # b" ++ "\n;\n" ++ "(c)") = .ok whole ∧
      statementsOf "" ("if a then return # b" ++ "\n;\n" ++ "(c)") = .ok
        [.mk ⟨"", 1, 1⟩ (.choice [⟨.mk ⟨"", 1, 4⟩ (.name "a"), .mk ⟨"", 1, 11⟩ (.giveBack none)⟩] none),
          .mk ⟨"", 3, 2⟩ (.name "c")] := by
  have hscan : scan "" "if a then return # b" = .ok ⟨[⟨.keyword .if, ⟨"", 1, 1⟩⟩,
      ⟨.name "a", ⟨"", 1, 4⟩⟩, ⟨.keyword .then, ⟨"", 1, 6⟩⟩, ⟨.keyword .return, ⟨"", 1, 11⟩⟩],
      ⟨"", 1, 21⟩⟩ := by decide +kernel
  have hscan' : scan "" "(c)" = .ok ⟨[⟨.symbol .openParen, ⟨"", 1, 1⟩⟩, ⟨.name "c", ⟨"", 1, 2⟩⟩,
      ⟨.symbol .closeParen, ⟨"", 1, 3⟩⟩], ⟨"", 1, 4⟩⟩ := by decide +kernel
  have hnodes := statementsOf_ok_iff.mpr ⟨_, hscan, rfl⟩
  have hnodes' := statementsOf_ok_iff.mpr ⟨_, hscan', rfl⟩
  obtain ⟨script, hscript⟩ := readScript_ok_iff.mpr ⟨_, hnodes⟩
  obtain ⟨script', hscript'⟩ := readScript_ok_iff.mpr ⟨_, hnodes'⟩
  obtain ⟨_, _, whole, hfirst, hsecond, hwhole, hall⟩ := readScript_sequence hscript hscript'
  cases hfirst.symm.trans hnodes
  cases hsecond.symm.trans hnodes'
  exact ⟨script, script', whole, hscript, hscript', hwhole, hall⟩

end Ckl.Source
