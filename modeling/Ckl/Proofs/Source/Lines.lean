import Ckl.Proofs.Source.Division
import Ckl.Proofs.Source.Lexing
import Ckl.Proofs.Text.Quoted

/-!
# Texts line by line

Outside of literals no token and no comment goes on past the end of a line. So a text and another one behind
a line feed have the tokens of the first and then those of the second, which are counted on from where the
first ends; and what cannot be a token in a text cannot be one either when lines follow.
-/

namespace Ckl.Source

/-! ## Gaps -/

/-- Whether a character belongs to a gap does not depend on what stands behind it. -/
theorem gap_cons (inComment : Bool) (c : Char) :
    (∃ later, ∀ rest, gap inComment (c :: rest) = c :: gap later rest ∧
      dropGap inComment (c :: rest) = dropGap later rest) ∨
    ∀ rest, gap inComment (c :: rest) = [] ∧ dropGap inComment (c :: rest) = c :: rest := by
  by_cases hcomment : inComment = true
  · exact .inl ⟨c != '\n', fun rest => by simp [gap, dropGap, hcomment]⟩
  by_cases hblank : Text.isBlank c = true
  · exact .inl ⟨false, fun rest => by simp [gap, dropGap, hcomment, hblank]⟩
  by_cases hsign : c = '#'
  · subst hsign
    exact .inl ⟨true, fun rest => by simp [gap, dropGap, hcomment, hblank]⟩
  · exact .inr fun rest => by simp [gap, dropGap, hcomment, hblank, hsign]

/-- A gap that reaches the end of a text goes on behind the line feed. -/
theorem gap_line_of_end {inComment : Bool} {cs : List Char} (more : List Char)
    (h : dropGap inComment cs = []) :
    gap inComment (cs ++ '\n' :: more) = cs ++ '\n' :: gap false more ∧
      dropGap inComment (cs ++ '\n' :: more) = dropGap false more := by
  induction cs generalizing inComment with
  | nil => cases inComment <;> simp [gap, dropGap, Text.isBlank]
  | cons c cs ih =>
    rcases gap_cons inComment c with ⟨later, hlater⟩ | hends
    · rw [(hlater cs).2] at h
      rw [List.cons_append, (hlater _).1, (hlater _).2, (ih h).1]
      exact ⟨rfl, (ih h).2⟩
    · rw [(hends cs).2] at h
      cases h

/-- A gap that a token ends is the same when lines follow. -/
theorem gap_line_of_token {inComment : Bool} {cs : List Char} (more : List Char)
    (h : dropGap inComment cs ≠ []) :
    gap inComment (cs ++ more) = gap inComment cs ∧
      dropGap inComment (cs ++ more) = dropGap inComment cs ++ more := by
  induction cs generalizing inComment with
  | nil => exact absurd rfl h
  | cons c cs ih =>
    rcases gap_cons inComment c with ⟨later, hlater⟩ | hends
    · rw [(hlater cs).2] at h
      rw [List.cons_append, (hlater _).1, (hlater _).1, (hlater _).2, (hlater _).2, (ih h).1]
      exact ⟨rfl, (ih h).2⟩
    · rw [List.cons_append, (hends _).1, (hends _).1, (hends _).2, (hends _).2]
      exact ⟨rfl, rfl⟩

/-! ## Tokens -/

/-- The same token of a text that goes on with `more`. -/
structure Scanned.Goes {cs cs' : List Char} (more : List Char) (scanned : Scanned cs)
    (scanned' : Scanned cs') : Prop where
  lexeme : scanned'.lexeme = scanned.lexeme
  taken : scanned'.taken = scanned.taken
  rest : scanned'.rest = scanned.rest ++ more

/-- What stands at the beginning of a text is the same token when lines follow, or no token as before. Only a
literal that the text does not close can be closed by more lines. -/
inductive Persists {cs cs' : List Char} (more : List Char) :
    Except FaultCause (Scanned cs) → Except FaultCause (Scanned cs') → Prop where
  | token {scanned : Scanned cs} {scanned' : Scanned cs'} :
    scanned.Goes ('\n' :: more) scanned' → Persists more (.ok scanned) (.ok scanned')
  | fault (cause : FaultCause) : Persists more (.error cause) (.error cause)
  | unclosed {cause : FaultCause} (found' : Except FaultCause (Scanned cs')) :
    cause.isIncomplete = true → more ≠ [] → Persists more (.error cause) found'

/-- A run that does not cross line ends is the same with a line behind it. -/
theorem span_line (keep : Char → Bool) (hkeep : keep '\n' = false) (cs more : List Char) :
    (cs ++ '\n' :: more).takeWhile keep = cs.takeWhile keep ∧
      (cs ++ '\n' :: more).dropWhile keep = cs.dropWhile keep ++ '\n' :: more := by
  induction cs with
  | nil => simp [hkeep]
  | cons c cs ih => by_cases hc : keep c = true <;> simp [hc, ih]

/-- A token that is a run goes on to be read with a line behind it. -/
theorem goes_ofSpan (lexeme : List Char → Lexeme) {keep : Char → Bool} (hkeep : keep '\n' = false)
    (c : Char) (rest more : List Char) : (Scanned.ofSpan lexeme keep c rest).Goes ('\n' :: more)
      (Scanned.ofSpan lexeme keep c (rest ++ '\n' :: more)) := by
  obtain ⟨htake, hdrop⟩ := span_line keep hkeep rest more
  exact ⟨congrArg (fun taken => lexeme (c :: taken)) htake, congrArg (c :: ·) htake, hdrop⟩

/-- The digits behind the point of a number. -/
def Fraction (rest : List Char) (d : Char) (behind : List Char) : Prop :=
  rest.dropWhile Char.isDigit = '.' :: d :: behind ∧ d.isDigit = true

/-- With a fraction behind its digits a number is a decimal. -/
theorem scanNumber_of_fraction (c : Char) {rest behind : List Char} {d : Char}
    (h : Fraction rest d behind) :
    let taken := c :: rest.takeWhile Char.isDigit ++ '.' :: d :: behind.takeWhile Char.isDigit
    (scanNumber c rest).lexeme = .decimal (String.ofList taken) ∧ (scanNumber c rest).taken = taken ∧
      (scanNumber c rest).rest = behind.dropWhile Char.isDigit := by
  unfold scanNumber
  dsimp only
  split
  · next heq =>
    rw [h.1] at heq
    cases heq
    rw [if_pos h.2]
    exact ⟨rfl, rfl, rfl⟩
  · next hnone => exact absurd h.1 (hnone d behind)

/-- Without a fraction behind its digits a number is whole. -/
theorem scanNumber_of_no_fraction (c : Char) {rest : List Char}
    (h : ∀ d behind, ¬Fraction rest d behind) :
    scanNumber c rest = .ofSpan (fun cs => .whole (String.ofList cs)) Char.isDigit c rest := by
  unfold scanNumber
  dsimp only
  split
  · next d behind heq => exact if_neg fun hd => h d behind ⟨heq, hd⟩
  · rfl

/-- A number is the same with a line behind it. -/
theorem goes_scanNumber (c : Char) (rest more : List Char) :
    (scanNumber c rest).Goes ('\n' :: more) (scanNumber c (rest ++ '\n' :: more)) := by
  obtain ⟨htake, hdrop⟩ := span_line Char.isDigit rfl rest more
  by_cases hfraction : ∃ d behind, Fraction rest d behind
  · obtain ⟨d, behind, hd⟩ := hfraction
    have hlong : Fraction (rest ++ '\n' :: more) d (behind ++ '\n' :: more) :=
      ⟨by rw [hdrop, hd.1]; rfl, hd.2⟩
    obtain ⟨hlexeme, htaken, hrest⟩ := scanNumber_of_fraction c hd
    obtain ⟨hlexeme', htaken', hrest'⟩ := scanNumber_of_fraction c hlong
    obtain ⟨htake', hdrop'⟩ := span_line Char.isDigit rfl behind more
    rw [htake, htake'] at hlexeme' htaken'
    exact ⟨hlexeme'.trans hlexeme.symm, htaken'.trans htaken.symm, by rw [hrest', hdrop', hrest]⟩
  · have hnone : ∀ d behind, ¬Fraction rest d behind := fun d behind h => hfraction ⟨d, behind, h⟩
    have hnone' : ∀ d behind, ¬Fraction (rest ++ '\n' :: more) d behind := by
      rintro d behind ⟨hpoint, hd⟩
      rw [hdrop] at hpoint
      match hrest : rest.dropWhile Char.isDigit with
      | [] => simp [hrest] at hpoint
      | [_] =>
        rw [hrest] at hpoint
        cases hpoint
        cases hd
      | _ :: _ :: behind' =>
        rw [hrest] at hpoint
        cases hpoint
        exact hnone d behind' ⟨hrest, hd⟩
    rw [scanNumber_of_no_fraction c hnone, scanNumber_of_no_fraction c hnone']
    exact goes_ofSpan _ rfl c rest more

/-- A string, whether it ends or not, with a line behind it. -/
theorem scanString_line {mark : Char} (hslash : mark ≠ '\\') (hline : mark ≠ '\n')
    (rest more : List Char) :
    Persists more (scanString mark rest) (scanString mark (rest ++ '\n' :: more)) := by
  unfold scanString
  split
  · next hspan =>
    by_cases hmore : more = []
    · subst hmore
      split
      · exact .fault _
      · next hspan' => cases (Text.spanQuoted_newline hline hspan).symm.trans hspan'
    · exact .unclosed _ rfl hmore
  · next hspan =>
    have hlong := Text.spanQuoted_append ('\n' :: more) hslash hspan
    split
    · next hspan' => cases hlong.symm.trans hspan'
    · next hspan' =>
      cases hlong.symm.trans hspan'
      exact .token ⟨rfl, rfl, rfl⟩

/-- A pattern, whether it ends or not, with a line behind it. -/
theorem scanPattern_line (rest more : List Char) :
    Persists more (scanPattern rest) (scanPattern (rest ++ '\n' :: more)) := by
  unfold scanPattern
  split
  · next hspan =>
    by_cases hmore : more = []
    · subst hmore
      split
      · exact .fault _
      · next hspan' => cases (Text.spanSlashes_newline hspan).symm.trans hspan'
    · exact .unclosed _ rfl hmore
  · next hspan =>
    have hlong := Text.spanSlashes_append ('\n' :: more) hspan
    split
    · next hspan' => cases hlong.symm.trans hspan'
    · next hspan' =>
      cases hlong.symm.trans hspan'
      exact .token ⟨rfl, rfl, rfl⟩

/-- No symbol holds a line feed, so that none reaches past the end of a line. -/
theorem Symbol.chars_prefix_line {mark : Symbol} {cs : List Char} (more : List Char) :
    mark.chars <+: cs ++ '\n' :: more ↔ mark.chars <+: cs := by
  refine ⟨fun h => ?_, fun h => h.trans (List.prefix_append _ _)⟩
  have hclean : ∀ mark ∈ all, '\n' ∉ mark.chars := by decide
  rcases Nat.le_total mark.chars.length cs.length with hle | hge
  · exact List.prefix_of_prefix_length_le h (List.prefix_append _ _) hle
  · obtain ⟨behind, hbehind⟩ := List.prefix_of_prefix_length_le (List.prefix_append _ _) h hge
    cases behind with
    | nil => exact ⟨[], by rw [← hbehind, List.append_nil, List.append_nil]⟩
    | cons c behind =>
      obtain ⟨rest, hrest⟩ := h
      rw [← hbehind, List.append_assoc, List.append_cancel_left_eq] at hrest
      obtain ⟨rfl, -⟩ := List.cons.inj hrest
      exact absurd (hbehind ▸ List.mem_append_right _ List.mem_cons_self) (hclean mark (mem_all mark))

/-- No symbol goes across a line end. -/
theorem Symbol.read_line (cs more : List Char) : read (cs ++ '\n' :: more) = read cs := by
  refine Option.ext fun mark => ?_
  simp only [read_iff, chars_prefix_line]

/-- A symbol, or a character that is none, with a line behind it. -/
theorem scanSymbol_line (c : Char) (rest more : List Char) :
    Persists more (scanSymbol c rest) (scanSymbol c (rest ++ '\n' :: more)) := by
  have hlong : Symbol.read (c :: (rest ++ '\n' :: more)) = Symbol.read (c :: rest) :=
    Symbol.read_line (c :: rest) more
  unfold scanSymbol
  split
  · next hread =>
    split
    · exact .fault _
    · next hread' => cases (hlong.trans hread).symm.trans hread'
  · next mark hread =>
    split
    · next hread' => cases (hlong.trans hread).symm.trans hread'
    · next hread' =>
      cases (hlong.trans hread).symm.trans hread'
      have hlength := (Symbol.chars_prefix_of_read hread).length_le
      exact .token ⟨rfl, rfl, List.drop_append_of_le_length hlength⟩

/-- No token but a literal goes on past the end of a line. -/
theorem scanToken_line (c : Char) (rest more : List Char) :
    Persists more (scanToken c rest) (scanToken c (rest ++ '\n' :: more)) := by
  unfold scanToken
  by_cases hname : beginsName c = true
  · simp only [if_pos hname]
    exact .token (goes_ofSpan _ (by decide +kernel) c rest more)
  by_cases hdigit : c.isDigit = true
  · simp only [if_neg hname, if_pos hdigit]
    exact .token (goes_scanNumber c rest more)
  by_cases hmark : c = '"' ∨ c = '\''
  · simp only [if_neg hname, if_neg hdigit, if_pos hmark]
    apply scanString_line <;> rcases hmark with rfl | rfl <;> decide
  simp only [if_neg hname, if_neg hdigit, if_neg hmark]
  split
  · exact scanPattern_line _ more
  · next hslashes =>
    have hsymbol := scanSymbol_line c rest more
    generalize hlong : rest ++ '\n' :: more = long at hsymbol ⊢
    split
    · next behind =>
      cases rest with
      | nil => cases hlong
      | cons d rest => exact (hslashes rest rfl (by rw [(List.cons.inj hlong).1])).elim
    · exact hsymbol

/-! ## Whole texts -/

/-- The tokens in front of a scan. -/
def Scan.prepend (tokens : List Token) (scan : Scan) : Scan := { scan with tokens := tokens ++ scan.tokens }

/-- In a gap up to the end of the text no token is found. -/
theorem scanFrom_of_end {position : Position} {cs : List Char} (h : dropGap false cs = []) :
    scanFrom position cs = .ok ⟨[], position.afterAll (gap false cs)⟩ := by
  rw [scanFrom]
  split
  · rfl
  · next heq => cases h.symm.trans heq

/-- A fault of the token behind the gap is the fault of the scan. -/
theorem scanFrom_of_fault {position : Position} {cs rest : List Char} {c : Char} {cause : FaultCause}
    (h : dropGap false cs = c :: rest) (hscan : scanToken c rest = .error cause) :
    scanFrom position cs = .error ⟨cause, position.afterAll (gap false cs)⟩ := by
  rw [scanFrom]
  split
  · next heq => cases h.symm.trans heq
  · next heq =>
    cases h.symm.trans heq
    rw [hscan]

/-- The token behind the gap is the first one, and the scan goes on behind it. -/
theorem scanFrom_of_token {position : Position} {cs rest : List Char} {c : Char}
    {scanned : Scanned (c :: rest)} (h : dropGap false cs = c :: rest)
    (hscan : scanToken c rest = .ok scanned) : scanFrom position cs =
      (scanFrom ((position.afterAll (gap false cs)).afterAll scanned.taken) scanned.rest).map
        (.cons ⟨scanned.lexeme, position.afterAll (gap false cs)⟩) := by
  rw [scanFrom]
  split
  · next heq => cases h.symm.trans heq
  · next heq =>
    cases h.symm.trans heq
    rw [hscan]

/-- Where a gap reaches another text, what stands behind the gap is found as in that text. -/
theorem scanFrom_of_gap {position : Position} {cs before more : List Char}
    (hgap : gap false cs = before ++ gap false more) (hdrop : dropGap false cs = dropGap false more) :
    scanFrom position cs = scanFrom (position.afterAll before) more := by
  have hstart : position.afterAll (gap false cs) =
      (position.afterAll before).afterAll (gap false more) := by
    rw [hgap]
    exact List.foldl_append
  cases hmore : dropGap false more with
  | nil => rw [scanFrom_of_end (hdrop.trans hmore), scanFrom_of_end hmore, hstart]
  | cons c rest =>
    cases hscan : scanToken c rest with
    | error cause =>
      rw [scanFrom_of_fault (hdrop.trans hmore) hscan, scanFrom_of_fault hmore hscan, hstart]
    | ok scanned =>
      rw [scanFrom_of_token (hdrop.trans hmore) hscan, scanFrom_of_token hmore hscan, hstart]

/-- A token is taken from a text that goes on as it is taken from the text. -/
theorem scanFrom_line_of_token {position : Position} {cs rest : List Char} {c : Char}
    {scanned : Scanned (c :: rest)} (more : List Char) (h : dropGap false cs = c :: rest)
    (hscan : scanToken c rest = .ok scanned) : scanFrom position (cs ++ '\n' :: more) =
      (scanFrom ((position.afterAll (gap false cs)).afterAll scanned.taken)
        (scanned.rest ++ '\n' :: more)).map
        (.cons ⟨scanned.lexeme, position.afterAll (gap false cs)⟩) := by
  obtain ⟨hgap', hdrop'⟩ := gap_line_of_token ('\n' :: more) (h ▸ List.cons_ne_nil c rest)
  rw [h, List.cons_append] at hdrop'
  have htoken := scanToken_line c rest more
  rw [hscan] at htoken
  generalize hscan' : scanToken c (rest ++ '\n' :: more) = found' at htoken
  cases htoken with
  | token hgoes =>
    rw [scanFrom_of_token hdrop' hscan', hgap', hgoes.taken, hgoes.rest, hgoes.lexeme]

/-- Behind a text and a line feed the next text is found as it stands, counted on from there. -/
theorem scanFrom_line {position : Position} {cs : List Char} {found : Scan} (more : List Char)
    (h : scanFrom position cs = .ok found) : scanFrom position (cs ++ '\n' :: more) =
      (scanFrom (found.finish.after '\n') more).map (.prepend found.tokens) := by
  fun_induction scanFrom position cs generalizing found with
  | case1 position cs start =>
    rename_i hdrop
    cases h
    obtain ⟨hgap', hdrop'⟩ := gap_line_of_end more hdrop
    have hbefore : gap false (cs ++ '\n' :: more) = (gap false cs ++ ['\n']) ++ gap false more := by
      have hall : gap false cs = cs := by simpa [hdrop] using gap_append_dropGap false cs
      rw [hgap', hall, List.append_assoc]
      rfl
    rw [scanFrom_of_gap hbefore hdrop', Position.afterAll, List.foldl_append]
    show scanFrom (start.after '\n') more = (scanFrom (start.after '\n') more).map _
    cases scanFrom (start.after '\n') more <;> rfl
  | case2 => cases h
  | case3 position cs start c rest hdrop scanned hscan =>
    rename_i ih
    cases hrest : scanFrom (start.afterAll scanned.taken) scanned.rest with
    | error fault =>
      rw [hrest] at h
      cases h
    | ok later =>
      rw [hrest] at h
      cases h
      rw [scanFrom_line_of_token more hdrop hscan, ih hrest]
      show _ = (scanFrom (later.finish.after '\n') more).map _
      cases scanFrom (later.finish.after '\n') more <;> rfl

/-- What is no token, and no literal that could be closed, stays none when lines follow. -/
theorem scanFrom_line_error {position : Position} {cs more : List Char} {fault : Fault}
    (hmore : fault.cause.isIncomplete = true → more = []) (h : scanFrom position cs = .error fault) :
    scanFrom position (cs ++ '\n' :: more) = .error fault := by
  fun_induction scanFrom position cs generalizing fault with
  | case1 => cases h
  | case2 position cs start c rest hdrop cause =>
    rename_i hscan
    cases h
    obtain ⟨hgap', hdrop'⟩ := gap_line_of_token ('\n' :: more) (hdrop ▸ List.cons_ne_nil c rest)
    rw [hdrop, List.cons_append] at hdrop'
    have htoken := scanToken_line c rest more
    rw [hscan] at htoken
    generalize hscan' : scanToken c (rest ++ '\n' :: more) = found' at htoken
    cases htoken with
    | fault => rw [scanFrom_of_fault hdrop' hscan', hgap']
    | unclosed _ hcause hne => exact absurd (hmore hcause) hne
  | case3 position cs start c rest hdrop scanned hscan =>
    rename_i ih
    cases hrest : scanFrom (start.afterAll scanned.taken) scanned.rest with
    | error fault' =>
      rw [hrest] at h
      cases h
      rw [scanFrom_line_of_token more hdrop hscan, ih hmore hrest]
      rfl
    | ok later =>
      rw [hrest] at h
      cases h

/-- What ends with a line is scanned without regard to the lines behind it, which are counted on from its end. -/
theorem scan_more {file line : String} {found : Scan} (h : scan file (line ++ "\n") = .ok found)
    (more : String) : scan file (line ++ "\n" ++ more) =
      (scanFrom found.finish more.toList).map (.prepend found.tokens) := by
  have hshort : (line ++ "\n").toList = line.toList ++ '\n' :: [] := by simp
  have hlong : (line ++ "\n" ++ more).toList = line.toList ++ '\n' :: more.toList := by simp
  rw [scan, hshort] at h
  cases hline : scanFrom (.start file) line.toList with
  | error fault =>
    rw [scanFrom_line_error (fun _ => rfl) hline] at h
    cases h
  | ok found' =>
    rw [scanFrom_line [] hline, scanFrom_of_end rfl] at h
    cases h
    rw [scan, hlong, scanFrom_line more.toList hline]
    simp [Scan.prepend, gap, Position.afterAll]

/-- What is no token at the end of a line stays none, unless it is a literal that could be closed. -/
theorem scan_more_of_fault {file line : String} {fault : Fault}
    (h : scan file (line ++ "\n") = .error fault) (hfinal : fault.cause.isIncomplete = false)
    (more : String) : scan file (line ++ "\n" ++ more) = .error fault := by
  have hshort : (line ++ "\n").toList = line.toList ++ '\n' :: [] := by simp
  have hlong : (line ++ "\n" ++ more).toList = line.toList ++ '\n' :: more.toList := by simp
  have hclosed : fault.cause.isIncomplete = true → more.toList = [] := fun hincomplete => by
    rw [hfinal] at hincomplete
    cases hincomplete
  rw [scan, hshort] at h
  cases hline : scanFrom (.start file) line.toList with
  | error lexical =>
    cases (scanFrom_line_error (fun _ => rfl) hline).symm.trans h
    rw [scan, hlong]
    exact scanFrom_line_error hclosed hline
  | ok found =>
    rw [scanFrom_line [] hline, scanFrom_of_end rfl] at h
    cases h

/-! ## Texts at other places -/

/-- Places move along with the text before them. -/
theorem afterAll_move {move : Position → Position}
    (hmove : ∀ position c, (move position).after c = move (position.after c)) (position : Position)
    (cs : List Char) : (move position).afterAll cs = move (position.afterAll cs) := by
  induction cs generalizing position with
  | nil => rfl
  | cons c cs ih =>
    show ((move position).after c).afterAll cs = move ((position.after c).afterAll cs)
    rw [hmove, ih]

/-- A text has the same tokens wherever it begins, at places that are moved alike. -/
theorem scanFrom_move {move : Position → Position}
    (hmove : ∀ position c, (move position).after c = move (position.after c)) {position : Position}
    {cs : List Char} {found : Scan} (h : scanFrom position cs = .ok found) :
    scanFrom (move position) cs = .ok ⟨found.tokens.map fun token =>
      { token with position := move token.position }, move found.finish⟩ := by
  fun_induction scanFrom position cs generalizing found with
  | case1 position cs start =>
    rename_i hdrop
    cases h
    rw [scanFrom_of_end hdrop, afterAll_move hmove]
    rfl
  | case2 => cases h
  | case3 position cs start c rest hdrop scanned hscan =>
    rename_i ih
    cases hrest : scanFrom (start.afterAll scanned.taken) scanned.rest with
    | error fault =>
      rw [hrest] at h
      cases h
    | ok later =>
      rw [hrest] at h
      cases h
      rw [scanFrom_of_token hdrop hscan, afterAll_move hmove, afterAll_move hmove, ih hrest]
      rfl

end Ckl.Source
