import Ckl.Proofs.Source.Lexing
import Ckl.Proofs.Source.Lines
import Ckl.Value.Canonical

/-!
# Strings written and read back

The canonical text of a string is one token of a script, whatever text follows: the literal that stands for
this string. It has no line feed in it, also if the string has, so that what follows is scanned as it would be
alone, only farther to the right.
-/

namespace Ckl

open Source (Position Scan Scanned scanFrom scanToken)

/-- A quoted text is written on one line. -/
theorem Text.newline_not_mem_quote (content : List Char) : '\n' ∉ quote content := by
  have hescape : ∀ c, '\n' ∉ escape c := by
    intro c
    unfold escape
    split
    · decide
    · decide
    · decide
    · decide
    · decide
    · next hline _ _ => simpa using Ne.symm hline
  simp [quote, escapeAll, hescape]

namespace Source

/-- Along a line places differ in the column alone. -/
theorem Position.afterAll_of_line {cs : List Char} (h : '\n' ∉ cs) (position : Position) :
    position.afterAll cs = { position with column := position.column + cs.length } := by
  induction cs generalizing position with
  | nil => rfl
  | cons c cs ih =>
    rw [List.mem_cons, not_or] at h
    show (position.after c).afterAll cs = _
    rw [ih h.2, Position.after, if_neg (Ne.symm h.1), List.length_cons, Nat.add_assoc,
      Nat.add_comm 1]

/-- What stands behind a token is scanned from where the token ends. -/
theorem Begins.scanFrom_eq {taken rest : List Char} {lexeme : Lexeme}
    (h : Begins (taken ++ rest) lexeme rest) (position : Position) :
    scanFrom position (taken ++ rest) =
      (scanFrom (position.afterAll taken) rest).map (.cons ⟨lexeme, position⟩) := by
  obtain ⟨c, more, hcs, hends, scanned, hscan, rfl, rfl⟩ := h
  obtain ⟨hgap, hdrop⟩ := gap_of_endsGap hends more
  have htaken : scanned.taken = taken := List.append_cancel_right (scanned.split.trans hcs.symm)
  rw [hcs, scanFrom_of_token hdrop hscan, hgap, htaken]
  rfl

end Source

/-- **Quoting and scanning are inverse.** The canonical text of a string, with any text behind it, begins with
the token of a string literal that stands for this string; the token takes the canonical text to its closing
mark, and leaves the text behind it. So scanning gives this token and then what the text behind it gives from
its shifted place on, tokens or a fault. -/
theorem Store.scan_text_string (store : Store) (content rest : String) (position : Position) :
    (∃ c more, ∃ scanned : Scanned (c :: more),
      (store.text (.string content) ++ rest).toList = c :: more ∧ scanToken c more = .ok scanned ∧
        scanned.lexeme = .string content ∧
        String.ofList scanned.taken = store.text (.string content) ∧
        String.ofList scanned.rest = rest) ∧
    scanFrom position (store.text (.string content) ++ rest).toList =
      (scanFrom { position with
          column := position.column + (store.text (.string content)).length } rest.toList).map
        (.cons ⟨.string content, position⟩) := by
  have htext : store.text (.string content) = String.ofList (Text.quote content.toList) := rfl
  have hsplit : (store.text (.string content) ++ rest).toList =
      Text.quote content.toList ++ rest.toList := by
    rw [htext, String.toList_append, String.toList_ofList]
  have hbegins := Source.begins_quote content.toList rest.toList
  rw [String.ofList_toList] at hbegins
  constructor
  · obtain ⟨c, more, hcs, -, scanned, hscan, hlexeme, hrest⟩ := hbegins
    refine ⟨c, more, scanned, hsplit.trans hcs, hscan, hlexeme, ?_, ?_⟩
    · rw [htext, List.append_cancel_right (scanned.split.trans (hrest ▸ hcs.symm))]
    · rw [hrest, String.ofList_toList]
  · rw [hsplit, hbegins.scanFrom_eq, htext,
      Position.afterAll_of_line (Text.newline_not_mem_quote content.toList), String.length_ofList]

end Ckl
