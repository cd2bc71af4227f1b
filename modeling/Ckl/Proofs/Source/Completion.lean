import Ckl.Proofs.Source.Extension.Statement
import Ckl.Proofs.Source.Lines

/-!
# Rejected texts

A text that is rejected cannot be completed by more lines, if the fault is not found where a phrase of
several words begins that the end of the text cuts off. There the words that are not written yet count as
absent, so what has begun as such a phrase is rejected as something else, although more lines could still
complete it. This happens with every one of these beginnings.
-/

namespace Ckl.Source

open Grammar

/-! ## Rejected texts -/

theorem scriptStatements_error {found : Scan} {fault : Fault} :
    scriptStatements found = .error fault ↔
      statements (read (found.tokens.length + 1)) [] (found.tokens.length + 1)
        ⟨found.tokens, found.finish⟩ = .error fault := by
  unfold scriptStatements
  show Except.map _ _ = _ ↔ _
  cases statements (read (found.tokens.length + 1)) [] (found.tokens.length + 1)
    ⟨found.tokens, found.finish⟩ <;> simp [Except.map]

/-- Statements that are rejected are rejected with more tokens behind them. -/
theorem scriptStatements_rejected {found : Scan} {fault : Fault} (more : Scan)
    (h : scriptStatements found = .error fault) (hfinal : fault.cause.isIncomplete = false)
    (hawaits : ¬Awaits found.tokens fault) :
    ∃ fault', scriptStatements (more.prepend found.tokens) = .error fault' := by
  have hsize : found.tokens.length + 1 ≤ (more.prepend found.tokens).tokens.length + 1 := by
    simp [Scan.prepend]
  have hr := recurs_read (.inPlace found.finish more.tokens more.finish) le_rfl hsize
  have houtcome := continues_statements hr le_rfl hsize [] found.tokens (Nat.lt_succ_self _)
  rw [Extension.long_inPlace] at houtcome
  have hshort := scriptStatements_error.mp h
  cases houtcome with
  | settled _ _ _ hok => cases hshort.symm.trans hok
  | unsettled _ _ _ _ _ hok => cases hshort.symm.trans hok
  | incomplete _ hincomplete herror =>
    cases hshort.symm.trans herror
    rw [hfinal] at hincomplete
    cases hincomplete
  | awaiting _ hopening herror =>
    cases hshort.symm.trans herror
    exact absurd hopening hawaits
  | rejected _ fault' _ _ herror' => exact ⟨fault', scriptStatements_error.mpr herror'⟩

theorem readScript_of_fault {file text : String} {fault : Fault} (h : scan file text = .error fault) :
    readScript file text = .error fault := by
  unfold readScript
  rw [h]
  rfl

theorem readScript_error_of_scan {file text : String} {found : Scan} {fault : Fault}
    (h : scan file text = .ok found) :
    readScript file text = .error fault ↔ scriptStatements found = .error fault := by
  unfold readScript
  rw [h]
  show (scriptStatements found >>= _) = _ ↔ _
  cases scriptStatements found with
  | error => simp [Bind.bind, Except.bind]
  | ok => exact ⟨nofun, nofun⟩

/-- A text of lines that is rejected, and not for a phrase that its end cuts off, is rejected whatever
follows. -/
theorem readScript_rejected {file line : String} {fault : Fault}
    (h : readScript file (line ++ "\n") = .error fault) (hfinal : fault.cause.isIncomplete = false)
    (hawaits : ∀ found, scan file (line ++ "\n") = .ok found → ¬Awaits found.tokens fault)
    (more : String) : ∃ fault', readScript file (line ++ "\n" ++ more) = .error fault' := by
  cases hscan : scan file (line ++ "\n") with
  | error lexical =>
    cases (readScript_of_fault hscan).symm.trans h
    exact ⟨fault, readScript_of_fault (scan_more_of_fault hscan hfinal more)⟩
  | ok found =>
    have hlong := scan_more hscan more
    cases hmore : scanFrom found.finish more.toList with
    | error lexical =>
      rw [hmore] at hlong
      exact ⟨lexical, readScript_of_fault hlong⟩
    | ok later =>
      rw [hmore] at hlong
      have hstatements := (readScript_error_of_scan hscan).mp h
      obtain ⟨fault', hfault'⟩ := scriptStatements_rejected later hstatements hfinal (hawaits found hscan)
      exact ⟨fault', (readScript_error_of_scan hlong).mpr hfault'⟩

/-- A line that ends with the beginning of a phrase, but is rejected for what stands before it. -/
theorem readScript_rejected_before_opening :
    ∃ fault, readScript "" ("(x 1 is not" ++ "\n") = .error fault ∧ fault.cause.isIncomplete = false ∧
      (∀ found, scan "" ("(x 1 is not" ++ "\n") = .ok found → ¬Awaits found.tokens fault) ∧
      ∀ more, ∃ fault', readScript "" ("(x 1 is not" ++ "\n" ++ more) = .error fault' := by
  have hscan : scan "" ("(x 1 is not" ++ "\n") = .ok ⟨[⟨.symbol .openParen, ⟨"", 1, 1⟩⟩,
      ⟨.name "x", ⟨"", 1, 2⟩⟩, ⟨.whole "1", ⟨"", 1, 4⟩⟩, ⟨.keyword .is, ⟨"", 1, 6⟩⟩,
      ⟨.keyword .not, ⟨"", 1, 9⟩⟩], ⟨"", 2, 1⟩⟩ := by decide +kernel
  have hread : readScript "" ("(x 1 is not" ++ "\n") =
      .error ⟨.expected .expressionEnd, ⟨"", 1, 4⟩⟩ := (readScript_error_of_scan hscan).mpr rfl
  have hawaits : ∀ found, scan "" ("(x 1 is not" ++ "\n") = .ok found →
      ¬Awaits found.tokens ⟨.expected .expressionEnd, ⟨"", 1, 4⟩⟩ := by
    intro found hfound
    cases hscan.symm.trans hfound
    decide
  exact ⟨_, hread, rfl, hawaits, readScript_rejected hread rfl hawaits⟩

/-! ## Texts that are cut off -/

/-- A text that is rejected for good, although it can be completed. -/
def Misjudged (file text more : String) : Prop :=
  (∃ fault, readScript file text = .error fault ∧ fault.cause.isIncomplete = false) ∧
    ∃ node, readScript file (text ++ more) = .ok node

instance (file text more : String) : Decidable (Misjudged file text more) :=
  match htext : readScript file text, hmore : readScript file (text ++ more) with
  | .ok _, _ => isFalse fun h => by
    obtain ⟨⟨fault, hfault, _⟩, _⟩ := h
    cases htext.symm.trans hfault
  | .error _, .error _ => isFalse fun h => by
    obtain ⟨_, node, hnode⟩ := h
    cases hmore.symm.trans hnode
  | .error fault, .ok node => decidable_of_iff (fault.cause.isIncomplete = false)
    ⟨fun h => ⟨⟨fault, htext, h⟩, node, hmore⟩, fun h => by
      obtain ⟨⟨fault', hfault', hfinal⟩, _⟩ := h
      cases htext.symm.trans hfault'
      exact hfinal⟩

theorem misjudged_negation : Misjudged "" "(x not\n" "in y)" := by decide +kernel

/-- Every beginning of a phrase stands at the end of a line that is rejected for good and can be completed. -/
theorem misjudged_of_opening : ∀ opening ∈ openings, ∃ front more,
    Misjudged "" (front ++ " ".intercalate (opening.map Lexeme.text) ++ "\n") more := by
  intro opening hopening
  simp only [openings, List.mem_cons, List.not_mem_nil, or_false] at hopening
  rcases hopening with rfl | rfl | rfl | rfl | rfl | rfl | rfl | rfl
  · exact ⟨"a in x ", "empty", by decide +kernel⟩
  · exact ⟨"a in x ", "empty", by decide +kernel⟩
  · exact ⟨"(x ", "in y)", by decide +kernel⟩
  · exact ⟨"(x ", "with y)", by decide +kernel⟩
  · exact ⟨"(x ", "with y)", by decide +kernel⟩
  · exact ⟨"(x ", "with y)", by decide +kernel⟩
  · exact ⟨"(x ", "with y)", by decide +kernel⟩
  · exact ⟨"(x is date ", "hour)", by decide +kernel⟩

end Ckl.Source
