import Ckl.Proofs.Module.Protocol
import Mathlib.Data.List.TakeWhile

/-!
# Spellings of one module

A specifier tells the file to look for and the identifier under which the module is kept. The extension
is looked for in different texts for the two: at the end of the whole specifier for the file, and at the
end of its last part for the identifier. The last part ends in the extension if and only if the whole
does, since there is no separator in the extension, so the identifier of a specifier is that of its file
(`identifier_fileName`). Specifiers of one file hence ask for one module.
-/

namespace Ckl

open Source (Position)
open Source.Module (fileName identifier)

namespace Source.Module

/-! ## The extension -/

/-- A specifier has the extension exactly if it ends in it. -/
theorem hasExtension_iff {cs : List Char} : hasExtension cs = true ↔ extension <:+ cs :=
  List.isSuffixOf_iff_suffix

/-- What the extension is added to has it. -/
theorem hasExtension_append (cs : List Char) : hasExtension (cs ++ extension) = true :=
  hasExtension_iff.mpr (List.suffix_append cs extension)

/-- The extension that is added is dropped. -/
theorem dropExtension_append (cs : List Char) : dropExtension (cs ++ extension) = cs := by
  rw [dropExtension, if_pos (hasExtension_append cs), List.length_append, Nat.add_sub_cancel,
    List.take_left]

/-- Without the extension nothing is dropped. -/
theorem dropExtension_of_not {cs : List Char} (h : ¬hasExtension cs = true) : dropExtension cs = cs :=
  if_neg h

/-- Dropping the extension brings in no character. -/
theorem dropExtension_subset (cs : List Char) : dropExtension cs ⊆ cs := by
  unfold dropExtension
  split
  · exact List.take_subset _ cs
  · exact List.Subset.refl cs

/-! ## The last part -/

/-- The last part of a path is its end. -/
theorem lastPart_suffix (cs : List Char) : lastPart cs <:+ cs := by
  rw [← List.reverse_prefix, lastPart, List.reverse_reverse]
  exact List.takeWhile_prefix _

/-- There is no separator in the last part of a path. -/
theorem not_isSeparator_of_mem_lastPart {cs : List Char} {c : Char} (h : c ∈ lastPart cs) :
    isSeparator c = false := by
  have hother := List.mem_takeWhile_imp (List.mem_reverse.mp h)
  simpa using hother

/-- What is appended without a separator is appended to the last part. -/
theorem lastPart_append (cs : List Char) : lastPart (cs ++ extension) = lastPart cs ++ extension := by
  have hseparators : ∀ c ∈ extension.reverse, (!isSeparator c) = true :=
    List.all_eq_true.mp (by decide)
  rw [lastPart, List.reverse_append, List.takeWhile_append_of_pos hseparators, List.reverse_append,
    List.reverse_reverse, lastPart]

/-! ## Files and identifiers -/

/-- The name of the file is the specifier with the extension. -/
theorem toList_fileName (specifier : String) : (fileName specifier).toList =
    if hasExtension specifier.toList then specifier.toList else specifier.toList ++ extension := by
  simp only [fileName]
  split
  · rfl
  · exact String.toList_ofList

/-- The file of a module is named by a specifier that has the extension. -/
theorem hasExtension_fileName (specifier : String) :
    hasExtension (fileName specifier).toList = true := by
  rw [toList_fileName]
  split
  · next h => exact h
  · exact hasExtension_append specifier.toList

/-- The name of a file is its own name of a file. -/
theorem fileName_fileName (specifier : String) : fileName (fileName specifier) = fileName specifier :=
  if_pos (hasExtension_fileName specifier)

/-- The identifier of a specifier is that of its file. -/
theorem identifier_fileName (specifier : String) :
    identifier (fileName specifier) = identifier specifier := by
  simp only [identifier, toList_fileName]
  split
  · rfl
  · next hmissing =>
    -- the last part would bring its extension to the whole
    have hpart : ¬hasExtension (lastPart specifier.toList) = true := fun h =>
      hmissing (hasExtension_iff.mpr ((hasExtension_iff.mp h).trans (lastPart_suffix _)))
    rw [lastPart_append, dropExtension_append, dropExtension_of_not hpart]

/-- The extension is dropped once, and it may be all that there is of the last part. -/
example : identifier "lib/text.ckl.ckl" = "text.ckl" ∧ identifier "lib/" = "" ∧
    fileName "lib/" = fileName "lib/.ckl" ∧ identifier "lib/.ckl" = "" := by decide +kernel

/-- There is no separator in an identifier. -/
theorem not_isSeparator_of_mem_identifier {specifier : String} {c : Char}
    (h : c ∈ (identifier specifier).toList) : isSeparator c = false := by
  rw [identifier, String.toList_ofList] at h
  exact not_isSeparator_of_mem_lastPart (dropExtension_subset _ h)

/-- Specifiers of one file have one identifier. -/
theorem identifier_eq_of_fileName_eq {specifier other : String}
    (h : fileName specifier = fileName other) : identifier specifier = identifier other := by
  rw [← identifier_fileName specifier, h, identifier_fileName other]

end Source.Module

/-! ## Asking for a module by another specifier -/

namespace Store.Consistent

variable {store after : Store} {frame inner : FrameRef} {specifier : String} {position : Position}

/-- A module that is loaded is not being loaded, so that to ask for it gives its frame. -/
theorem enterModule_of_loaded (h : store.Consistent) {name : String}
    (hloaded : store.loaded? (store.root frame) name = some inner) (evaluator : Evaluator)
    (file : String) (position : Position) :
    enterModule evaluator frame name file position store = .ok inner store := by
  refine enterModule_of_kept (fun hloading => ?_) hloaded evaluator file position
  rw [h.pending _ name hloading] at hloaded
  cases hloaded

/-- A store is consistent after a module has been entered. -/
theorem after_enterModule (h : store.Consistent) {bound : Nat}
    (hend : enterModule (evaluator bound) frame (identifier specifier) (fileName specifier) position
      store = .ok inner after) : after.Consistent := by
  have hafter := (h.ordered_enterModule bound frame specifier position ⊥).consistent
  rwa [evaluatorUntil_bot, hend, endOf_ok] at hafter

end Store.Consistent

/-- **Spellings of one module.** The file of a specifier is its own file, and has the same identifier;
there is no separator in that. Specifiers of one file thus have one identifier, and they share what is kept
under it: at every instant of an interpreter's life, when a module has been asked for with success by one of
them, it is kept under the identifier of the other, and to ask for it by the other gives the same frame,
with no evaluation and with the store as it was; and this is so of every module that is kept. -/
theorem spellings_share_module (specifier other : String) :
    fileName (fileName specifier) = fileName specifier ∧
    identifier (fileName specifier) = identifier specifier ∧
    '/' ∉ (identifier specifier).toList ∧ '\\' ∉ (identifier specifier).toList ∧
    (fileName specifier = fileName other →
      identifier specifier = identifier other ∧
      ∀ {file : String} {resolve : String → Resolution} {input : List InputLine}
        {now : Calendar.Moment} (instant : Instant),
        (Session.start file resolve input now).Leads instant.session →
          (∀ bound frame position inner after,
            enterModule (evaluator bound) frame (identifier specifier) (fileName specifier) position
              instant.store = .ok inner after →
              after.loaded? (instant.store.root frame) (identifier other) = some inner ∧
              ∀ evaluator frame' position, after.root frame' = instant.store.root frame →
                enterModule evaluator frame' (identifier other) (fileName other) position after =
                  .ok inner after) ∧
          ∀ frame inner,
            instant.store.loaded? (instant.store.root frame) (identifier specifier) = some inner →
              ∀ evaluator position,
                enterModule evaluator frame (identifier other) (fileName other) position
                  instant.store = .ok inner instant.store) := by
  have hpart : ∀ c, Source.Module.isSeparator c = true → c ∉ (identifier specifier).toList := by
    intro c hseparator hmem
    rw [Source.Module.not_isSeparator_of_mem_identifier hmem] at hseparator
    cases hseparator
  refine ⟨Source.Module.fileName_fileName specifier, Source.Module.identifier_fileName specifier,
    hpart '/' rfl, hpart '\\' rfl, fun hfile => ?_⟩
  have hsame := Source.Module.identifier_eq_of_fileName_eq hfile
  refine ⟨hsame, fun {file resolve input now} instant hlife => ?_⟩
  have hconsistent := Instant.consistent (Session.settled_start.leads hlife)
  constructor
  · intro bound frame position inner after hend
    have hloaded := hconsistent.loaded?_of_enterModule hend
    rw [hsame] at hloaded
    refine ⟨hloaded, fun evaluator frame' position' hroot => ?_⟩
    exact (hconsistent.after_enterModule hend).enterModule_of_loaded (hroot ▸ hloaded) evaluator _ _
  · intro frame inner hloaded evaluator position
    rw [hsame] at hloaded
    exact hconsistent.enterModule_of_loaded hloaded evaluator _ _

/-- A module that was required without the extension, asked for with it. -/
theorem spellings_share_module_counting :
    fileName "m" = fileName "m.ckl" ∧
      ∀ evaluator position,
        enterModule evaluator ⟨1⟩ (identifier "m.ckl") (fileName "m.ckl") position
          (counting.evalNode requiresCounted).2.store =
            .ok ⟨2⟩ (counting.evalNode requiresCounted).2.store := by
  have hfile : fileName "m" = fileName "m.ckl" := by decide +kernel
  have hanswer : counting.HasAnswer requiresCounted :=
    Session.hasAnswer_of_answers (by decide +kernel)
  let instant := Instant.beginning (counting.evalNode requiresCounted).2 requiresCounted
  have hloaded : instant.store.loaded? (instant.store.root ⟨1⟩) (identifier "m") = some ⟨2⟩ := by
    decide +kernel
  have hshared := (spellings_share_module "m" "m.ckl").2.2.2.2 hfile
  exact ⟨hfile, (hshared.2 instant (.single (.evalNode hanswer))).2 ⟨1⟩ ⟨2⟩ hloaded⟩

end Ckl
