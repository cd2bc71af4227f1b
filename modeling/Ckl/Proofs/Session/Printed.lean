import Ckl.Proofs.Run.Rebuild
import Ckl.Proofs.Session.Incomplete
import Ckl.Proofs.Value.Uniform

/-!
# Evaluating what has been printed

The text of a value is a script, and evaluating this script should give the value back. It does so for
values that can be written out (`evalSource_text`): the text is read as the tree of the value, and
evaluating the tree builds a copy, which is equal to the value. Where the angles of collections meet, the
text cannot be read (`evalSource_text_fails_at_set`).
-/

namespace Ckl.Session

open Collection (KeySet)

variable {file : String} {resolve : String → Resolution} {input : List InputLine}
  {now : Calendar.Moment} {session : Session} {store : Store} {value : Value} {depth : Nat}

theorem exists_of_isNull {found : Option Value} (h : found.any Value.isNull = true) :
    found = some .null := by
  cases found with
  | none => cases h
  | some value => cases value <;> first | rfl | cases h

theorem lookup?_of_frames {base : Frame} (h : store.frames = #[base, { outer := [⟨0⟩] }])
    (name : String) : store.lookup? ⟨1⟩ name = base.bindings.get? name := by
  simp only [Store.lookup?, Store.chain, Store.getLocal?, Store.frame, h]
  show (([base.bindings].findSome? fun bindings => bindings.get? name) : Option Value) = _
  rw [List.findSome?_singleton]

/-- A session begins with a name for the null value. -/
theorem lookup?_null : (start file resolve input now).store.lookup? ⟨1⟩ "NULL" = some .null := by
  have hbase : baseBindings.get? "NULL" = some .null := exists_of_isNull (by decide +kernel)
  have hbindings : (baseFrame resolve).bindings = baseBindings := by rw [baseFrame]
  have hframes : (start file resolve input now).store.frames =
      #[baseFrame resolve, { outer := [⟨0⟩] }] := by rw [start, baseStore]
  rw [lookup?_of_frames hframes, hbindings, hbase]

theorem evalNode_eq {node : Source.Node} {found : Value} {after : Store}
    (h : (evaluate evaluationBound node session.user).run session.store = .ok (.ok found) after) :
    session.evalNode node = (.ok found, { session with store := after }) := by
  have hfinish : finish node.position (evaluate evaluationBound node session.user) session.store =
      .ok found after := by
    show EStateM.bind _ _ session.store = _
    unfold EStateM.bind
    rw [h]
    rfl
  unfold evalNode perform
  rw [hfinish]

/-- Evaluating the text of a value builds a copy of the value. -/
theorem evalSource_copies (session : Session) {among : Value → Prop}
    (hliterals : session.store.Literals among) (hvalue : among value)
    (hnull : session.store.lookup? session.user "NULL" = some .null)
    (hshallow : session.store.Shallow depth value) (hdepth : depth < evaluationBound) :
    ∃ found after,
      session.evalSource (session.store.text value) = (.ok found, { session with store := after }) ∧
        session.store.Extends after ∧ Store.Copy session.store after value found := by
  have hliteral := hliterals.literal value hvalue
  have htext : session.store.text value = (session.store.script value).text := by
    rw [Store.text, Source.Node.text, Store.chars_script hliteral]
  obtain ⟨tokens, hscan, hlexemes⟩ := hliteral.plain.scan_text session.file
  obtain ⟨node, hread, hsame⟩ := hliteral.plain.readScript_of_scan hscan hlexemes
  obtain ⟨found, after, hrun, hextends, hcopy⟩ :=
    Store.rebuilds_evaluate hliterals hnull hvalue hshallow hdepth node session.store hsame (.refl _)
  refine ⟨found, after, ?_, hextends, hcopy⟩
  rw [evalSource, evalNamed, htext, hread]
  exact evalNode_eq hrun

/-- **Printed values evaluate back.** Let a session begin with some storage, and a value in it that can be
written out and whose keys, with all that is inside of them, are each written in one way. Then the text
of the value is evaluated to a value of its type that is equal to it, beside all that was there. -/
theorem evalSource_text (hstorage : (start file resolve input now).store.Extends store)
    (hliteral : store.Literal value)
    (huniform : store.Uniform (store.KeyPart (store.Within value)))
    (hshallow : store.Shallow depth value) (hdepth : depth < evaluationBound) :
    ∃ found after, { start file resolve input now with store }.evalSource (store.text value) =
        (.ok found, after) ∧
      store.Extends after.store ∧ found.type = value.type ∧ after.store.equal found value = true := by
  have hliterals := hliteral.literals huniform
  have hnull : store.lookup? ⟨1⟩ "NULL" = some .null := (hstorage.lookup?_eq _ _).trans lookup?_null
  obtain ⟨found, after, heval, hextends, hcopy⟩ := evalSource_copies
    { start file resolve input now with store } hliterals (.inl rfl) hnull hshallow hdepth
  refine ⟨found, _, heval, hextends, hcopy.type_eq hliteral, ?_⟩
  have hself := hliteral.copy_self.extend hliterals (.inl rfl) hextends
  rw [hliterals.equal_copies (.inl rfl) (.inl rfl) hcopy hself]
  exact hliterals.sortable.equal_self (.inl rfl)

/-! ## A list that is printed, and a set that is not -/

/-- A session that begins, with a list, a set and an object. -/
def withStorage (items : Array Value) (keys : KeySet Value) (members : Bindings Value) : Store :=
  { blank.store with lists := #[items], sets := #[keys], objects := #[members] }

section

variable {items : Array Value} {keys : KeySet Value} {members : Bindings Value}

theorem keySet_withStorage : (withStorage items keys members).keySet ⟨0⟩ = keys := rfl

theorem extends_withStorage : blank.store.Extends (withStorage items keys members) :=
  ⟨fun _ h => absurd h (Nat.not_lt_zero _), fun _ h => absurd h (Nat.not_lt_zero _),
    fun _ h => absurd h (Nat.not_lt_zero _), fun _ h => absurd h (Nat.not_lt_zero _), rfl⟩

theorem isKey_withStorage {among : Value → Prop} {key : Value}
    (h : (withStorage items keys members).IsKey among key) : key ∈ keys.keys := by
  rcases h with ⟨ref, _, hkey⟩ | ⟨ref, _, hkey⟩
  · match hindex : ref.index with
    | 0 => rwa [Store.keySet, hindex] at hkey
    | index + 1 =>
      rw [Store.keySet, hindex] at hkey
      cases hkey
  · rw [Store.table] at hkey
    cases hkey

end

/-- The list of the null value, a set and an object that has the set too. -/
def printable : Store :=
  withStorage #[.null, .set ⟨0⟩, .object ⟨0⟩]
    (KeySet.ofList Store.bare.keyRule [.int (-1), .string "it's"]) (Bindings.empty.put "a" (.set ⟨0⟩))

theorem printable_keys : ∀ key ∈ (KeySet.ofList Store.bare.keyRule [.int (-1), .string "it's"]).keys,
    printable.Literal key ∧ key.isAtomic = true := by
  intro key hkey
  have hatoms : Store.AtomSet [.int (-1), .string "it's"] := Store.atomSet_pair rfl rfl ⟨rfl, rfl⟩
  rcases List.mem_pair.mp ((hatoms.sound printable).2.subset hkey) with rfl | rfl
  · exact ⟨.int (by decide), rfl⟩
  · exact ⟨.string _, rfl⟩

theorem printable_literal : printable.Literal (.list ⟨0⟩) := by
  have hatoms : Store.AtomSet [.int (-1), .string "it's"] := Store.atomSet_pair rfl rfl ⟨rfl, rfl⟩
  have hset : printable.Literal (.set ⟨0⟩) := by
    refine Store.literal_set_of_atoms Nat.one_pos ?_ ?_
    · rw [printable, keySet_withStorage]
      exact (hatoms.sound _).1
    · rw [printable, keySet_withStorage]
      exact printable_keys
  have hobject : printable.Literal (.object ⟨0⟩) := by
    refine .object Nat.one_pos ?_ ?_
    · exact List.forall_mem_singleton.mpr (by decide +kernel)
    · exact List.forall_mem_singleton.mpr hset
  refine .list Nat.one_pos (List.forall_mem_cons.mpr ⟨.null, ?_⟩)
  exact List.forall_mem_cons.mpr ⟨hset, List.forall_mem_singleton.mpr hobject⟩

/-- The list is printed and evaluated back. -/
theorem evalSource_text_printable :
    ∃ found after, { blank with store := printable }.evalSource (printable.text (.list ⟨0⟩)) =
        (.ok found, after) ∧
      printable.Extends after.store ∧ found.type = .list ∧
      after.store.equal found (.list ⟨0⟩) = true :=
  evalSource_text extends_withStorage printable_literal
    (Store.uniform_of_atoms fun key hkey => printable_keys key (isKey_withStorage hkey))
    (Store.shallow_of_acyclic printable_literal.acyclic) (by decide)

/-- Whether the value of a script is printed as a text that fails in the same session. -/
def printFails (session : Session) (source : String) : Bool :=
  match session.evalSource source with
  | (.ok value, after) =>
    match session.evalSource (after.store.text value) with
    | (.error (.failed _), _) => true
    | _ => false
  | _ => false

theorem exists_of_printFails {source : String} (h : session.printFails source = true) :
    ∃ value after failure last, session.evalSource source = (.ok value, after) ∧
      session.evalSource (after.store.text value) = (.error (.failed failure), last) := by
  unfold printFails at h
  split at h
  · next value after heval =>
    split at h
    · next failure last hprinted => exact ⟨value, after, failure, last, heval, hprinted⟩
    · cases h
  · cases h

/-- The angles of a set and of the set in it are read as one symbol. -/
theorem evalSource_text_fails_at_set :
    ∃ value after failure last, blank.evalSource "<< <<1>> >>" = (.ok value, after) ∧
      blank.evalSource (after.store.text value) = (.error (.failed failure), last) :=
  exists_of_printFails (by decide +kernel)

/-- Neither can the least integer be read, nor a set with an object as its first element. -/
example : blank.printFails "-9223372036854775807 - 1" = true ∧
    blank.printFails "<< <*a=1*> >>" = true := by
  decide +kernel

end Ckl.Session
