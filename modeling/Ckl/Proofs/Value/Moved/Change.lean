import Ckl.Proofs.Value.Moved

/-!
# Changes of stores with one list more

A store and its twin stay so when the same is done to both, with the other numbers for lists in the twin.
-/

namespace Ckl

open Collection (Table KeySet)
open Source (Node)

namespace Store

variable {gap : Nat} {store twin : Store} (h : Twin gap store twin)

namespace Twin

include h

/-! ## New storage -/

/-- The next list of the store has the next number of the twin when it is moved. -/
theorem moved_size : (Ref.mk store.lists.size : Ref .list).moved gap = ⟨twin.lists.size⟩ := by
  rw [Ref.moved, h.size_lists, if_neg (Nat.not_lt_of_le h.gap_le)]

/-- A list is added to both, with the items moved in the twin. -/
theorem pushList (items : Array Value) :
    Twin gap { store with lists := store.lists.push items }
      { twin with lists := twin.lists.push (items.map (Value.moved gap)) } := {
  h with
  gap_le := by
    rw [Array.size_push]
    exact Nat.le_succ_of_le h.gap_le
  size_lists := by rw [Array.size_push, Array.size_push, h.size_lists]
  lists := fun ref => by
    have hsize : (ref.moved gap).index = twin.lists.size ↔ ref.index = store.lists.size := by
      have hle := h.gap_le
      have hmore := h.size_lists
      rw [Ref.moved]
      dsimp only
      split <;> omega
    rw [Array.getElem?_push, Array.getElem?_push, h.lists]
    by_cases hnew : ref.index = store.lists.size
    · rw [if_pos hnew, if_pos (hsize.mpr hnew)]
      rfl
    · rw [if_neg hnew, if_neg (mt hsize.mp hnew)] }

/-- Something new is placed in both, and is the moved value in the twin. -/
theorem place (fresh : Fresh) :
    (twin.place (fresh.moved gap)).1 = (store.place fresh).1.moved gap ∧
      Twin gap (store.place fresh).2 (twin.place (fresh.moved gap)).2 := by
  cases fresh with
  | value value => exact ⟨rfl, h⟩
  | list items => exact ⟨congrArg Value.list h.moved_size.symm, h.pushList items⟩
  | set keys =>
    refine ⟨?_, { h with sets := ?_ }⟩
    · show Value.set ⟨twin.sets.size⟩ = .set ⟨store.sets.size⟩
      rw [h.sets, Array.size_map]
    · show twin.sets.push _ = (store.sets.push keys).map _
      rw [h.sets, Array.map_push]
  | map entries =>
    refine ⟨?_, { h with maps := ?_ }⟩
    · show Value.map ⟨twin.maps.size⟩ = .map ⟨store.maps.size⟩
      rw [h.maps, Array.size_map]
    · show twin.maps.push _ = (store.maps.push entries).map _
      rw [h.maps, Array.map_push]
  | object members =>
    refine ⟨?_, { h with objects := ?_ }⟩
    · show Value.object ⟨twin.objects.size⟩ = .object ⟨store.objects.size⟩
      rw [h.objects, Array.size_map]
    · show twin.objects.push _ = (store.objects.push members).map _
      rw [h.objects, Array.map_push]

/-- A function of the script is placed under the same number. -/
theorem placeLambda (definition : Source.Lambda Node) (frame : FrameRef) :
    (twin.placeFunction (.lambda definition frame)).1 =
        (store.placeFunction (.lambda definition frame)).1.moved gap ∧
      Twin gap (store.placeFunction (.lambda definition frame)).2
        (twin.placeFunction (.lambda definition frame)).2 := by
  refine ⟨?_, { h with functions := ?_, hosts := fun host hmem => ?_ }⟩
  · show Value.func ⟨twin.functions.size⟩ = .func ⟨store.functions.size⟩
    rw [h.functions]
  · exact congrArg (Array.push · _) h.functions
  · rcases Array.mem_push.mp hmem with hmem | heq
    · exact h.hosts host hmem
    · cases heq

/-- An input is placed under the same number. -/
theorem placeInput (lines : List InputLine) :
    (twin.placeInput lines).1 = (store.placeInput lines).1.moved gap ∧
      Twin gap (store.placeInput lines).2 (twin.placeInput lines).2 := by
  refine ⟨?_, { h with inputs := ?_ }⟩
  · show Value.input ⟨twin.inputs.size⟩ = .input ⟨store.inputs.size⟩
    rw [h.inputs]
  · exact congrArg (Array.push · _) h.inputs

/-- A node is placed under the same number. -/
theorem placeNode (node : Node) :
    (twin.placeNode node).1 = (store.placeNode node).1.moved gap ∧
      Twin gap (store.placeNode node).2 (twin.placeNode node).2 := by
  refine ⟨?_, { h with nodes := ?_ }⟩
  · show Value.node ⟨twin.nodes.size⟩ = .node ⟨store.nodes.size⟩
    rw [h.nodes]
  · exact congrArg (Array.push · _) h.nodes

/-- The new frames have the same number and bind what is moved. -/
theorem enter (frame : FrameRef) (bindings : Bindings Value) :
    (twin.enter frame (bindings.map (Value.moved gap))).1 = (store.enter frame bindings).1 ∧
      Twin gap (store.enter frame bindings).2 (twin.enter frame (bindings.map (Value.moved gap))).2 := by
  refine ⟨?_, { h with frames := ?_ }⟩
  · show FrameRef.mk twin.frames.size = ⟨store.frames.size⟩
    rw [h.frames, Array.size_map]
  · show twin.frames.push { outer := twin.chain frame, bindings := _ } = (store.frames.push _).map _
    rw [h.frames, h.chain, Array.map_push]
    rfl

/-! ## Changes -/

/-- The items of a list are changed in both, by changes that fit the move. -/
theorem changeItems (ref : Ref .list) {change change' : Array Value → Array Value}
    (hchange : ∀ items, (change items).map (Value.moved gap) = change' (items.map (Value.moved gap))) :
    Twin gap (store.changeItems ref change) (twin.changeItems (ref.moved gap) change') := {
  h with
  gap_le := by
    show gap ≤ (store.lists.modify ..).size
    rw [Array.size_modify]
    exact h.gap_le
  size_lists := by
    show (twin.lists.modify ..).size = (store.lists.modify ..).size + 1
    rw [Array.size_modify, Array.size_modify, h.size_lists]
  lists := fun other => by
    have hindex : (ref.moved gap).index = (other.moved gap).index ↔ ref.index = other.index := by
      rw [Ref.moved, Ref.moved]
      dsimp only
      split <;> split <;> omega
    show (twin.lists.modify ..)[_]? = Option.map _ (store.lists.modify ..)[_]?
    rw [Array.getElem?_modify, Array.getElem?_modify, h.lists]
    by_cases hsame : ref.index = other.index
    · rw [if_pos hsame, if_pos (hindex.mpr hsame)]
      cases store.lists[other.index]? with
      | none => rfl
      | some items => exact congrArg some (hchange items).symm
    · rw [if_neg hsame, if_neg (mt hindex.mp hsame)] }

/-- The keys of a set are changed in both, by changes that fit the move. -/
theorem changeKeySet (ref : Ref .set) {change change' : KeySet Value → KeySet Value}
    (hchange : ∀ keys, KeySet.map (Value.moved gap) (change keys) =
      change' (KeySet.map (Value.moved gap) keys)) :
    Twin gap (store.changeKeySet ref change) (twin.changeKeySet ref change') := by
  refine { h with sets := ?_ }
  show twin.sets.modify _ _ = (store.sets.modify _ _).map _
  rw [h.sets, Array.map_modify hchange]

/-- The table of a map is changed in both, by changes that fit the move. -/
theorem changeTable (ref : Ref .map) {change change' : Table Value Value → Table Value Value}
    (hchange : ∀ table, (change table).map (Value.moved gap) (Value.moved gap) =
      change' (table.map (Value.moved gap) (Value.moved gap))) :
    Twin gap (store.changeTable ref change) (twin.changeTable ref change') := by
  refine { h with maps := ?_ }
  show twin.maps.modify _ _ = (store.maps.modify _ _).map _
  rw [h.maps, Array.map_modify hchange]

/-- The members of an object are changed in both, by changes that fit the move. -/
theorem changeMembers (ref : Ref .object) {change change' : Bindings Value → Bindings Value}
    (hchange : ∀ members, (change members).map (Value.moved gap) = change' (members.map (Value.moved gap))) :
    Twin gap (store.changeMembers ref change) (twin.changeMembers ref change') := by
  refine { h with objects := ?_ }
  show twin.objects.modify _ _ = (store.objects.modify _ _).map _
  rw [h.objects, Array.map_modify hchange]

/-- The lines of an input are set alike. -/
theorem setLines (ref : Ref .input) (lines : List InputLine) :
    Twin gap (store.setLines ref lines) (twin.setLines ref lines) := by
  refine { h with inputs := ?_ }
  rw [Store.setLines, Store.setLines, h.inputs]

/-- The same text is written to both. -/
theorem write (ref : Ref .output) (text : String) :
    Twin gap (store.write ref text) (twin.write ref text) := by
  refine { h with outputs := ?_ }
  rw [Store.write, Store.write, h.outputs]

/-- A frame is changed in both, by changes that fit the move. -/
theorem changeFrame (ref : FrameRef) {change change' : Frame → Frame}
    (hchange : ∀ frame, (change frame).moved gap = change' (frame.moved gap)) :
    Twin gap { store with frames := store.frames.modify ref.index change }
      { twin with frames := twin.frames.modify ref.index change' } := by
  refine { h with frames := ?_ }
  show twin.frames.modify _ _ = (store.frames.modify _ _).map _
  rw [h.frames, Array.map_modify hchange]

/-- The bindings of a frame are changed in both, by changes that fit the move. -/
theorem changeBindings (ref : FrameRef) {change change' : Bindings Value → Bindings Value}
    (hchange : ∀ bindings, (change bindings).map (Value.moved gap) =
      change' (bindings.map (Value.moved gap))) :
    Twin gap (store.changeBindings ref change) (twin.changeBindings ref change') :=
  h.changeFrame ref fun frame =>
    congrArg (fun bindings => { frame with bindings := bindings }) (hchange frame.bindings)

/-- What is known of modules is changed alike, as it refers to no list. -/
theorem changeRegistry (ref : FrameRef) (change : Registry → Registry) :
    Twin gap (store.changeRegistry ref change) (twin.changeRegistry ref change) :=
  h.changeFrame ref fun _ => rfl

/-- A name is bound to the moved value in the twin. -/
theorem define (ref : FrameRef) (name : String) (value : Value) :
    Twin gap (store.define ref name value) (twin.define ref name (value.moved gap)) :=
  h.changeBindings ref fun bindings => Bindings.map_put _ bindings name value

/-- A name is undefined in both. -/
theorem undefine (ref : FrameRef) (name : String) :
    Twin gap (store.undefine ref name) (twin.undefine ref name) :=
  h.changeBindings ref fun bindings => Bindings.map_erase _ bindings name

/-- Several names are bound to the moved values in the twin. -/
theorem defineAll (ref : FrameRef) (entries : List (String × Value)) :
    Twin gap (store.defineAll ref entries)
      (twin.defineAll ref (entries.map (Bindings.mapEntry (Value.moved gap)))) :=
  h.changeBindings ref fun bindings => Bindings.map_putAll _ bindings entries

end Twin

end Store

end Ckl
