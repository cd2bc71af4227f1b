import Ckl.Proofs.Run.Temporary
import Mathlib.Data.List.Nodup

/-!
# Scope chains

Frames form a tree, and a frame shares what lies around it with all frames inside of it. So a name that is
bound, removed or assigned in one frame is seen from every frame whose chain comes to that one before it
comes to another one that binds the name (`Faces`), and from nowhere else. Within the frame bindings keep
the order in which their names were first bound.
-/

namespace Ckl

open Source (Position)

/-! ## Bindings in order -/

namespace Bindings

variable {α : Type} {bindings after : Bindings α} {name : String} {value : α}

/-- The second bindings are the first ones with another value for a name, in its old place. -/
def ReplacedIn (name : String) (value : α) (bindings after : Bindings α) : Prop :=
  ∃ front old back, bindings.entries = front ++ (name, old) :: back ∧
    after.entries = front ++ (name, value) :: back

/-- The second bindings are the first ones with a new name behind all others. -/
def AppendedTo (name : String) (value : α) (bindings after : Bindings α) : Prop :=
  bindings.binds name = false ∧ after.entries = bindings.entries ++ [(name, value)]

/-- The second bindings are the first ones without a name that is bound, the others in their order. -/
def RemovedFrom (name : String) (bindings after : Bindings α) : Prop :=
  ∃ front old back, bindings.entries = front ++ (name, old) :: back ∧ after.entries = front ++ back

/-- A name has a value exactly if it is bound. -/
theorem isSome_get?_eq : (bindings.get? name).isSome = bindings.binds name := by
  rw [get?, Option.isSome_map, List.isSome_find?, binds]

/-- What is not bound has no value. -/
theorem get?_eq_none_of_binds (h : bindings.binds name = false) : bindings.get? name = none := by
  rw [← Option.not_isSome_iff_eq_none, isSome_get?_eq, h]
  exact Bool.false_ne_true

/-- The entry of a name that is bound, and the others, which have other names. -/
theorem exists_entry (h : bindings.binds name = true) :
    ∃ front old back, bindings.entries = front ++ (name, old) :: back ∧
      (∀ entry ∈ front, entry.1 ≠ name) ∧ ∀ entry ∈ back, entry.1 ≠ name := by
  obtain ⟨⟨_, old⟩, hentry, rfl⟩ := List.mem_map.mp ((bindings.binds_iff name).mp h)
  obtain ⟨front, back, hsplit⟩ := List.append_of_mem hentry
  have hdistinct := bindings.distinct
  rw [hsplit, List.map_append, List.map_cons] at hdistinct
  obtain ⟨-, hback, hapart⟩ := List.nodup_append.mp hdistinct
  refine ⟨front, old, back, hsplit, fun entry hmem => ?_, fun entry hmem heq => ?_⟩
  · exact hapart _ (List.mem_map_of_mem hmem) _ List.mem_cons_self
  · exact (List.nodup_cons.mp hback).1 (heq ▸ List.mem_map_of_mem hmem)

/-- Nothing is replaced where the name does not occur. -/
theorem replaceIn_of_others {entries : List (String × α)} (h : ∀ entry ∈ entries, entry.1 ≠ name) :
    replaceIn name value entries = entries := by
  rw [replaceIn, List.map_congr_left fun entry hentry => if_neg (h entry hentry)]
  exact List.map_id' entries

/-- A name that is bound keeps its place and gets the new value. -/
theorem replacedIn_put (h : bindings.binds name = true) :
    ReplacedIn name value bindings (bindings.put name value) := by
  obtain ⟨front, old, back, hsplit, hfront, hback⟩ := exists_entry h
  refine ⟨front, old, back, hsplit, ?_⟩
  rw [put, dif_pos h]
  show replaceIn name value bindings.entries = _
  have hmiddle : replaceIn name value ((name, old) :: back) = (name, value) :: replaceIn name value back := by
    rw [replaceIn, List.map_cons, if_pos rfl, ← replaceIn]
  rw [hsplit, replaceIn, List.map_append, ← replaceIn, ← replaceIn, hmiddle, replaceIn_of_others hfront,
    replaceIn_of_others hback]

/-- A name that is not bound is put at the end. -/
theorem appendedTo_put (h : bindings.binds name = false) :
    AppendedTo name value bindings (bindings.put name value) := by
  refine ⟨h, ?_⟩
  rw [put, dif_neg (by rw [h]; exact Bool.false_ne_true), append]

/-- A bound name is taken away, and the others keep their order. -/
theorem removedFrom_erase (h : bindings.binds name = true) :
    RemovedFrom name bindings (bindings.erase name) := by
  obtain ⟨front, old, back, hsplit, hfront, hback⟩ := exists_entry h
  have hkeep : ∀ entries : List (String × α), (∀ entry ∈ entries, entry.1 ≠ name) →
      entries.filter (·.1 != name) = entries := fun entries hother =>
    List.filter_eq_self.mpr fun entry hentry => bne_iff_ne.mpr (hother entry hentry)
  refine ⟨front, old, back, hsplit, ?_⟩
  show bindings.entries.filter (·.1 != name) = front ++ back
  rw [hsplit, List.filter_append, List.filter_cons_of_neg (by simp), hkeep front hfront, hkeep back hback]

/-- A name that is not bound is not missed. -/
theorem erase_of_not_binds (h : bindings.binds name = false) : bindings.erase name = bindings := by
  have hentries : bindings.entries.filter (·.1 != name) = bindings.entries := by
    refine List.filter_eq_self.mpr fun entry hentry => bne_iff_ne.mpr fun heq => ?_
    have hbinds : bindings.binds name = true := List.any_eq_true.mpr ⟨entry, hentry, beq_iff_eq.mpr heq⟩
    rw [h] at hbinds
    cases hbinds
  simp only [erase, hentries]

end Bindings

theorem findSome?_congr {α β : Type} {f g : α → Option β} {items : List α}
    (h : ∀ a ∈ items, f a = g a) : items.findSome? f = items.findSome? g := by
  induction items with
  | nil => rfl
  | cons a items ih =>
    rw [List.findSome?_cons, List.findSome?_cons, h a List.mem_cons_self,
      ih fun b hb => h b (List.mem_cons_of_mem a hb)]

/-! ## The tree of frames -/

namespace Store

variable {store after : Store} {frame inner around : FrameRef} {name : String} {value : Value}

/-- Every frame is an outermost one, or around it lies an older frame, its parent, with what lies around
that. -/
def Tree (store : Store) : Prop :=
  ∀ frame, (store.frame frame).outer = [] ∨
    ∃ parent : FrameRef, parent.index < frame.index ∧ (store.frame frame).outer = store.chain parent

/-- The chain of the inner frame comes to the frame before it comes to another one that binds the name. -/
def Faces (store : Store) (inner frame : FrameRef) (name : String) : Prop :=
  ∃ front, store.chain inner = front ++ store.chain frame ∧
    ∀ around ∈ front, (store.frame around).bindings.binds name = false

/-- The stores differ in the bindings of the frame only. -/
structure ChangedAt (store after : Store) (frame : FrameRef) : Prop where
  rest : after = { store with frames := after.frames }
  size : after.frames.size = store.frames.size
  others : ∀ other, other ≠ frame → after.frame other = store.frame other
  itself : after.frame frame = { store.frame frame with bindings := (after.frame frame).bindings }

/-- Of all lookups only those of the name from frames that face the given one have changed, and they find
what the name means now. -/
structure SeenFrom (store after : Store) (frame : FrameRef) (name : String) (meaning : Option Value) :
    Prop where
  facing : ∀ inner, store.Faces inner frame name → after.lookup? inner name = meaning
  others : ∀ inner word, (word = name → ¬ store.Faces inner frame name) →
    after.lookup? inner word = store.lookup? inner word

namespace Tree

variable (h : store.Tree)

include h

/-- From a frame of the chain on, the chain is that of the frame. -/
theorem suffix_of_mem (hmem : frame ∈ store.chain inner) : store.chain frame <:+ store.chain inner := by
  induction hindex : inner.index using Nat.strongRecOn generalizing inner with
  | _ index ih =>
    rcases List.mem_cons.mp hmem with rfl | hmem
    · exact List.suffix_refl _
    · rcases h inner with hnone | ⟨parent, hlt, houter⟩
      · rw [hnone] at hmem
        cases hmem
      · rw [houter] at hmem
        refine (ih parent.index (hindex ▸ hlt) hmem rfl).trans ?_
        rw [← houter]
        exact List.suffix_cons _ _

/-- An outer frame was made before. -/
theorem lt_of_mem_outer (hmem : frame ∈ (store.frame inner).outer) : frame.index < inner.index := by
  induction hindex : inner.index using Nat.strongRecOn generalizing inner with
  | _ index ih =>
    subst hindex
    rcases h inner with hnone | ⟨parent, hlt, houter⟩
    · rw [hnone] at hmem
      cases hmem
    · rw [houter] at hmem
      rcases List.mem_cons.mp hmem with rfl | hmem
      · exact hlt
      · exact Nat.lt_trans (ih parent.index hlt hmem rfl) hlt

/-- No frame is outside of itself. -/
theorem not_mem_outer : frame ∉ (store.frame frame).outer := fun hmem =>
  Nat.lt_irrefl _ (h.lt_of_mem_outer hmem)

/-- No frame comes twice in a chain. -/
theorem nodup_chain (inner : FrameRef) : (store.chain inner).Nodup := by
  induction hindex : inner.index using Nat.strongRecOn generalizing inner with
  | _ index ih =>
    refine List.nodup_cons.mpr ⟨h.not_mem_outer, ?_⟩
    rcases h inner with hnone | ⟨parent, hlt, houter⟩
    · rw [hnone]
      exact List.nodup_nil
    · rw [houter]
      exact ih parent.index (hindex ▸ hlt) parent rfl

/-- What lies before a frame in a chain is another frame. -/
theorem ne_of_mem_front {front : List FrameRef} (hchain : store.chain inner = front ++ store.chain frame)
    (hmem : around ∈ front) : around ≠ frame := by
  have hnodup := h.nodup_chain inner
  rw [hchain] at hnodup
  exact (List.nodup_append.mp hnodup).2.2 around hmem frame List.mem_cons_self

end Tree

/-- A frame binds a name exactly if it gives it a value. -/
theorem binds_eq_isSome (store : Store) (frame : FrameRef) (name : String) :
    (store.frame frame).bindings.binds name = (store.getLocal? frame name).isSome :=
  Bindings.isSome_get?_eq.symm

/-- Up to the frame that is faced nothing hides the name. -/
theorem Faces.lookup? (h : store.Faces inner frame name) :
    store.lookup? inner name = store.lookup? frame name := by
  obtain ⟨front, hchain, hfront⟩ := h
  have hnone : front.findSome? (fun ref => store.getLocal? ref name) = none :=
    List.findSome?_eq_none_iff.mpr fun around hmem => Bindings.get?_eq_none_of_binds (hfront around hmem)
  rw [Store.lookup?, hchain, List.findSome?_append, hnone, Option.none_or]
  rfl

namespace ChangedAt

variable (h : store.ChangedAt after frame)

include h

/-- The frames around a frame are not changed. -/
theorem outer (other : FrameRef) : (after.frame other).outer = (store.frame other).outer := by
  by_cases heq : other = frame
  · rw [heq, h.itself]
  · rw [h.others other heq]

/-- The chain of a frame is not changed. -/
theorem chain (other : FrameRef) : after.chain other = store.chain other := by
  rw [Store.chain, Store.chain, h.outer]

/-- No other frame sees the change. -/
theorem getLocal? {other : FrameRef} (hne : other ≠ frame) (word : String) :
    after.getLocal? other word = store.getLocal? other word := by
  rw [Store.getLocal?, Store.getLocal?, h.others other hne]

/-- The change is seen from the frames that face the one where it is made. -/
theorem seenFrom (htree : store.Tree)
    (hothers : ∀ word, word ≠ name → after.getLocal? frame word = store.getLocal? frame word) :
    store.SeenFrom after frame name (after.lookup? frame name) where
  facing inner hfaces := by
    obtain ⟨front, hchain, hfront⟩ := hfaces
    refine Faces.lookup? ⟨front, by rw [h.chain, h.chain, hchain], fun around hmem => ?_⟩
    rw [h.others around (htree.ne_of_mem_front hchain hmem)]
    exact hfront around hmem
  others inner word hnot := by
    by_cases hword : word = name
    · subst hword
      rw [Store.lookup?, Store.lookup?, h.chain]
      by_cases hmem : frame ∈ store.chain inner
      · -- another frame binds the name before the chain comes to the changed one
        obtain ⟨front, hchain⟩ := htree.suffix_of_mem hmem
        have hsame : front.findSome? (fun ref => after.getLocal? ref word) =
            front.findSome? (fun ref => store.getLocal? ref word) :=
          findSome?_congr fun ref href => h.getLocal? (htree.ne_of_mem_front hchain.symm href) word
        have hfound : (front.findSome? fun ref => store.getLocal? ref word).isSome = true := by
          rw [List.findSome?_isSome_iff]
          by_contra hnone
          refine hnot rfl ⟨front, hchain.symm, fun ref href => ?_⟩
          rw [binds_eq_isSome, Bool.eq_false_iff]
          exact fun hsome => hnone ⟨ref, href, hsome⟩
        rw [← hchain, List.findSome?_append, List.findSome?_append, hsame]
        cases hvalue : front.findSome? (fun ref => store.getLocal? ref word) with
        | none => rw [hvalue] at hfound; cases hfound
        | some found => rfl
      · exact findSome?_congr fun ref href => h.getLocal? (fun heq => hmem (heq ▸ href)) word
    · have hlocal : ∀ ref, after.getLocal? ref word = store.getLocal? ref word := fun ref =>
        if heq : ref = frame then heq ▸ hothers word hword else h.getLocal? heq word
      rw [Store.lookup?, Store.lookup?, h.chain]
      simp only [hlocal]

end ChangedAt

/-- A change of bindings is a change at that frame alone. -/
theorem changedAt_changeBindings (hexists : frame.index < store.frames.size)
    (change : Bindings Value → Bindings Value) :
    store.ChangedAt (store.changeBindings frame change) frame where
  rest := rfl
  size := size_changeBindings frame change
  others _ hne := frame_changeBindings_of_ne hne change
  itself := by rw [frame_changeBindings hexists]

/-- A name that is bound in a frame is seen with its value from the frames that face this one. -/
theorem seenFrom_define (htree : store.Tree) (hexists : frame.index < store.frames.size) :
    store.SeenFrom (store.define frame name value) frame name (some value) := by
  have hlocal : ∀ word, (store.define frame name value).getLocal? frame word =
      ((store.frame frame).bindings.put name value).get? word := fun word =>
    getLocal?_changeBindings hexists _ word
  have hmeaning : (store.define frame name value).lookup? frame name = some value := by
    rw [lookup?, Store.chain, List.findSome?_cons, hlocal, Bindings.get?_put_self]
  rw [← hmeaning]
  refine (changedAt_changeBindings hexists _).seenFrom htree fun word hword => ?_
  rw [← define, hlocal, Bindings.get?_put_of_ne _ _ _ hword, getLocal?]

/-- A name that is removed from a frame means what it means around the frame. -/
theorem seenFrom_undefine (htree : store.Tree) (hexists : frame.index < store.frames.size) :
    store.SeenFrom (store.undefine frame name) frame name
      ((store.frame frame).outer.findSome? fun ref => store.getLocal? ref name) := by
  have hchanged : store.ChangedAt (store.undefine frame name) frame := changedAt_changeBindings hexists _
  have hlocal : ∀ word, (store.undefine frame name).getLocal? frame word =
      ((store.frame frame).bindings.erase name).get? word := fun word =>
    getLocal?_changeBindings hexists _ word
  have hmeaning : (store.undefine frame name).lookup? frame name =
      (store.frame frame).outer.findSome? fun ref => store.getLocal? ref name := by
    rw [lookup?, hchanged.chain, Store.chain, List.findSome?_cons, hlocal, Bindings.get?_erase_self]
    exact findSome?_congr fun ref href =>
      hchanged.getLocal? (fun heq => htree.not_mem_outer (heq ▸ href)) name
  rw [← hmeaning]
  refine hchanged.seenFrom htree fun word hword => ?_
  rw [hlocal, Bindings.get?_erase_of_ne _ hword, getLocal?]

/-- The owner of a name is the frame that the chain comes to before another one that binds the name. -/
theorem faces_of_owner? (htree : store.Tree) {owner : FrameRef} (h : store.owner? frame name = some owner) :
    store.Faces frame owner name ∧ (store.frame owner).bindings.binds name = true := by
  have hbinds : (store.frame owner).bindings.binds name = true :=
    List.find?_some (p := fun ref => (store.frame ref).bindings.binds name) h
  obtain ⟨front, hchain⟩ := htree.suffix_of_mem (List.mem_of_find?_eq_some h)
  refine ⟨⟨front, hchain.symm, fun around hmem => ?_⟩, hbinds⟩
  rw [Bool.eq_false_iff]
  intro haround
  rw [owner?, ← hchain, List.find?_append] at h
  cases hfirst : front.find? fun ref => (store.frame ref).bindings.binds name with
  | none => exact List.find?_eq_none.mp hfirst around hmem haround
  | some first =>
    rw [hfirst, Option.some_or, Option.some_inj] at h
    exact htree.ne_of_mem_front hchain.symm (List.mem_of_find?_eq_some hfirst) h

/-- A name has an owner exactly if it has a value. -/
theorem isSome_owner?_eq (frame : FrameRef) (name : String) :
    (store.owner? frame name).isSome = (store.lookup? frame name).isSome := by
  rw [Bool.eq_iff_iff, owner?, lookup?, List.find?_isSome, List.findSome?_isSome_iff]
  simp only [binds_eq_isSome]

/-- A definition puts the value into the bindings of the frame. -/
theorem bindings_define (hexists : frame.index < store.frames.size) :
    ((store.define frame name value).frame frame).bindings = (store.frame frame).bindings.put name value := by
  rw [define, frame_changeBindings hexists]

/-- To undefine a name takes it from the bindings of the frame. -/
theorem bindings_undefine (hexists : frame.index < store.frames.size) :
    ((store.undefine frame name).frame frame).bindings = (store.frame frame).bindings.erase name := by
  rw [undefine, frame_changeBindings hexists]

end Store

variable {store : Store} {frame : FrameRef}

/-- An assignment binds the name in its owner, or there is none and it fails. -/
theorem Run.assign_eq (name : String) (value : Value) (position : Position) :
    Run.assign frame name value position store =
      match store.owner? frame name with
      | some owner => .ok () (store.define owner name value)
      | none => .error (.failed (.runtime (.undefinedName name) position)) store := by
  rw [Run.assign, Run.read_bind]
  cases store.owner? frame name <;> rfl

/-- **The laws of scopes.** In a tree of frames an assignment is made exactly if the name has a meaning, and
then it gives the nearest frame that binds the name the value, in the old place; else nothing changes.
Binding and removing a name changes the given frame only, which keeps its names in order. All of this is
seen from the frames that face the changed one, and nothing else is seen otherwise. -/
theorem scope_laws (htree : store.Tree) (hexists : frame.index < store.frames.size) (name : String)
    (value : Value) (position : Position) :
    ((∃ after, Run.assign frame name value position store = .ok () after) ↔
      (store.lookup? frame name).isSome = true) ∧
    (∀ after, Run.assign frame name value position store = .ok () after →
      ∃ owner, store.Faces frame owner name ∧ store.ChangedAt after owner ∧
        (store.frame owner).bindings.ReplacedIn name value (after.frame owner).bindings ∧
        store.SeenFrom after owner name (some value)) ∧
    (∀ stop after, Run.assign frame name value position store = .error stop after →
      stop = .failed (.runtime (.undefinedName name) position) ∧ after = store) ∧
    store.ChangedAt (store.define frame name value) frame ∧
    ((store.frame frame).bindings.ReplacedIn name value
        ((store.define frame name value).frame frame).bindings ∨
      (store.frame frame).bindings.AppendedTo name value
        ((store.define frame name value).frame frame).bindings) ∧
    store.SeenFrom (store.define frame name value) frame name (some value) ∧
    store.ChangedAt (store.undefine frame name) frame ∧
    ((store.frame frame).bindings.RemovedFrom name ((store.undefine frame name).frame frame).bindings ∨
      (store.frame frame).bindings.binds name = false ∧
        ((store.undefine frame name).frame frame).bindings = (store.frame frame).bindings) ∧
    store.SeenFrom (store.undefine frame name) frame name
      ((store.frame frame).outer.findSome? fun ref => store.getLocal? ref name) := by
  rw [Run.assign_eq, ← Store.isSome_owner?_eq, Store.bindings_define hexists,
    Store.bindings_undefine hexists]
  refine ⟨?_, ?_, ?_, Store.changedAt_changeBindings hexists _, ?_,
    Store.seenFrom_define htree hexists, Store.changedAt_changeBindings hexists _, ?_,
    Store.seenFrom_undefine htree hexists⟩
  · cases store.owner? frame name <;> simp
  · intro after hafter
    cases howner : store.owner? frame name with
    | none => rw [howner] at hafter; cases hafter
    | some owner =>
      rw [howner] at hafter
      cases hafter
      obtain ⟨hfaces, hbinds⟩ := Store.faces_of_owner? htree howner
      -- the owner binds the name, so it exists
      have hhere : owner.index < store.frames.size :=
        Store.exists_of_getLocal? (Store.binds_eq_isSome store owner name ▸ hbinds)
      refine ⟨owner, hfaces, Store.changedAt_changeBindings hhere _, ?_,
        Store.seenFrom_define htree hhere⟩
      rw [Store.bindings_define hhere]
      exact Bindings.replacedIn_put hbinds
  · intro stop after hafter
    cases howner : store.owner? frame name with
    | none => rw [howner] at hafter; cases hafter; exact ⟨rfl, rfl⟩
    | some owner => rw [howner] at hafter; cases hafter
  · cases hbinds : (store.frame frame).bindings.binds name with
    | true => exact .inl (Bindings.replacedIn_put hbinds)
    | false => exact .inr (Bindings.appendedTo_put hbinds)
  · cases hbinds : (store.frame frame).bindings.binds name with
    | true => exact .inl (Bindings.removedFrom_erase hbinds)
    | false => exact .inr ⟨rfl, Bindings.erase_of_not_binds hbinds⟩

/-- A store with an outermost frame, one inside of it and two inside of that; two of them bind `x`. -/
def nestedFrames : Store where
  now := Calendar.Moment.midnight 0
  frames := #[
    { bindings := Bindings.empty.putAll [("x", .int 1), ("y", .int 2)] },
    { outer := [⟨0⟩], bindings := Bindings.empty.putAll [("z", .int 3), ("x", .int 4)] },
    { outer := [⟨1⟩, ⟨0⟩] },
    { outer := [⟨1⟩, ⟨0⟩], bindings := Bindings.empty.putAll [("x", .int 5)] }]

/-- Three frames, one within the other, are a tree of frames. -/
theorem tree_nestedFrames : nestedFrames.Tree := by
  intro frame
  obtain ⟨index⟩ := frame
  match index with
  | 0 => exact .inl rfl
  | 1 => exact .inr ⟨⟨0⟩, by decide, rfl⟩
  | 2 => exact .inr ⟨⟨1⟩, by decide, rfl⟩
  | 3 => exact .inr ⟨⟨1⟩, by decide, rfl⟩
  | index + 4 => exact .inl rfl

/-- Removing `x` from the frame in the middle is seen from one of the frames inside of it, not from the one
that binds `x` itself. -/
theorem scope_laws_nested :
    nestedFrames.Tree ∧ (1 < nestedFrames.frames.size) ∧
      (nestedFrames.undefine ⟨1⟩ "x").lookup? ⟨2⟩ "x" = some (.int 1) ∧
      (nestedFrames.undefine ⟨1⟩ "x").lookup? ⟨3⟩ "x" = nestedFrames.lookup? ⟨3⟩ "x" := by
  have hlaws := @scope_laws nestedFrames ⟨1⟩ tree_nestedFrames (by decide) "x" .null default
  obtain ⟨hfacing, hothers⟩ := hlaws.2.2.2.2.2.2.2.2
  refine ⟨tree_nestedFrames, by decide, hfacing ⟨2⟩ ⟨[⟨2⟩], rfl, by decide⟩, hothers ⟨3⟩ "x" fun _ => ?_⟩
  rintro ⟨_ | ⟨first, front⟩, hchain, hfront⟩
  · exact absurd hchain (by decide)
  · have hfirst : (⟨3⟩ : FrameRef) = first := (List.cons.inj hchain).1
    have hbinds := hfront first List.mem_cons_self
    rw [← hfirst] at hbinds
    exact absurd hbinds (by decide)

end Ckl
