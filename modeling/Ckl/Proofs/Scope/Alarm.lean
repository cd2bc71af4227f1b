import Ckl.Proofs.Module.Life
import Ckl.Proofs.Run.Realm.Call
import Ckl.Proofs.Scope.Defined
import Ckl.Proofs.Scope.Report
import Ckl.Proofs.Session.Start

/-!
# Names that are not found

A name that a script refers to where the analysis of free names does not know it is not found there until in
the frame in which it is then found a late definition has begun: one behind the occurrence or around it, or one
that the analysis has forgotten (`Source.Node.Late`). If there is no such definition, the analysis gives no
false alarm.

The frames of the scopes around the occurrence are sealed against the name. In sealed frames only such nodes
are evaluated that stand beside the occurrence, and a frame inside a sealed one is sealed in turn if the
occurrence is in it. As the name `eval` does not occur in the script, nothing but its own nodes is ever
evaluated. Sealed frames do not bind the name as long as runs are stopped before each definition of it.
-/

namespace Ckl

namespace Source

/-- Whether a form requires no module and does nothing to the name of `eval`. -/
def Form.isStatic : Form → Bool
  | .require _ _ => false
  | form => form.uses.all fun use => use.2 != Builtin.eval.name

/-- There is no `require` in the tree, and no `eval`. -/
def Node.Static (node : Node) : Prop := node.All fun inner => inner.form.isStatic = true

end Source

open Source (Position Node Form Lambda Parameter Comprehension)

/-! ## Sealed frames -/

/-- The value of the function `eval`. -/
def evalFunction : Ref .func := ⟨Builtin.all.idxOf .eval⟩

/-- What a function that was made in a frame, or a comprehension, may hold: the occurrence does not stand in
it, or the frame is sealed, and it stands beside the occurrence and does not bind the name. -/
def Source.Form.Fits (form : Form) (script occurrence : Node) (name : String) (isSealed : Prop) : Prop :=
  (∀ part ∈ form.within, part.Static) ∧
    ((∀ part ∈ form.within, ¬ part.Contains occurrence) ∨
      isSealed ∧ name ∉ form.binders ∧ ∀ part ∈ form.within, occurrence.Beside script part)

/-- What a function may be, in a store with so many frames of which some are sealed. -/
def Function.Fits (script occurrence : Node) (name : String) (size : Nat) (isSealed : FrameRef → Prop) :
    Function → Prop
  | .builtin b => b ≠ .eval
  | .host _ => False
  | .lambda definition made =>
    made.index < size ∧ (Form.function definition).Fits script occurrence name (isSealed made)

/-- A store in which some frames are sealed against a name, and the frames around them: those among the owners
do not bind it. Only the outermost frame knows `eval`. -/
structure Sealing (script occurrence : Node) (name : String) (owners : FrameRef → Prop) where
  store : Store
  isSealed : FrameRef → Prop
  exist : ∀ {ref}, isSealed ref → ref.index < store.frames.size
  around : ∀ {ref}, isSealed ref → ∀ outer ∈ (store.frame ref).outer, isSealed outer
  unbound : ∀ {ref}, isSealed ref → owners ref → name ∉ (store.frame ref).bindings.names
  bindings : ∀ ref, ∀ entry ∈ (store.frame ref).bindings.entries, entry.2 = .func evalFunction →
    entry.1 = Builtin.eval.name
  parts : ∀ container, .func evalFunction ∉ store.parts container
  functions : ∀ ref, ref ≠ evalFunction →
    (store.function ref).Fits script occurrence name store.frames.size isSealed
  hasEval : evalFunction.index < store.functions.size

/-- What is bound after a name is put was bound before or is the new entry. -/
theorem Bindings.mem_entries_put {α : Type} {bindings : Bindings α} {name : String} {value : α}
    {entry : String × α} (h : entry ∈ (bindings.put name value).entries) :
    entry ∈ bindings.entries ∨ entry = (name, value) := by
  unfold put at h
  split at h
  · obtain ⟨old, hold, rfl⟩ := List.mem_map.mp h
    split
    · next heq => exact .inr (heq ▸ rfl)
    · exact .inl hold
  · exact (List.mem_append.mp h).imp_right List.mem_singleton.mp

namespace Sealing

variable {script occurrence : Node} {name : String} {owners : FrameRef → Prop}
  {w w' : Sealing script occurrence name owners} {frame : FrameRef}

/-- Later on there are more frames, and those that were there are sealed if they were. -/
structure Later (w w' : Sealing script occurrence name owners) : Prop where
  grows : w.store.frames.size ≤ w'.store.frames.size
  isSealed : ∀ ref : FrameRef, ref.index < w.store.frames.size → (w'.isSealed ref ↔ w.isSealed ref)

/-- What is later than something later is later. -/
theorem Later.trans {last : Sealing script occurrence name owners} (h : w.Later w') (hlast : w'.Later last) :
    w.Later last :=
  ⟨h.grows.trans hlast.grows, fun ref hexists =>
    (hlast.isSealed ref (hexists.trans_le h.grows)).trans (h.isSealed ref hexists)⟩

/-- A function that fits goes on to fit while frames are made and sealed. -/
theorem fits_later {size size' : Nat} {isSealed isSealed' : FrameRef → Prop} (hle : size ≤ size')
    (hsealed : ∀ ref : FrameRef, ref.index < size → isSealed ref → isSealed' ref) {function : Function}
    (h : function.Fits script occurrence name size isSealed) :
    function.Fits script occurrence name size' isSealed' := by
  match function, h with
  | .builtin _, h => exact h
  | .lambda _ made, ⟨hmade, hstatic, hfits⟩ =>
    exact ⟨hmade.trans_le hle, hstatic, hfits.imp_right fun h => ⟨hsealed made hmade h.1, h.2⟩⟩

/-- The function `eval` stays out of all containers where only frames or functions change. -/
theorem parts_later (w : Sealing script occurrence name owners) {after : Store} (hlists : after.lists = w.store.lists)
    (hsets : after.sets = w.store.sets) (hmaps : after.maps = w.store.maps)
    (hobjects : after.objects = w.store.objects) (container : Container) :
    .func evalFunction ∉ after.parts container := by
  rw [Store.parts_congr hlists hsets hmaps hobjects]
  exact w.parts container

/-- In a sealed frame no owner of the name is among the owners. -/
theorem not_owner (h : w.isSealed frame) {owner : FrameRef}
    (howner : w.store.owner? frame name = some owner) : ¬ owners owner := by
  have hbinds : (w.store.frame owner).bindings.binds name = true := List.find?_some
    (p := fun ref => (w.store.frame ref).bindings.binds name) howner
  have hname := (Bindings.binds_iff _ _).mp hbinds
  rcases List.mem_cons.mp (List.mem_of_find?_eq_some howner) with rfl | houter
  · exact fun howns => w.unbound h howns hname
  · exact fun howns => w.unbound (w.around h owner houter) howns hname

/-- Under no other name the function that evaluates texts is bound. -/
theorem ne_eval_of_lookup? {other : String} (hother : other ≠ Builtin.eval.name) {value : Value}
    (h : w.store.lookup? frame other = some value) : value ≠ .func evalFunction := by
  rintro rfl
  obtain ⟨around, _, hvalue⟩ := List.exists_of_findSome?_eq_some h
  obtain ⟨entry, hentry, heval⟩ := Option.map_eq_some_iff.mp hvalue
  have hname : entry.1 = other := by simpa using List.find?_some hentry
  exact hother (hname ▸ w.bindings around entry (List.mem_of_find?_eq_some hentry) heval)

/-! ## Steps -/

/-- Other contents, in the same frames. -/
theorem exists_contents (after : Store) (hframes : after.frames = w.store.frames)
    (hfunctions : after.functions = w.store.functions)
    (hparts : ∀ container, .func evalFunction ∉ after.parts container) :
    ∃ w', w.Later w' ∧ w'.store = after := by
  have hframe := Store.frame_of_frames hframes
  refine ⟨{
    store := after
    isSealed := w.isSealed
    exist := fun href => by rw [hframes]; exact w.exist href
    around := fun href => by rw [hframe]; exact w.around href
    unbound := fun href => by rw [hframe]; exact w.unbound href
    bindings := fun ref => by rw [hframe]; exact w.bindings ref
    parts := hparts
    functions := fun ref href => by
      rw [Store.function, hfunctions, hframes]
      exact w.functions ref href
    hasEval := by rw [hfunctions]; exact w.hasEval }, ⟨?_, fun _ _ => Iff.rfl⟩, rfl⟩
  show _ ≤ after.frames.size
  rw [hframes]

/-- Other names in one frame, though not the one against which it is sealed. -/
theorem exists_changeBindings (hexists : frame.index < w.store.frames.size)
    {change : Bindings Value → Bindings Value}
    (hnames : w.isSealed frame → owners frame →
      name ∉ (change (w.store.frame frame).bindings).names)
    (hentries : ∀ entry ∈ (change (w.store.frame frame).bindings).entries,
      entry.2 = .func evalFunction → entry.1 = Builtin.eval.name) :
    ∃ w', w.Later w' ∧ w'.store = w.store.changeBindings frame change := by
  have hcases : ∀ ref, (w.store.changeBindings frame change).frame ref = w.store.frame ref ∨
      ref = frame ∧ (w.store.changeBindings frame change).frame ref =
        { w.store.frame frame with bindings := change (w.store.frame frame).bindings } := by
    intro ref
    by_cases heq : ref = frame
    · subst heq
      exact .inr ⟨rfl, Store.frame_changeBindings hexists change⟩
    · exact .inl (Store.frame_changeBindings_of_ne heq change)
  refine ⟨{
    store := w.store.changeBindings frame change
    isSealed := w.isSealed
    exist := fun href => by rw [Store.size_changeBindings]; exact w.exist href
    around := fun {ref} href => ?_
    unbound := fun {ref} href => ?_
    bindings := fun ref => ?_
    parts := w.parts_later rfl rfl rfl rfl
    functions := fun ref href => by
      rw [Store.size_changeBindings]
      exact w.functions ref href
    hasEval := w.hasEval }, ⟨?_, fun _ _ => Iff.rfl⟩, rfl⟩
  · rcases hcases ref with hsame | ⟨rfl, hnew⟩
    · rw [hsame]
      exact w.around href
    · rw [hnew]
      exact w.around href
  · rcases hcases ref with hsame | ⟨rfl, hnew⟩
    · rw [hsame]
      exact w.unbound href
    · rw [hnew]
      exact hnames href
  · rcases hcases ref with hsame | ⟨rfl, hnew⟩
    · rw [hsame]
      exact w.bindings ref
    · rw [hnew]
      exact hentries
  · show _ ≤ (w.store.changeBindings frame change).frames.size
    rw [Store.size_changeBindings]

/-- A name is bound, though not the one against which the frame is sealed. -/
theorem exists_define (hexists : frame.index < w.store.frames.size) {other : String}
    (hother : w.isSealed frame → owners frame →
      other ∈ (w.store.frame frame).bindings.names ∨ other ≠ name)
    {value : Value} (hvalue : value ≠ .func evalFunction) :
    ∃ w', w.Later w' ∧ w'.store = w.store.define frame other value := by
  refine exists_changeBindings hexists (fun hsealed howns hmem => ?_) fun entry hentry heval => ?_
  · rcases Bindings.mem_names_put.mp hmem with hold | rfl
    · exact w.unbound hsealed howns hold
    · exact (hother hsealed howns).elim (w.unbound hsealed howns) fun hne => hne rfl
  · rcases Bindings.mem_entries_put hentry with hold | rfl
    · exact w.bindings frame entry hold heval
    · exact absurd heval hvalue

/-- A frame is entered, which may be sealed if the frame around it is. -/
theorem exists_enter (frame : FrameRef) (seals : Prop) {bindings : Bindings Value}
    (hvalues : ∀ value ∈ bindings.values, value ≠ .func evalFunction)
    (hseals : seals → w.isSealed frame ∧ name ∉ bindings.names) :
    ∃ w', w.Later w' ∧ w'.store = (w.store.enter frame bindings).2 ∧
      (w'.isSealed (w.store.enter frame bindings).1 ↔ seals) := by
  have hnew : ¬ w.isSealed (w.store.enter frame bindings).1 := fun h => Nat.lt_irrefl _ (w.exist h)
  have hold : ∀ {ref}, w.isSealed ref → (w.store.enter frame bindings).2.frame ref = w.store.frame ref :=
    fun href => Store.frame_enter_of_lt (w.exist href) _ _
  -- the new frame is the only one that can be sealed in addition
  refine ⟨{
    store := (w.store.enter frame bindings).2
    isSealed := fun ref => w.isSealed ref ∨ ref = (w.store.enter frame bindings).1 ∧ seals
    exist := ?_
    around := ?_
    unbound := ?_
    bindings := ?_
    parts := w.parts_later rfl rfl rfl rfl
    functions := fun ref href => fits_later (by simp) (fun _ _ => .inl) (w.functions ref href)
    hasEval := w.hasEval }, ⟨?_, ?_⟩, rfl, ?_⟩
  · rintro ref (href | ⟨rfl, -⟩)
    · exact (w.exist href).trans_le (by simp)
    · exact Store.enter_exists frame bindings
  · rintro ref (href | ⟨rfl, h⟩) outer houter
    · rw [hold href] at houter
      exact .inl (w.around href outer houter)
    · rw [Store.frame_enter_new] at houter
      rcases List.mem_cons.mp houter with rfl | houter
      · exact .inl (hseals h).1
      · exact .inl (w.around (hseals h).1 outer houter)
  · rintro ref (href | ⟨rfl, h⟩)
    · rw [hold href]
      exact w.unbound href
    · rw [Store.frame_enter_new]
      exact fun _ => (hseals h).2
  · intro ref entry hentry heval
    by_cases hlt : ref.index < w.store.frames.size
    · rw [Store.frame_enter_of_lt hlt] at hentry
      exact w.bindings ref entry hentry heval
    · by_cases heq : ref = (w.store.enter frame bindings).1
      · subst heq
        rw [Store.frame_enter_new] at hentry
        exact absurd heval (hvalues entry.2 (List.mem_map_of_mem hentry))
      · have hge : (w.store.enter frame bindings).2.frames.size ≤ ref.index := by
          have hindex : ref.index ≠ w.store.frames.size := fun h => heq (FrameRef.eq_of_index h)
          simp only [Store.size_enter]
          omega
        rw [Store.frame_eq_default hge] at hentry
        cases hentry
  · show _ ≤ (w.store.enter frame bindings).2.frames.size
    simp
  · intro ref href
    refine ⟨fun h => h.resolve_right ?_, .inl⟩
    rintro ⟨rfl, -⟩
    exact Nat.lt_irrefl _ href
  · exact ⟨fun h => (h.resolve_left hnew).2, fun h => .inr ⟨rfl, h⟩⟩

/-- A function is made. -/
theorem exists_function (function : Function)
    (hfits : function.Fits script occurrence name w.store.frames.size w.isSealed) :
    ∃ w', w.Later w' ∧ w'.store = (w.store.placeFunction function).2 := by
  refine ⟨{
    store := (w.store.placeFunction function).2
    isSealed := w.isSealed
    exist := w.exist
    around := w.around
    unbound := w.unbound
    bindings := w.bindings
    parts := w.parts_later rfl rfl rfl rfl
    functions := fun ref href => ?_
    hasEval := w.hasEval.trans_le (by simp [Store.placeFunction]) }, ⟨le_rfl, fun _ _ => Iff.rfl⟩, rfl⟩
  have hcases : (w.store.placeFunction function).2.function ref = w.store.function ref ∨
      (w.store.placeFunction function).2.function ref = function := by
    simp only [Store.function, Store.placeFunction, Array.getElem?_push]
    split
    · exact .inr rfl
    · exact .inl rfl
  rcases hcases with hsame | hnew
  · rw [hsame]
    exact w.functions ref href
  · rw [hnew]
    exact hfits

/-! ## The realm -/

/-- What is inside a form may be evaluated in a frame that has been entered for it. -/
def Admits (w : Sealing script occurrence name owners) (form : Form) (frame : FrameRef) : Prop :=
  frame.index < w.store.frames.size ∧ (∀ part ∈ form.within, part.Static) ∧
    ((¬ w.isSealed frame ∧ ∀ part ∈ form.within, ¬ part.Contains occurrence) ∨
      w.isSealed frame ∧ name ∉ form.binders ∧ ∀ part ∈ form.within, occurrence.Beside script part)

/-- The tree may be evaluated in the frame. -/
def Allows (w : Sealing script occurrence name owners) (node : Node) (frame : FrameRef) : Prop :=
  frame.index < w.store.frames.size ∧ node.Static ∧
    ((¬ w.isSealed frame ∧ ¬ node.Contains occurrence) ∨
      w.isSealed frame ∧ occurrence.Beside script node)

/-- A form that is admitted is admitted later. -/
theorem Admits.later {form : Form} (h : w.Admits form frame) (hlater : w.Later w') :
    w'.Admits form frame := by
  obtain ⟨hexists, hstatic, hinside⟩ := h
  have hiff := hlater.isSealed frame hexists
  exact ⟨hexists.trans_le hlater.grows, hstatic,
    hinside.imp (fun h => ⟨mt hiff.mp h.1, h.2⟩) fun h => ⟨hiff.mpr h.1, h.2⟩⟩

/-- A node that is allowed is allowed later. -/
theorem Allows.later {node : Node} (h : w.Allows node frame) (hlater : w.Later w') :
    w'.Allows node frame := by
  obtain ⟨hexists, hstatic, hinside⟩ := h
  have hiff := hlater.isSealed frame hexists
  exact ⟨hexists.trans_le hlater.grows, hstatic,
    hinside.imp (fun h => ⟨mt hiff.mp h.1, h.2⟩) fun h => ⟨hiff.mpr h.1, h.2⟩⟩

/-- The parts evaluated in the same frame are allowed there. -/
theorem Allows.here {node part : Node} (h : w.Allows node frame) (hpart : part ∈ node.form.here) :
    w.Allows part frame :=
  ⟨h.1, h.2.1.here hpart, h.2.2.imp
    (fun h => ⟨h.1, fun hin => h.2 (.head (List.mem_append_left _ hpart) hin)⟩)
    fun h => ⟨h.1, h.2.tail (.inl hpart)⟩⟩

/-- The parts of an admitted form are allowed. -/
theorem Admits.allows {form : Form} {part : Node} (h : w.Admits form frame)
    (hpart : part ∈ form.within) : w.Allows part frame :=
  ⟨h.1, h.2.1 part hpart,
    h.2.2.imp (fun h => ⟨h.1, h.2 part hpart⟩) fun h => ⟨h.1, h.2.2 part hpart⟩⟩

/-- What is inside of a tree fits into its frame. -/
theorem Allows.fits (hunknown : occurrence.Unknown name script) {node : Node} (h : w.Allows node frame) :
    node.form.Fits script occurrence name (w.isSealed frame) := by
  obtain ⟨-, hstatic, hinside⟩ := h
  refine ⟨fun part hpart => hstatic.within hpart, ?_⟩
  rcases hinside with ⟨-, habsent⟩ | ⟨hsealed, hbeside⟩
  · exact .inl fun part hpart hin => habsent (.head (List.mem_append_right _ hpart) hin)
  · by_cases hin : ∃ other ∈ node.form.within, other.Contains occurrence
    · obtain ⟨other, hother, hstands⟩ := hin
      exact .inr ⟨hsealed, hunknown.not_mem_binders hbeside.contains hother hstands,
        fun part hpart => hbeside.tail (.inr ⟨hpart, other, hother, hstands⟩)⟩
    · exact .inl fun part hpart hstands => hin ⟨part, hpart, hstands⟩

/-- A frame is entered for what is inside of a form. -/
theorem exists_admits (form : Form) (h : form.Fits script occurrence name (w.isSealed frame))
    {bindings : Bindings Value} (hvalues : ∀ value ∈ bindings.values, value ≠ .func evalFunction)
    (hnames : bindings.names ⊆ form.binders) :
    ∃ w', w.Later w' ∧ w'.store = (w.store.enter frame bindings).2 ∧
      w'.Admits form (w.store.enter frame bindings).1 := by
  obtain ⟨hstatic, habsent | ⟨hsealed, hnew, hbeside⟩⟩ := h
  · obtain ⟨w', hlater, hstore, hseals⟩ := w.exists_enter frame False hvalues False.elim
    refine ⟨w', hlater, hstore, ?_, hstatic, .inl ⟨fun h => hseals.mp h, habsent⟩⟩
    rw [hstore]
    exact Store.enter_exists _ _
  · obtain ⟨w', hlater, hstore, hseals⟩ := w.exists_enter frame True hvalues fun _ =>
      ⟨hsealed, fun hmem => hnew (hnames hmem)⟩
    refine ⟨w', hlater, hstore, ?_, hstatic, .inr ⟨hseals.mpr trivial, hnew, hbeside⟩⟩
    rw [hstore]
    exact Store.enter_exists _ _

/-- A name is bound that the form binds. -/
theorem Admits.exists_define {form : Form} (h : w.Admits form frame) (other : String)
    (hother : other ∈ form.binders) {value : Value} (hvalue : value ≠ .func evalFunction) :
    ∃ w', w.Later w' ∧ w'.store = w.store.define frame other value := by
  refine Sealing.exists_define h.1 (fun hsealed _ => .inr ?_) hvalue
  rcases h.2.2 with ⟨hopen, -⟩ | ⟨-, hnew, -⟩
  · exact absurd hsealed hopen
  · exact fun heq => hnew (heq ▸ hother)

end Sealing

/-- The realm of a script with an occurrence at which a name is not known. It halts before definitions of the
name in sealed frames among the owners. -/
def sealing (script occurrence : Node) (name : String) (owners : FrameRef → Prop) : Realm where
  World := Sealing script occurrence name owners
  order := {
    le := Sealing.Later
    le_refl := fun _ => ⟨le_rfl, fun _ _ => Iff.rfl⟩
    le_trans := fun _ _ _ => .trans }
  store := Sealing.store
  keeps _ _ := True
  calls _ ref := ref ≠ evalFunction
  runs w function := function.Fits script occurrence name w.store.frames.size w.isSealed
  permits w frame use other := frame.index < w.store.frames.size ∧ other ≠ Builtin.eval.name ∧
    (use = .define → w.isSealed frame → owners frame → other ≠ name)
  allows w node frame := w.Allows node frame
  gathers w parts frame := w.Admits (.comprehension parts) frame
  awaits w definition parameters frame := w.Admits (.function definition) frame ∧
    parameters ⊆ definition.parameters
  misses _ := True
  halts w node frame := w.isSealed frame ∧ owners frame ∧ (.define, name) ∈ node.form.uses

namespace sealing

variable {script occurrence : Node} {name : String} {owners : FrameRef → Prop}
  {w w' : (sealing script occurrence name owners).World}

/-- To have a value is, here, that it does not evaluate texts. -/
theorem has_iff {value : Value} :
    (sealing script occurrence name owners).has w value ↔ value ≠ .func evalFunction := by
  cases value with
  | func ref => exact not_congr ⟨congrArg Value.func, Value.func.inj⟩
  | _ => exact ⟨fun _ => nofun, fun _ => trivial⟩

/-- Values that are had do not evaluate texts. -/
theorem ne_eval {values : List Value}
    (h : ∀ value ∈ values, (sealing script occurrence name owners).has w value) :
    ∀ value ∈ values, value ≠ .func evalFunction :=
  fun value hvalue => has_iff.mp (h value hvalue)

/-- Evaluation keeps to what is sealed if the occurrence is not known in the script. -/
theorem lawful (hunknown : occurrence.Unknown name script) :
    (sealing script occurrence name owners).Lawful where
  keeps_later _ h := h
  calls_later _ h := h
  runs_later hle h := Sealing.fits_later hle.grows (fun ref href => (hle.isSealed ref href).mpr) h
  permits_later hle h := ⟨h.1.trans_le hle.grows, h.2.1,
    fun hdefine hsealed => h.2.2 hdefine ((hle.isSealed _ h.1).mp hsealed)⟩
  allows_later hle h := h.later hle
  gathers_later hle h := h.later hle
  awaits_later hle h := ⟨h.1.later hle, h.2⟩
  has_part {w container} _ part hpart := has_iff.mpr fun heq => w.parts container (heq ▸ hpart)
  runs_function {w ref} hcalls := w.functions ref hcalls
  allows_part hallows part hpart := hallows.here hpart
  permits_use {w node frame} hallows hgoes use huse := by
    obtain ⟨hexists, hstatic, -⟩ := hallows
    refine ⟨hexists, ?_, fun hdefine hsealed howns heq => ?_⟩
    · have hown := hstatic.own
      obtain ⟨position, form⟩ := node
      cases form with
      | require => cases hown
      | _ => simpa using List.all_eq_true.mp hown use huse
    · exact hgoes ⟨hsealed, howns, hdefine ▸ heq ▸ huse⟩
  permits_import hallows := nomatch hallows.2.1.own
  has_peeked {w _ _ _} hpermits hvalue := has_iff.mpr (w.ne_eval_of_lookup? hpermits.2.1 hvalue)
  has_looked {w _ _ _} hpermits hvalue := has_iff.mpr (w.ne_eval_of_lookup? hpermits.2.1 hvalue)
  misses_looked _ _ := trivial
  -- what is assigned is bound already, which a sealed frame does not do with the name
  assigns {w frame other value owner} _ hvalue howner := by
    have hbinds : (w.store.frame owner).bindings.binds other = true := List.find?_some
      (p := fun ref => (w.store.frame ref).bindings.binds other) howner
    have hbound := (Bindings.binds_iff _ _).mp hbinds
    exact Sealing.exists_define (Store.meets_of_local hbound).exists (fun _ _ => .inl hbound)
      (has_iff.mp hvalue)
  misses_assigned _ _ := trivial
  defines hpermits hvalue :=
    Sealing.exists_define hpermits.1 (fun hsealed howns => .inr (hpermits.2.2 rfl hsealed howns))
      (has_iff.mp hvalue)
  -- a sealed frame does not bind the name, so it cannot lose it; others may
  removes {w frame other} hpermits := by
    refine w.exists_changeBindings hpermits.1 (fun hsealed howns hmem => ?_) fun entry hentry => ?_
    · obtain ⟨entry, hentry, heq⟩ := List.mem_map.mp hmem
      exact w.unbound hsealed howns (List.mem_map.mpr ⟨entry, List.mem_of_mem_filter hentry, heq⟩)
    · exact w.bindings frame entry (List.mem_of_mem_filter hentry)
  aside {w after} hsame := by
    refine w.exists_contents _ hsame.frames hsame.functions fun container => ?_
    rw [hsame.parts]
    exact w.parts container
  places {w fresh} hparts := by
    obtain ⟨w', hle, hstore⟩ := w.exists_contents (w.store.place fresh).2
      (by cases fresh <;> rfl) (by cases fresh <;> rfl) fun container hmem => by
        rcases w.store.parts_place fresh container with hsame | hnew
        · exact w.parts container (hsame ▸ hmem)
        · exact has_iff.mp (hparts _ (hnew ▸ hmem)) rfl
    refine ⟨w', hle, hstore, ?_⟩
    cases fresh with
    | value stored => exact has_iff.mpr (has_iff.mp (hparts stored (List.mem_singleton.mpr rfl)))
    | _ => exact has_iff.mpr nofun
  alters {w after container added} _ hadded halters := by
    refine w.exists_contents _ halters.frames halters.functions fun other hmem => ?_
    by_cases heq : other = container
    · subst heq
      rcases halters.parts _ hmem with hold | hnew
      · exact w.parts other hold
      · exact has_iff.mp (hadded _ hnew) rfl
    · rw [(halters.others other heq).1] at hmem
      exact w.parts other hmem
  makes {w position definition frame} hallows := by
    obtain ⟨w', hle, hstore⟩ := w.exists_function (.lambda definition frame)
      ⟨hallows.1, hallows.fits hunknown⟩
    -- the function that evaluates texts has been there from the beginning
    have hnew : (⟨w.store.functions.size⟩ : Ref .func) ≠ evalFunction := fun heq =>
      Nat.ne_of_gt w.hasEval (congrArg Ref.index heq)
    exact ⟨w', hle, hstore, hnew⟩
  enters_gathering {w position parts frame} hallows :=
    Sealing.exists_admits (.comprehension parts) (hallows.fits hunknown)
      (fun _ hvalue => absurd hvalue List.not_mem_nil) (List.nil_subset _)
  binds_item {w parts frame item} hgathers hitem := by
    obtain ⟨w', hle, hstore⟩ := hgathers.exists_define parts.binder
      (List.mem_singleton.mpr rfl) (has_iff.mp hitem)
    exact ⟨w', hle, hstore, fun part hpart => (hgathers.later hle).allows hpart⟩
  enters_call {w definition made bindings} hruns hbindings hnames _ := by
    obtain ⟨w', hle, hstore, hadmits⟩ := Sealing.exists_admits (.function definition) hruns.2
      (ne_eval hbindings) hnames
    exact ⟨w', hle, hstore, hadmits, List.Subset.refl _⟩
  awaits_bound hawaits _ := ⟨hawaits.1, fun _ hmem => hawaits.2 (List.mem_cons_of_mem _ hmem)⟩
  allows_fallback {w definition parameter parameters frame fallback} hawaits hfallback :=
    hawaits.1.allows (List.mem_append_left _
      (List.mem_filterMap.mpr ⟨parameter, hawaits.2 List.mem_cons_self, hfallback⟩))
  binds_fallback {w definition parameter parameters frame value} hawaits hvalue := by
    obtain ⟨w', hle, hstore⟩ := hawaits.1.exists_define parameter.name
      (List.mem_append_left _ (List.mem_map_of_mem (hawaits.2 List.mem_cons_self))) (has_iff.mp hvalue)
    exact ⟨w', hle, hstore, hawaits.1.later hle, fun _ hmem => hawaits.2 (List.mem_cons_of_mem _ hmem)⟩
  allows_body hawaits := hawaits.1.allows (List.mem_append_right _ (List.mem_singleton.mpr rfl))
  enters_eval hruns := absurd rfl hruns
  hosts _ hruns := hruns.elim
  modules {_} [_] {_} _ {_ _ _ _ _} _ _ hallows := nomatch hallows.2.1.own

end sealing

/-! ## Scripts in new sessions -/

section Start

variable (file : String) (resolve : String → Resolution) (input : List InputLine)
  (now : Calendar.Moment)

/-- In the beginning every function fits except the one that evaluates texts. -/
theorem Session.fits_start {script occurrence : Node} {name : String} {size : Nat}
    {isSealed : FrameRef → Prop} {ref : Ref .func} (href : ref ≠ evalFunction) :
    ((start file resolve input now).store.function ref).Fits script occurrence name size isSealed := by
  have hnodup : Builtin.all.Nodup := by decide
  rw [Store.function]
  cases hfound : (start file resolve input now).store.functions[ref.index]? with
  | none => exact fun heq : Builtin.type = .eval => by cases heq
  | some function =>
    have hget : (Builtin.all.map Function.builtin)[ref.index]? = some function := by
      rw [← hfound]
      exact (List.getElem?_toArray ..).symm
    rw [List.getElem?_map, Option.map_eq_some_iff] at hget
    obtain ⟨b, hb, rfl⟩ := hget
    rintro rfl
    obtain ⟨hlt, hb⟩ := List.getElem?_eq_some_iff.mp hb
    refine href (congrArg Ref.mk ?_)
    rw [← hb, hnodup.idxOf_getElem]

/-- A session begins with both of its frames sealed. -/
def Session.sealed (script occurrence : Node) {name : String} (owners : FrameRef → Prop)
    (hname : baseBindings.binds name = false) : Sealing script occurrence name owners where
  store := (start file resolve input now).store
  isSealed ref := ref = ⟨0⟩ ∨ ref = ⟨1⟩
  exist := by
    rintro ref (rfl | rfl) <;> simp [start, baseStore]
  around := by
    rintro ref (rfl | rfl) outer houter
    · cases houter
    · exact .inl (List.mem_singleton.mp houter)
  unbound := by
    rintro ref (rfl | rfl) - hmem
    · rw [bindings_base, ← Bindings.binds_iff, hname] at hmem
      cases hmem
    · cases hmem
  bindings ref entry hentry heval := by
    have hbase : ∀ entry ∈ baseBindings.entries,
        entry.2.asFunction = .ok evalFunction → entry.1 = Builtin.eval.name := by decide +kernel
    by_cases href : ref = ⟨0⟩
    · rw [href, bindings_base] at hentry
      exact hbase entry hentry (heval ▸ rfl)
    · rw [bindings_others file resolve input now href] at hentry
      cases hentry
  parts container hmem := by
    cases container <;> cases hmem
  functions ref href := fits_start file resolve input now href
  hasEval := by
    rw [show (start file resolve input now).store.functions.size = Builtin.all.length from
      List.length_map ..]
    decide

end Start

/-- Cuts where a name is looked up at a place of the script and found in one of the owners. -/
def Cut.finds (place : Position) (name : String) (owners : FrameRef → Prop) : Cut :=
  fun node frame moment =>
    node = .mk place (.name name) ∧ ∃ owner ∈ moment.owner? frame name, owners owner

/-- Cuts where a late definition of a name begins in one of the owners. -/
def Cut.definesLate (script occurrence : Node) (name : String) (owners : FrameRef → Prop) : Cut :=
  fun node frame _ =>
    (.define, name) ∈ node.form.uses ∧ occurrence.Late name script node ∧ owners frame

namespace sealing

variable {script : Node} {name : String} {place : Position} {owners : FrameRef → Prop}
  {w : (sealing script (.mk place (.name name)) name owners).World} {node : Node} {frame : FrameRef}

/-- At the occurrence the name is not found in the owners. -/
theorem not_finds (h : (sealing script (.mk place (.name name)) name owners).allows w node frame) :
    ¬ Cut.finds place name owners node frame ((sealing _ _ _ _).store w) := by
  rintro ⟨rfl, owner, howner, howns⟩
  obtain ⟨-, -, ⟨-, habsent⟩ | ⟨hsealed, -⟩⟩ := h
  · exact habsent .refl
  · exact w.not_owner hsealed howner howns

/-- The realm halts only where a late definition begins. -/
theorem definesLate_of_halts (hstatic : script.Static)
    (hunknown : (Node.mk place (.name name)).Unknown name script)
    (h : (sealing script (.mk place (.name name)) name owners).allows w node frame)
    (hhalts : (sealing script (.mk place (.name name)) name owners).halts w node frame) :
    script.Contains node ∧ Cut.definesLate script (.mk place (.name name)) name owners node frame
      ((sealing _ _ _ _).store w) := by
  obtain ⟨hsealed, howns, hbind⟩ := hhalts
  obtain ⟨-, -, ⟨hopen, -⟩ | ⟨-, hbeside⟩⟩ := h
  · exact absurd hsealed hopen
  · exact ⟨hbeside.contains, hbind, hunknown.late hstatic rfl hbeside hbind, howns⟩

end sealing

/-- **False alarms come from late definitions only.** A name that is undefined in a script is reported: the
analysis meets a reference to it where it does not know it. Wherever it always meets an occurrence of the name
in this way, a run of the script in a new session does not come to find the name in a frame at this occurrence
before it has come, in that frame, to a late definition of it. If there is no late definition, the occurrence
is no false alarm: the name is never found there. -/
theorem undefined_not_found_before {script : Node} (hstatic : script.Static) {name : String}
    (hname : name ∈ undefinedNames script) :
    script.Reports name ∧
      ∀ place, (Node.mk place (.name name)).Unknown name script →
        ∀ file resolve input now,
          (∀ owners, ¬ (Session.start file resolve input now).Encounters script
            (.definesLate script (.mk place (.name name)) name owners) (.finds place name owners)) ∧
          ((∀ definition, script.Contains definition → (.define, name) ∈ definition.form.uses →
              ¬ (Node.mk place (.name name)).Late name script definition) →
            (Session.start file resolve input now).runUntil script (.finds place name fun _ => True) =
              (Session.start file resolve input now).runUntil script ⊥) := by
  obtain ⟨hfree, hbinds⟩ := List.mem_filter.mp hname
  have hbase : baseBindings.binds name = false := by simpa using hbinds
  refine ⟨(Node.mem_freeNames_iff hstatic).mp hfree, fun place hunknown file resolve input now => ?_⟩
  -- in the beginning the two frames of the session are sealed against the name
  let start := fun owners =>
    Session.sealed file resolve input now script (.mk place (.name name)) owners hbase
  have hallows : ∀ owners, (sealing script (.mk place (.name name)) name owners).allows (start owners)
      script ⟨1⟩ := fun owners =>
    ⟨(start owners).exist (.inr rfl), hstatic, .inr ⟨.inr rfl, .refl⟩⟩
  refine ⟨fun owners => ?_, fun hnone => ?_⟩
  · rintro ⟨stop, hdiffers⟩
    have hkept := (sealing.lawful hunknown).kept_before
      (.definesLate script (.mk place (.name name)) name owners) (.finds place name owners)
      (fun hallows hhalts => (sealing.definesLate_of_halts hstatic hunknown hallows hhalts).2)
      sealing.not_finds stop evaluationBound
    have hsame := (Realm.promises_finish script.position (hkept.node (hallows owners))).same
      fun _ _ => id
    exact hdiffers hsame.1
  -- without a late definition the realm halts nowhere
  · have hkept := (sealing.lawful hunknown).kept_uncut (fun hallows hhalts =>
        have hlate := sealing.definesLate_of_halts hstatic hunknown hallows hhalts
        hnone _ hlate.1 hlate.2.1 hlate.2.2.1)
      (.finds place name fun _ => True) sealing.not_finds evaluationBound
    have hsame := (Realm.promises_finish script.position (hkept.node (hallows fun _ => True))).same
      fun _ _ => id
    rw [Session.runUntil, Session.runUntil, evaluatorUntil_bot]
    exact hsame.1

/-- The script that defines a function `f` with the body `y`, does something else, and calls `f`. -/
def deferredName (statements : List Node) : Node :=
  .mk default (.block
    ([.mk default (.define "f" (.mk default (.function {
      name := some "f", parameters := [], rest := none, body := .mk default (.name "y") })))] ++
      statements ++ [.mk default (.call (.mk default (.name "f")) [])]) [] [])

/-- A branch that defines `y`. -/
def branchDefining : Node :=
  .mk default (.choice [⟨.mk default (.literal (.boolean true)),
    .mk default (.define "y" (.mk default (.literal (.int 1))))⟩] none)

/-- The function that defers a name contains the name. -/
theorem deferredName_contains (statements : List Node) :
    (deferredName statements).Contains (.mk default (.name "y")) := by
  refine .head (b := .mk default (.define "f" (.mk default (.function {
    name := some "f", parameters := [], rest := none, body := .mk default (.name "y") })))) ?_
    (.head (List.mem_append_left _ (List.mem_singleton.mpr rfl))
      (.head (List.mem_append_right _ (List.mem_singleton.mpr rfl)) .refl))
  simp [deferredName, Node.form, Form.here, Form.parts]

/-- In both scripts `y` is undefined and reported. With the branch, `y` is not found in a frame before the
definition in the branch has begun there; without it, `y` is never found. -/
theorem undefined_not_found_before_branch :
    ("y" ∈ undefinedNames (deferredName [branchDefining]) ∧
      (deferredName [branchDefining]).Reports "y" ∧
      ∀ owners, ¬ plainSession.Encounters (deferredName [branchDefining])
        (.definesLate (deferredName [branchDefining]) (.mk default (.name "y")) "y" owners)
        (.finds default "y" owners)) ∧
    "y" ∈ undefinedNames (deferredName []) ∧
      plainSession.runUntil (deferredName []) (.finds default "y" fun _ => True) =
        plainSession.runUntil (deferredName []) ⊥ := by
  have hname : "y" ∈ undefinedNames (deferredName [branchDefining]) := by decide +kernel
  have hstatic : (deferredName [branchDefining]).allUpTo (·.form.isStatic) 4 = true := by decide +kernel
  have hunknown := Node.unknown_of_upTo (deferredName_contains [branchDefining])
    (show (deferredName [branchDefining]).allUpTo (fun _ => true) 4 = true by decide +kernel)
    (by decide +kernel)
  have hname' : "y" ∈ undefinedNames (deferredName []) := by decide +kernel
  have hstatic' : (deferredName []).allUpTo (·.form.isStatic) 4 = true := by decide +kernel
  have hunknown' := Node.unknown_of_upTo (deferredName_contains [])
    (show (deferredName []).allUpTo (fun _ => true) 4 = true by decide +kernel) (by decide +kernel)
  have hbinds : (deferredName []).allUpTo (fun node => !node.form.uses.contains (.define, "y")) 4 =
      true := by decide +kernel
  obtain ⟨hreports, hbranch⟩ := undefined_not_found_before (Node.all_of_allUpTo hstatic) hname
  obtain ⟨-, hplain⟩ := undefined_not_found_before (Node.all_of_allUpTo hstatic') hname'
  refine ⟨⟨hname, hreports, (hbranch default hunknown _ _ _ _).1⟩, hname',
    (hplain default hunknown' _ _ _ _).2 fun definition hin hbind => ?_⟩
  have hnone := (Node.all_of_allUpTo hbinds).of_contains hin
  simp only [Bool.not_eq_true', List.contains_eq_mem, decide_eq_false_iff_not] at hnone
  exact absurd hbind hnone.own

/-- A lookup that finds `y`, as a test. -/
def findsTest (place : Position) (name : String) : Watch
  | .mk other (.name word), frame, moment =>
    if other == place && word == name && (moment.owner? frame name).isSome then some .exhausted else none
  | _, _, _ => none

/-- Watching for a name that is found is a test of where and what is evaluated. -/
theorem evaluatorUntil_finds (place : Position) (name : String) (bound : Nat) :
    evaluatorUntil (.finds place name fun _ => True) bound =
      evaluatorWatched (findsTest place name) bound := by
  refine evaluatorUntil_eq_watched ?_ ?_ bound
  · rintro _ frame store ⟨rfl, owner, howner, -⟩
    simp [findsTest, Option.mem_def.mp howner]
  · intro node frame store hnot
    obtain ⟨other, form⟩ := node
    cases form with
    | name word =>
      refine if_neg fun hfound => hnot ?_
      simp only [Bool.and_eq_true, beq_iff_eq] at hfound
      obtain ⟨⟨rfl, rfl⟩, hsome⟩ := hfound
      obtain ⟨owner, howner⟩ := Option.isSome_iff_exists.mp hsome
      exact ⟨rfl, owner, howner, trivial⟩
    | _ => rfl

/-- If `y` is defined in a branch before the call, it is found, though the analysis has it undefined. -/
theorem undefined_found_late :
    ∃ script : Node, script.Static ∧ "y" ∈ undefinedNames script ∧
      plainSession.runUntil script (.finds default "y" fun _ => True) ≠
        plainSession.runUntil script ⊥ := by
  have hstatic : (deferredName [branchDefining]).allUpTo (·.form.isStatic) 4 = true := by decide +kernel
  have hname : "y" ∈ undefinedNames (deferredName [branchDefining]) := by decide +kernel
  refine ⟨deferredName [branchDefining], Node.all_of_allUpTo hstatic, hname, fun hsame => ?_⟩
  rw [Session.runUntil, Session.runUntil, evaluatorUntil_bot, evaluatorUntil_finds] at hsame
  have hanswer := congrArg
    (fun result => match result with | .ok _ _ => true | .error _ _ => false) hsame
  revert hanswer
  decide +kernel

end Ckl
