import Ckl.Proofs.Module.Life
import Ckl.Proofs.Run.Realm.Call
import Ckl.Proofs.Run.Realm.Module
import Ckl.Proofs.Session.Start
import Ckl.Proofs.Value.OwnKey

/-!
# Self-keyed containers in sessions

All that scripts do to the store are steps (`Ckl.Proofs.Value.OwnKey`), whatever they evaluate: modules,
texts and calls of functions with them. So a session in which some container can be reached from one of its
own keys has come upon an alteration that closed it, and on the way to it none did before the first one.
-/

namespace Ckl

open Source (Position Node)

/-- A store with the course of steps by which it has come out of another one. Everything that is bound or
held in it exists, and there are no functions of a host. -/
structure History (start : Store) where
  store : Store
  course : List Store
  steps : (start :: course).IsChain Store.Step
  last : (start :: course).getLast (List.cons_ne_nil _ _) = store
  whole : store.Whole
  bindings : ∀ ref, ∀ value ∈ (store.frame ref).bindings.values, store.Has value
  functions : ∀ ref host, store.function ref ≠ .host host

namespace History

variable {start after : Store} {w w' : History start}

instance : Preorder (History start) where
  le w w' := w.course <+: w'.course
  le_refl w := List.prefix_refl w.course
  le_trans _ _ _ := List.IsPrefix.trans

/-- The store has been come to on the way. -/
def Passes (w : History start) (moment : Store) : Prop :=
  ∃ way, way <+: w.course ∧ (start :: way).getLast (List.cons_ne_nil _ _) = moment

/-- A history passes through the store that it has come to. -/
theorem passes_store (w : History start) : w.Passes w.store := ⟨w.course, List.prefix_refl _, w.last⟩

/-- Nothing that exists is taken away. -/
theorem containers_subset (hle : w ≤ w') : w.store.containers ⊆ w'.store.containers := by
  let grows (before after : Store) : Prop := before.containers ⊆ after.containers
  have htrans : Trans grows grows grows := ⟨List.Subset.trans⟩
  have hrefl : Std.Refl grows := ⟨fun store => List.Subset.refl store.containers⟩
  have hgrows : (start :: w'.course).Pairwise grows :=
    List.isChain_iff_pairwise.mp (w'.steps.imp fun _ _ => Store.Step.grows)
  have hpassed : w.store ∈ start :: w'.course := by
    rw [← w.last]
    exact (List.prefix_cons_inj start |>.mpr hle).subset (List.getLast_mem _)
  rw [← w'.last]
  exact hgrows.rel_getLast hpassed

/-- One more step. -/
def extend (w : History start) (hstep : w.store.Step after)
    (hbindings : ∀ ref, ∀ value ∈ (after.frame ref).bindings.values, after.Has value)
    (hfunctions : ∀ ref host, after.function ref ≠ .host host) : History start where
  store := after
  course := w.course ++ [after]
  steps := by
    rw [← List.cons_append, List.isChain_append]
    refine ⟨w.steps, .singleton _, fun before hbefore next hnext => ?_⟩
    rw [List.getLast?_eq_some_getLast (List.cons_ne_nil _ _), w.last] at hbefore
    cases hbefore
    cases hnext
    exact hstep
  last := by simp
  whole := hstep.whole w.whole
  bindings := hbindings
  functions := hfunctions

/-- One step more continues a history. -/
theorem le_extend {hstep : w.store.Step after}
    {hbindings : ∀ ref, ∀ value ∈ (after.frame ref).bindings.values, after.Has value}
    {hfunctions : ∀ ref host, after.function ref ≠ .host host} :
    w ≤ w.extend hstep hbindings hfunctions :=
  List.prefix_append _ _

/-- The steps on which frames and functions are the same. -/
theorem exists_step (hstep : w.store.Step after) (hframes : after.frames = w.store.frames)
    (hfunctions : after.functions = w.store.functions) :
    ∃ w' : History start, w ≤ w' ∧ w'.store = after := by
  refine ⟨w.extend hstep (fun ref value hvalue => ?_) fun ref host => ?_, le_extend, rfl⟩
  · exact (w.bindings ref value (Store.frame_of_frames hframes ref ▸ hvalue)).later hstep.grows
  · rw [Store.function, hfunctions]
    exact w.functions ref host

/-- The steps on which only frames change. -/
theorem exists_frames {frames : Array Frame}
    (hbindings : ∀ ref : FrameRef, ∀ value ∈ (frames[ref.index]?.getD default).bindings.values,
      w.store.Has value) :
    ∃ w' : History start, w ≤ w' ∧ w'.store = { w.store with frames } := by
  have hstep : w.store.Step { w.store with frames } := .aside rfl rfl rfl rfl
  exact ⟨w.extend hstep (fun ref value hvalue => (hbindings ref value hvalue).later hstep.grows)
    w.functions, le_extend, rfl⟩

/-- A history goes on when bindings are changed to values that it has. -/
theorem exists_changeBindings {ref : FrameRef} {change : Bindings Value → Bindings Value}
    (hchange : ∀ value ∈ (change (w.store.frame ref).bindings).values, w.store.Has value) :
    ∃ w' : History start, w ≤ w' ∧ w'.store = w.store.changeBindings ref change :=
  exists_frames (Store.forall_values_changeBindings w.bindings hchange)

/-- A history goes on when a name is bound to a value that it has. -/
theorem exists_define (ref : FrameRef) (name : String) {value : Value} (hvalue : w.store.Has value) :
    ∃ w' : History start, w ≤ w' ∧ w'.store = w.store.define ref name value :=
  exists_changeBindings (Bindings.forall_values_put (w.bindings ref) hvalue)

/-- A history goes on when a frame is made around values that it has. -/
theorem exists_enter (ref : FrameRef) {bindings : Bindings Value}
    (hbindings : ∀ value ∈ bindings.values, w.store.Has value) :
    ∃ w' : History start, w ≤ w' ∧ w'.store = (w.store.enter ref bindings).2 := by
  refine exists_frames fun other value hvalue => ?_
  rw [Array.getElem?_push] at hvalue
  split at hvalue
  · exact hbindings value hvalue
  · exact w.bindings other value hvalue

/-- A history goes on when an empty frame is made. -/
theorem exists_enter_empty (ref : FrameRef) :
    ∃ w' : History start, w ≤ w' ∧ w'.store = (w.store.enter ref Bindings.empty).2 :=
  exists_enter ref fun _ hvalue => absurd hvalue List.not_mem_nil

/-- A history goes on when a module is loaded or its loading begins or ends. -/
theorem exists_changeRegistry (ref : FrameRef) (change : Registry → Registry) :
    ∃ w' : History start, w ≤ w' ∧ w'.store = w.store.changeRegistry ref change := by
  refine exists_frames fun other value hvalue => ?_
  have hvalue : value ∈ ((w.store.changeRegistry ref change).frame other).bindings.values := hvalue
  rw [Store.bindings_changeRegistry] at hvalue
  exact w.bindings other value hvalue

/-- A history goes on when a function is made that is not of the host. -/
theorem exists_function (function : Function) (hfunction : ∀ host, function ≠ .host host) :
    ∃ w' : History start, w ≤ w' ∧ w'.store = (w.store.placeFunction function).2 := by
  have hstep : w.store.Step (w.store.placeFunction function).2 := .aside rfl rfl rfl rfl
  refine ⟨w.extend hstep (fun ref value hvalue => (w.bindings ref value hvalue).later hstep.grows)
    fun ref host => ?_, le_extend, rfl⟩
  simp only [Store.function, Store.placeFunction, Array.getElem?_push]
  split
  · exact hfunction host
  · exact w.functions ref host

/-- A history has what its names are bound to. -/
theorem has_of_lookup? {ref : FrameRef} {name : String} {value : Value}
    (h : w.store.lookup? ref name = some value) : w.store.Has value := by
  obtain ⟨around, _, hvalue⟩ := List.exists_of_findSome?_eq_some h
  exact w.bindings around value (Bindings.mem_values_of_get? hvalue)

end History

/-- The realm of everything that scripts do. -/
def history (start : Store) : Realm where
  World := History start
  store := History.store
  keeps w container := container ∈ w.store.containers
  calls _ _ := True
  runs _ function := ∀ host, function ≠ .host host
  permits _ _ _ _ := True
  allows _ _ _ := True
  gathers _ _ _ := True
  awaits _ _ _ _ := True
  misses _ := True
  passes := History.Passes
  passes_later := fun hle ⟨way, hway, hmoment⟩ => ⟨way, hway.trans hle, hmoment⟩

namespace history

variable {start : Store} {w w' : (history start).World}

/-- To have a value is, here, that it exists in the store that the history has come to. -/
theorem has_iff {value : Value} : (history start).has w value ↔ w.store.Has value := by
  cases value with
  | list ref | set ref | map ref | object ref =>
    exact ⟨fun h inner hinner => by cases hinner; exact h, fun h => h _ rfl⟩
  | _ => exact ⟨fun _ _ => nofun, fun _ => trivial⟩

/-- Values that a history has exist in its store. -/
theorem all_have {values : List Value} (h : ∀ value ∈ values, (history start).has w value) :
    ∀ value ∈ values, w.store.Has value :=
  fun value hvalue => has_iff.mp (h value hvalue)

/-- What a history has it has when it goes on. -/
theorem has_later {value : Value} (hle : w ≤ w') (h : (history start).has w value) :
    (history start).has w' value :=
  has_iff.mpr ((has_iff.mp h).later (History.containers_subset hle))

/-- Nothing is asked of what is called or loaded. -/
theorem opens : (history start).Opens fun _ _ => True where
  knows_later _ _ _ _ _ := trivial
  fails_later := by
    intro w w' failure hle hfails
    match failure with
    | .diagnosed { cause := .raised _ _, .. } => exact has_later hle hfails
    | .diagnosed { cause := .runtime _, .. } => exact fun _ _ => trivial
    | .diagnosed { cause := .fault _, .. } => trivial
    | .unreadable _ => trivial
  knows_loaded _ _ := trivial
  has_bound {w inner} _ value hvalue := has_iff.mpr (w.bindings inner value hvalue)
  marks w root _ := w.exists_changeRegistry root _
  keepsModule {w _} root _ _ := w.exists_changeRegistry root _
  enters {w root} _ :=
    have ⟨w', hle, hstore⟩ := w.exists_enter_empty root
    ⟨w', hle, hstore, trivial, fun _ => trivial⟩

/-- Evaluation goes on step by step, as a history does. -/
theorem lawful : (history start).Lawful where
  keeps_later hle h := History.containers_subset hle h
  calls_later _ _ := trivial
  runs_later _ h := h
  permits_later _ _ := trivial
  allows_later _ _ := trivial
  gathers_later _ _ := trivial
  awaits_later _ _ := trivial
  has_part {w container} _ part hpart := has_iff.mpr (w.whole container part hpart)
  runs_function {w ref} _ := w.functions ref
  allows_part _ _ _ := trivial
  permits_use _ _ _ _ := trivial
  permits_import _ _ := trivial
  has_peeked _ hvalue := has_iff.mpr (History.has_of_lookup? hvalue)
  has_looked _ hvalue := has_iff.mpr (History.has_of_lookup? hvalue)
  misses_looked _ _ := trivial
  assigns _ hvalue _ := History.exists_define _ _ (has_iff.mp hvalue)
  misses_assigned _ _ := trivial
  defines _ hvalue := History.exists_define _ _ (has_iff.mp hvalue)
  removes {w ref name} _ := w.exists_changeBindings fun value hvalue => by
    obtain ⟨entry, hentry, rfl⟩ := List.mem_map.mp hvalue
    exact w.bindings ref entry.2 (List.mem_map_of_mem (List.mem_of_mem_filter hentry))
  aside {w after} hsame := w.exists_step (.aside hsame.lists hsame.sets hsame.maps hsame.objects)
    hsame.frames hsame.functions
  places {w fresh} hparts := by
    have hstep : w.store.Step (w.store.place fresh).2 := .place fresh (all_have hparts) rfl
    obtain ⟨w', hle, hstore⟩ := w.exists_step hstep (by cases fresh <;> rfl) (by cases fresh <;> rfl)
    refine ⟨w', hle, hstore, has_iff.mpr ?_⟩
    rw [hstore]
    exact Store.has_place (all_have hparts)
  alters {w after container added} _ hadded halters :=
    w.exists_step (.alter container added (all_have hadded) halters) halters.frames halters.functions
  makes {w position definition frame} _ :=
    have ⟨w', hle, hstore⟩ := w.exists_function (.lambda definition frame) nofun
    ⟨w', hle, hstore, trivial⟩
  enters_gathering {w _ _ frame} _ :=
    have ⟨w', hle, hstore⟩ := w.exists_enter_empty frame
    ⟨w', hle, hstore, trivial⟩
  binds_item _ hitem :=
    have ⟨w', hle, hstore⟩ := History.exists_define _ _ (has_iff.mp hitem)
    ⟨w', hle, hstore, fun _ _ => trivial⟩
  enters_call {w _ made _} _ hbindings _ _ :=
    have ⟨w', hle, hstore⟩ := w.exists_enter made (all_have hbindings)
    ⟨w', hle, hstore, trivial⟩
  awaits_bound _ _ := trivial
  allows_fallback _ _ := trivial
  binds_fallback _ hvalue :=
    have ⟨w', hle, hstore⟩ := History.exists_define _ _ (has_iff.mp hvalue)
    ⟨w', hle, hstore, trivial⟩
  allows_body _ := trivial
  enters_eval {w frame} _ _ :=
    have ⟨w', hle, hstore⟩ := w.exists_enter_empty frame
    ⟨w', hle, hstore, fun _ => trivial⟩
  hosts _ hruns := absurd rfl (hruns _)
  modules {_} [_] {_} he {_ _ _ _ _} specifier position _ := opens.promises_names he trivial _ _ position

end history

/-- **What a run has come to**, up to a cut, and on the way there what the runs that are cut before end
with. -/
theorem History.exists_until {start : Store} (w : History start) (node : Node) (frame : FrameRef)
    (position : Position) (cut : Cut) (bound : Nat) :
    ∃ w' : History start,
      w'.store = endOf (finish position ((evaluatorUntil cut bound).node node frame) w.store) ∧
        ∀ earlier, cut ≤ earlier →
          w'.Passes (endOf (finish position ((evaluatorUntil earlier bound).node node frame) w.store)) := by
  let runs : Inhabited { earlier : Cut // cut ≤ earlier } := ⟨⟨cut, le_rfl⟩⟩
  have hlawful : (history start).Lawful := history.lawful
  have hkept := hlawful.kept_until (fun _ => id)
    (fun earlier : { earlier : Cut // cut ≤ earlier } => earlier.1)
    (fun {w _ _} _ earlier => ⟨earlier.2 _ _ _, fun _ => .inr w.passes_store⟩) bound
  have hallows : (history start).allows w node frame := trivial
  obtain ⟨w', -, hends, hall⟩ := Realm.promises_finish position (hkept.node hallows)
  have hend : w'.store = endOf (finish position ((evaluatorUntil cut bound).node node frame) w.store) :=
    hends.store
  refine ⟨w', hend, fun earlier hle => ?_⟩
  rcases hall ⟨earlier, hle⟩ with hsame | ⟨moment, hpassed, hcut⟩
  · have hsame : finish position ((evaluatorUntil earlier bound).node node frame) w.store =
        finish position ((evaluatorUntil cut bound).node node frame) w.store := hsame
    rw [hsame, ← hend]
    exact w'.passes_store
  · have hcut : finish position ((evaluatorUntil earlier bound).node node frame) w.store =
        .error .exhausted moment := hcut
    rw [hcut]
    exact hpassed

/-! ## Sessions -/

namespace Session

variable {file : String} {resolve : String → Resolution} {input : List InputLine}
  {now : Calendar.Moment} {session : Session}

/-- A session to which the evaluation of scripts leads, one after the other. -/
def Scripted (first session : Session) : Prop :=
  Relation.ReflTransGen (fun session next => ∃ script, next = (session.evalNode script).2) first session

/-- The history that begins with a session. -/
def beginning (file : String) (resolve : String → Resolution) (input : List InputLine)
    (now : Calendar.Moment) : History (start file resolve input now).store where
  store := (start file resolve input now).store
  course := []
  steps := .singleton _
  last := rfl
  whole container value hvalue := by
    rw [parts_start] at hvalue
    cases hvalue
  bindings ref value hvalue inner hinner := by
    by_cases href : ref = ⟨0⟩
    · rw [href, bindings_base] at hvalue
      rw [container?_baseBindings hvalue] at hinner
      cases hinner
    · rw [bindings_others file resolve input now href] at hvalue
      cases hvalue
  functions ref host := by
    have hbuiltins : (start file resolve input now).store.functions =
      (Builtin.all.map Function.builtin).toArray := rfl
    obtain ⟨b, hb⟩ := function_of_builtins hbuiltins ref
    rw [hb]
    nofun

/-- What the run of a script has come to, up to a cut, belongs to the history of its session, and on the way
there it has come to what the runs that are cut before end with. -/
theorem exists_history {first : Store} (w : History first) (hstore : w.store = session.store)
    (script : Node) (cut : Cut) :
    ∃ w' : History first, w'.store = endOf (session.runUntil script cut) ∧
      ∀ earlier, cut ≤ earlier → w'.Passes (endOf (session.runUntil script earlier)) := by
  simp only [runUntil, ← hstore]
  exact w.exists_until script session.user script.position cut evaluationBound

/-- So do sessions to which scripts lead. -/
theorem Scripted.exists_history (h : (start file resolve input now).Scripted session) :
    ∃ w : History (start file resolve input now).store, w.store = session.store := by
  induction h with
  | refl => exact ⟨beginning file resolve input now, rfl⟩
  | tail _ hnext ih =>
    obtain ⟨script, rfl⟩ := hnext
    obtain ⟨w, hstore⟩ := ih
    obtain ⟨w', hend, -⟩ := Session.exists_history w hstore script ⊥
    exact ⟨w', by rw [hend, evalNode_snd]⟩

/-- There are no keys in the beginning. -/
theorem not_selfKeyed_start : ¬ (start file resolve input now).store.SelfKeyed := by
  rintro ⟨holder, key, hkey, -⟩
  have hheld := Store.keyContainers_subset _ holder hkey
  rw [Store.containersIn, parts_start] at hheld
  cases hheld

/-- **All keys are guarded.** At every moment of a session the store has come by steps from the beginning
of it, with all the stores that the run has come to before it on the way, and none of the steps led to a
container among its own keys unless something that is not a key was stored in a container that a key of a
holder reaches, and it reached the holder. -/
theorem selfKeyed_only_closed (h : (start file resolve input now).Scripted session) (script : Node)
    (cut : Cut) :
    ∃ course : List Store,
      ((start file resolve input now).store :: course).IsChain Store.Step ∧
        ((start file resolve input now).store :: course).getLast (List.cons_ne_nil _ _) =
          endOf (session.runUntil script cut) ∧
        (∀ earlier, cut ≤ earlier → ∃ way, way <+: course ∧
          ((start file resolve input now).store :: way).getLast (List.cons_ne_nil _ _) =
            endOf (session.runUntil script earlier)) ∧
        ((∀ moment ∈ (start file resolve input now).store :: course, ¬ moment.SelfKeyed) ↔
          ((start file resolve input now).store :: course).IsChain
            fun before after => ¬ before.Closes after) := by
  obtain ⟨w, hstore⟩ := h.exists_history
  obtain ⟨w', hend, hpasses⟩ := exists_history w hstore script cut
  exact ⟨w'.course, w'.steps, w'.last.trans hend, hpasses,
    Store.selfKeyed_course_iff (beginning file resolve input now).whole not_selfKeyed_start w'.steps⟩

end Session

/-- The script that makes a list an element of a set and then the set an item of the list. -/
def closingScript : Node :=
  match Source.readScript "main" "def l = []; def s = <<l>>; append(l, s)" with
  | .ok script => script
  | .error _ => default

/-- In the end the set can be reached from its own element. -/
theorem selfKeyed_closing : (plainSession.evalNode closingScript).2.store.SelfKeyed := by
  refine ⟨.set ⟨0⟩, .list ⟨0⟩, ?_, .single ?_⟩
  · have hkeys : ((plainSession.evalNode closingScript).2.store.keyContainers (.set ⟨0⟩)).contains
        (.list ⟨0⟩) = true := by decide +kernel
    exact List.contains_iff_mem.mp hkeys
  · have hitems : ((plainSession.evalNode closingScript).2.store.containersIn (.list ⟨0⟩)).contains
        (.set ⟨0⟩) = true := by decide +kernel
    exact List.contains_iff_mem.mp hitems

/-- On the way there a step closes it. -/
theorem selfKeyed_only_closed_closing :
    plainSession.Scripted plainSession ∧ ∃ course : List Store,
      (plainSession.store :: course).IsChain Store.Step ∧
        ¬ (plainSession.store :: course).IsChain fun before after => ¬ before.Closes after := by
  have hlife : plainSession.Scripted plainSession := .refl
  obtain ⟨course, hchain, hlast, -, hfree⟩ := Session.selfKeyed_only_closed hlife closingScript ⊥
  have hclosed := selfKeyed_closing
  rw [Session.evalNode_snd, ← hlast] at hclosed
  exact ⟨hlife, course, hchain, fun hopen => hfree.mpr hopen _ (List.getLast_mem _) hclosed⟩

/-- So scripts can make a container one of its own keys. -/
theorem selfKeyed_reachable :
    ∃ session, plainSession.Scripted session ∧ session.store.SelfKeyed :=
  ⟨(plainSession.evalNode closingScript).2, .single ⟨closingScript, rfl⟩, selfKeyed_closing⟩

end Ckl
