import Ckl.Proofs.Module.Registry
import Ckl.Proofs.Run.Realm
import Ckl.Proofs.Session.Start
import Mathlib.Logic.Relation
import Mathlib.Order.Nat

/-!
# What can be reached

A frame leads to the frames around it and to the values that it binds, a container to the values that it
holds, and a function to the frame in which it was made. What is reached in this way, together with
everything that is yet to be made, is a region that is closed: from inside of it nothing leads out. Whatever
is stored in a region is in the region, so it stays closed when the store changes.
-/

namespace Ckl

open Collection (Table KeySet)

/-- What can be reached: a frame, a container or a function. -/
inductive Place where
  | frame (ref : FrameRef)
  | container (container : Container)
  | function (ref : Ref .func)
  deriving DecidableEq, Repr

/-- The container or the function that a value refers to. -/
def Value.place? : Value → Option Place
  | .func ref => some (.function ref)
  | value => value.container?.map .container

/-- The place of a container value is the container. -/
theorem Value.place?_of_container? {value : Value} {container : Container}
    (h : value.container? = some container) : value.place? = some (.container container) := by
  cases value <;> cases h <;> rfl

/-- The arguments, and what is held by lists among them and by lists in these. -/
inductive HostFunction.Given (items : Ref .list → List Value) (arguments : Bindings Value) :
    Value → Prop
  | argument {value : Value} (h : value ∈ arguments.values) : Given items arguments value
  | item {ref : Ref .list} {value : Value} (h : Given items arguments (.list ref))
    (hitem : value ∈ items ref) : Given items arguments value

/-- The host has a value at hand that its function can give, or raise, without having been given it. -/
def HostFunction.Knows (host : HostFunction) (value : Value) : Prop :=
  ∃ items arguments position, ¬ HostFunction.Given items arguments value ∧
    (host.run items arguments position = .ok value ∨ ∃ text place trace,
      host.run items arguments position =
        .error (.diagnosed { cause := .raised value text, position := place, trace }))

namespace Store

/-- One place refers to another one. -/
inductive Leads (store : Store) : Place → Place → Prop
  | outer {ref outer : FrameRef} (h : outer ∈ (store.frame ref).outer) :
    Leads store (.frame ref) (.frame outer)
  | bound {ref : FrameRef} {value : Value} {place : Place}
    (h : value ∈ (store.frame ref).bindings.values) (hplace : value.place? = some place) :
    Leads store (.frame ref) place
  | part {container : Container} {value : Value} {place : Place} (h : value ∈ store.parts container)
    (hplace : value.place? = some place) : Leads store (.container container) place
  | made {ref : Ref .func} {definition : Source.Lambda Source.Node} {frame : FrameRef}
    (h : store.function ref = .lambda definition frame) : Leads store (.function ref) (.frame frame)
  | known {ref : Ref .func} {host : HostFunction} {value : Value} {place : Place}
    (h : store.function ref = .host host) (hknows : host.Knows value)
    (hplace : value.place? = some place) : Leads store (.function ref) place

/-- One place can be reached from another one. -/
def Reaches (store : Store) : Place → Place → Prop := Relation.ReflTransGen store.Leads

/-- Nothing is stored at the place yet. -/
def Beyond (store : Store) : Place → Prop
  | .frame ref => store.frames.size ≤ ref.index
  | .container (.list ref) => store.lists.size ≤ ref.index
  | .container (.set ref) => store.sets.size ≤ ref.index
  | .container (.map ref) => store.maps.size ≤ ref.index
  | .container (.object ref) => store.objects.size ≤ ref.index
  | .function ref => store.functions.size ≤ ref.index

variable {store after start : Store} {region : Place → Prop}

/-- Beyond the frames that were made there is the empty one. -/
theorem frame_eq_default {ref : FrameRef} (h : store.frames.size ≤ ref.index) :
    store.frame ref = default := by
  rw [frame, Array.getElem?_eq_none h, Option.getD_none]

/-- From where nothing is stored yet nothing leads anywhere. -/
theorem not_leads_of_beyond {place next : Place} (h : store.Beyond place) : ¬ store.Leads place next := by
  have hfunction : ∀ {ref : Ref .func}, store.functions.size ≤ ref.index →
      store.function ref = .builtin .type :=
    fun hge => by
      simp only [function, Array.getElem?_eq_none hge, Option.getD_none]
      rfl
  intro hleads
  cases hleads with
  | outer houter =>
    rw [frame_eq_default h] at houter
    cases houter
  | bound hbound =>
    rw [frame_eq_default h] at hbound
    cases hbound
  | @part container value place hpart =>
    have hmem := mem_containers_of_parts (List.ne_nil_of_mem hpart)
    simp only [containers, List.mem_append, List.mem_map, List.mem_range] at hmem
    rcases hmem with ⟨index, hlt, rfl⟩ | ⟨index, hlt, rfl⟩ | ⟨index, hlt, rfl⟩ | ⟨index, hlt, rfl⟩ <;>
      exact absurd hlt (Nat.not_lt.mpr h)
  | made hmade =>
    rw [hfunction h] at hmade
    cases hmade
  | known hknown =>
    rw [hfunction h] at hknown
    cases hknown

/-! ## Regions -/

/-- The value refers to nothing outside of the region. -/
def Among (region : Place → Prop) (value : Value) : Prop :=
  ∀ place, value.place? = some place → region place

/-- What can be reached from some frames, and everything that is yet to be made. -/
def regionOf (start : Store) (roots : FrameRef → Prop) (place : Place) : Prop :=
  start.Beyond place ∨ ∃ root, roots root ∧ start.Reaches (.frame root) place

/-- The store has come out of an earlier one, and nothing leads out of the region. -/
structure Confined (start : Store) (region : Place → Prop) (store : Store) : Prop where
  frames : start.frames.size ≤ store.frames.size
  functions : start.functions.size ≤ store.functions.size
  lists : start.lists.size ≤ store.lists.size
  sets : start.sets.size ≤ store.sets.size
  maps : start.maps.size ≤ store.maps.size
  objects : start.objects.size ≤ store.objects.size
  closed : ∀ {place next}, region place → store.Leads place next → region next

/-- In the beginning a region is closed by its definition. -/
theorem confined_regionOf (start : Store) (roots : FrameRef → Prop) :
    start.Confined (start.regionOf roots) start where
  frames := le_rfl
  functions := le_rfl
  lists := le_rfl
  sets := le_rfl
  maps := le_rfl
  objects := le_rfl
  closed := by
    rintro place next (hbeyond | ⟨root, hroot, hreaches⟩) hleads
    · exact absurd hleads (not_leads_of_beyond hbeyond)
    · exact .inr ⟨root, hroot, hreaches.tail hleads⟩

namespace Confined

variable (h : start.Confined region store)

include h

/-! ## What is in a region -/

/-- The frames around a frame of the region are in the region. -/
theorem outer {ref : FrameRef} (href : region (.frame ref)) :
    ∀ outer ∈ (store.frame ref).outer, region (.frame outer) :=
  fun _ houter => h.closed href (.outer houter)

/-- What a frame of the region binds is in the region. -/
theorem bound {ref : FrameRef} (href : region (.frame ref)) :
    ∀ value ∈ (store.frame ref).bindings.values, Among region value :=
  fun _ hvalue _ hplace => h.closed href (.bound hvalue hplace)

/-- What a container of the region holds is in the region. -/
theorem part {container : Container} (hcontainer : region (.container container)) :
    ∀ value ∈ store.parts container, Among region value :=
  fun _ hvalue _ hplace => h.closed hcontainer (.part hvalue hplace)

/-- The whole chain of a frame of the region is in the region. -/
theorem chain {ref : FrameRef} (href : region (.frame ref)) :
    ∀ around ∈ store.chain ref, region (.frame around) :=
  List.forall_mem_cons.mpr ⟨href, h.outer href⟩

/-- The value of a name, looked up from within, is in the region. -/
theorem lookup? {ref : FrameRef} (href : region (.frame ref)) {name : String} {value : Value}
    (hvalue : store.lookup? ref name = some value) : Among region value := by
  obtain ⟨around, haround, hvalue⟩ := List.exists_of_findSome?_eq_some hvalue
  exact h.bound (h.chain href around haround) value (Bindings.mem_values_of_get? hvalue)

/-- The frame that owns a name, looked up from within, is in the region. -/
theorem owner? {ref owner : FrameRef} (href : region (.frame ref)) {name : String}
    (howner : store.owner? ref name = some owner) : region (.frame owner) :=
  h.chain href owner (List.mem_of_find?_eq_some howner)

/-- The root of a frame of the region is in the region. -/
theorem root {ref : FrameRef} (href : region (.frame ref)) : region (.frame (store.root ref)) := by
  unfold Store.root
  cases hlast : (store.frame ref).outer.getLast? with
  | none => exact href
  | some last => exact h.outer href last (List.mem_of_getLast? hlast)

/-- A value that is given to a host or known to it is in the region. -/
theorem given {arguments : Bindings Value} (harguments : ∀ value ∈ arguments.values, Among region value)
    {value : Value}
    (hgiven : HostFunction.Given (fun ref => (store.items ref).toList) arguments value) :
    Among region value := by
  induction hgiven with
  | argument hvalue => exact harguments _ hvalue
  | @item ref value _ hitem ih =>
    have hlist : region (.container (.list ref)) := ih _ rfl
    exact h.part hlist value hitem

/-! ## Changes of the store -/

/-- Nothing but the references of places in the region counts. -/
theorem of_leads (hframes : store.frames.size ≤ after.frames.size)
    (hfunctions : store.functions.size ≤ after.functions.size)
    (hlists : store.lists.size ≤ after.lists.size) (hsets : store.sets.size ≤ after.sets.size)
    (hmaps : store.maps.size ≤ after.maps.size) (hobjects : store.objects.size ≤ after.objects.size)
    (hclosed : ∀ {place next}, region place → after.Leads place next → region next) :
    start.Confined region after where
  frames := h.frames.trans hframes
  functions := h.functions.trans hfunctions
  lists := h.lists.trans hlists
  sets := h.sets.trans hsets
  maps := h.maps.trans hmaps
  objects := h.objects.trans hobjects
  closed := hclosed

/-- What frames lead to is all that may have changed. -/
theorem of_frames {frames : Array Frame} (hsize : store.frames.size ≤ frames.size)
    (houter : ∀ ref, region (.frame ref) → ∀ outer ∈ (frames[ref.index]?.getD default).outer,
      region (.frame outer))
    (hbound : ∀ ref, region (.frame ref) → ∀ value ∈ (frames[ref.index]?.getD default).bindings.values,
      Among region value) : start.Confined region { store with frames } := by
  refine h.of_leads hsize le_rfl le_rfl le_rfl le_rfl le_rfl fun {place next} hplace hleads => ?_
  cases hleads with
  | outer hmem => exact houter _ hplace _ hmem
  | bound hmem hvalue => exact hbound _ hplace _ hmem _ hvalue
  | @part container value _ hmem hvalue =>
    exact h.closed hplace (.part (show value ∈ store.parts container by cases container <;> exact hmem)
      hvalue)
  | made hmade => exact h.closed hplace (.made hmade)
  | known hhost hknows hvalue => exact h.closed hplace (.known hhost hknows hvalue)

/-- Bindings may be changed within the region to values of the region. -/
theorem changeBindings {ref : FrameRef} {change : Bindings Value → Bindings Value}
    (hchange : region (.frame ref) → ∀ value ∈ (change (store.frame ref).bindings).values,
      Among region value) : start.Confined region (store.changeBindings ref change) := by
  have hframe : ∀ other, region (.frame other) →
      (((store.changeBindings ref change).frame other).outer = (store.frame other).outer) ∧
        ∀ value ∈ ((store.changeBindings ref change).frame other).bindings.values,
          Among region value := by
    intro other hother
    by_cases heq : other = ref
    · subst heq
      by_cases hlt : other.index < store.frames.size
      · rw [frame_changeBindings hlt]
        exact ⟨rfl, hchange hother⟩
      · have hge : (store.changeBindings other change).frames.size ≤ other.index := by
          simpa using hlt
        rw [frame_eq_default hge, frame_eq_default (Nat.not_lt.mp hlt)]
        exact ⟨rfl, nofun⟩
    · rw [frame_changeBindings_of_ne heq]
      exact ⟨rfl, h.bound hother⟩
  refine h.of_frames (by simp) (fun other hother outer hmem => ?_) fun other hother value hmem => ?_
  · have hmem : outer ∈ ((store.changeBindings ref change).frame other).outer := hmem
    rw [(hframe other hother).1] at hmem
    exact h.outer hother outer hmem
  · exact (hframe other hother).2 value hmem

/-- A value of the region may be defined in any frame. -/
theorem define {ref : FrameRef} {name : String} {value : Value} (hvalue : Among region value) :
    start.Confined region (store.define ref name value) :=
  h.changeBindings fun href => Bindings.forall_values_put (h.bound href) hvalue

/-- A name may be undefined in any frame. -/
theorem undefine {ref : FrameRef} (name : String) : start.Confined region (store.undefine ref name) :=
  h.changeBindings fun href value hvalue => by
    obtain ⟨entry, hentry, rfl⟩ := List.mem_map.mp hvalue
    exact h.bound href entry.2 (List.mem_map_of_mem (List.mem_of_mem_filter hentry))

/-- A frame made around values of the region belongs to it. -/
theorem enter {ref : FrameRef} (href : region (.frame ref)) {bindings : Bindings Value}
    (hbindings : ∀ value ∈ bindings.values, Among region value) :
    start.Confined region (store.enter ref bindings).2 := by
  have hframe : ∀ other, ((store.enter ref bindings).2.frame other) = store.frame other ∨
      (store.enter ref bindings).2.frame other = { outer := store.chain ref, bindings } := by
    intro other
    simp only [Store.frame, Store.enter, placeFrame, Array.getElem?_push]
    split
    · exact .inr rfl
    · exact .inl rfl
  refine h.of_frames (by simp) (fun other hother outer hmem => ?_) fun other hother value hmem => ?_
  · have hmem : outer ∈ ((store.enter ref bindings).2.frame other).outer := hmem
    rcases hframe other with heq | heq <;> rw [heq] at hmem
    · exact h.outer hother outer hmem
    · exact h.chain href outer hmem
  · have hmem : value ∈ ((store.enter ref bindings).2.frame other).bindings.values := hmem
    rcases hframe other with heq | heq <;> rw [heq] at hmem
    · exact h.bound hother value hmem
    · exact hbindings value hmem

/-- What is known of modules leads nowhere. -/
theorem changeRegistry (ref : FrameRef) (change : Registry → Registry) :
    start.Confined region (store.changeRegistry ref change) := by
  have houter : ∀ other, ((store.changeRegistry ref change).frame other).outer =
      (store.frame other).outer := by
    intro other
    simp only [Store.frame, Store.changeRegistry, Array.getElem?_modify]
    split
    · cases store.frames[other.index]? <;> rfl
    · rfl
  refine h.of_frames (by simp) (fun other hother outer hmem => ?_) fun other hother value hmem => ?_
  · have hmem : outer ∈ ((store.changeRegistry ref change).frame other).outer := hmem
    rw [houter] at hmem
    exact h.outer hother outer hmem
  · have hmem : value ∈ ((store.changeRegistry ref change).frame other).bindings.values := hmem
    rw [bindings_changeRegistry] at hmem
    exact h.bound hother value hmem

/-- A store with the same contents is confined alike. -/
theorem aside (hsame : store.SameContents after) : start.Confined region after := by
  refine h.of_leads (by rw [hsame.frames]) (by rw [hsame.functions]) (by rw [hsame.lists])
    (by rw [hsame.sets]) (by rw [hsame.maps]) (by rw [hsame.objects])
    fun {place next} hplace hleads => h.closed hplace ?_
  cases hleads with
  | outer hmem => exact .outer (by rwa [frame_of_frames hsame.frames] at hmem)
  | bound hmem hvalue => exact .bound (by rwa [frame_of_frames hsame.frames] at hmem) hvalue
  | part hmem hvalue => exact .part (by rwa [hsame.parts] at hmem) hvalue
  | made hmade => exact .made (by simpa only [function, hsame.functions] using hmade)
  | known hhost hknows hvalue =>
    exact .known (by simpa only [function, hsame.functions] using hhost) hknows hvalue

/-- Containers may be given values of the region. -/
theorem alters {container : Container} {added : List Value} (hadded : ∀ value ∈ added, Among region value)
    (halters : store.Alters after container added) : start.Confined region after := by
  refine h.of_leads (by rw [halters.frames]) (by rw [halters.functions]) (by rw [halters.lists])
    (by rw [halters.sets]) (by rw [halters.maps]) (by rw [halters.objects])
    fun {place next} hplace hleads => ?_
  cases hleads with
  | outer hmem => exact h.closed hplace (.outer (by rwa [frame_of_frames halters.frames] at hmem))
  | bound hmem hvalue =>
    exact h.closed hplace (.bound (by rwa [frame_of_frames halters.frames] at hmem) hvalue)
  | @part other value _ hmem hvalue =>
    by_cases heq : other = container
    · subst heq
      rcases halters.parts value hmem with hold | hnew
      · exact h.closed hplace (.part hold hvalue)
      · exact hadded value hnew _ hvalue
    · rw [(halters.others other heq).1] at hmem
      exact h.closed hplace (.part hmem hvalue)
  | made hmade =>
    exact h.closed hplace (.made (by simpa only [function, halters.functions] using hmade))
  | known hhost hknows hvalue =>
    exact h.closed hplace
      (.known (by simpa only [function, halters.functions] using hhost) hknows hvalue)

/-- A function made in a frame of the region belongs to it. -/
theorem placeFunction {definition : Source.Lambda Source.Node} {made : FrameRef}
    (hmade : region (.frame made)) :
    start.Confined region (store.placeFunction (.lambda definition made)).2 := by
  have hfunction : ∀ ref, (store.placeFunction (.lambda definition made)).2.function ref =
      store.function ref ∨
        (store.placeFunction (.lambda definition made)).2.function ref = .lambda definition made := by
    intro ref
    simp only [Store.function, Store.placeFunction, Array.getElem?_push]
    split
    · exact .inr rfl
    · exact .inl rfl
  refine h.of_leads le_rfl (by simp [Store.placeFunction]) le_rfl le_rfl le_rfl le_rfl
    fun {place next} hplace hleads => ?_
  cases hleads with
  | outer hmem => exact h.closed hplace (.outer hmem)
  | bound hmem hvalue => exact h.closed hplace (.bound hmem hvalue)
  | @part container value _ hmem hvalue =>
    exact h.closed hplace (.part (show value ∈ store.parts container by cases container <;> exact hmem)
      hvalue)
  | @made ref _ _ hlambda =>
    rcases hfunction ref with heq | heq <;> rw [heq] at hlambda
    · exact h.closed hplace (.made hlambda)
    · cases hlambda
      exact hmade
  | @known ref _ _ _ hhost hknows hvalue =>
    rcases hfunction ref with heq | heq <;> rw [heq] at hhost
    · exact h.closed hplace (.known hhost hknows hvalue)
    · cases hhost

end Confined

/-! ## Fresh values -/

/-- A fresh value is new, unless it is a value without storage. -/
theorem beyond_place (store : Store) (fresh : Fresh) :
    (∃ value, fresh = .value value ∧ (store.place fresh).1 = value) ∨
      ∃ container, (store.place fresh).1.container? = some container ∧
        store.Beyond (.container container) := by
  cases fresh with
  | value stored => exact .inl ⟨stored, rfl, rfl⟩
  | list => exact .inr ⟨.list ⟨store.lists.size⟩, rfl, le_rfl⟩
  | set => exact .inr ⟨.set ⟨store.sets.size⟩, rfl, le_rfl⟩
  | map => exact .inr ⟨.map ⟨store.maps.size⟩, rfl, le_rfl⟩
  | object => exact .inr ⟨.object ⟨store.objects.size⟩, rfl, le_rfl⟩

/-- Whatever is placed with parts of the region belongs to it. -/
theorem Confined.place {fresh : Fresh} (h : start.Confined region store)
    (hparts : ∀ value ∈ fresh.parts, Among region value) :
    start.Confined region (store.place fresh).2 := by
  have hsame : (store.place fresh).2.frames = store.frames ∧
      (store.place fresh).2.functions = store.functions := by cases fresh <;> exact ⟨rfl, rfl⟩
  refine h.of_leads (by rw [hsame.1]) (by rw [hsame.2]) ?_ ?_ ?_ ?_ fun {place next} hplace hleads => ?_
  case refine_1 | refine_2 | refine_3 | refine_4 =>
    cases fresh <;> simp [Store.place]
  cases hleads with
  | outer hmem => exact h.closed hplace (.outer (by rwa [frame_of_frames hsame.1] at hmem))
  | bound hmem hvalue =>
    exact h.closed hplace (.bound (by rwa [frame_of_frames hsame.1] at hmem) hvalue)
  | @part container value _ hmem hvalue =>
    rcases store.parts_place fresh container with heq | heq <;> rw [heq] at hmem
    · exact h.closed hplace (.part hmem hvalue)
    · exact hparts value hmem _ hvalue
  | made hmade => exact h.closed hplace (.made (by simpa only [function, hsame.2] using hmade))
  | known hhost hknows hvalue =>
    exact h.closed hplace (.known (by simpa only [function, hsame.2] using hhost) hknows hvalue)

/-- What is not made yet when the store is as large as this is in every region that holds what is not made
at the start. -/
theorem Confined.beyond (h : start.Confined region store)
    (hnew : ∀ place, start.Beyond place → region place) {place : Place} (hbeyond : store.Beyond place) :
    region place := by
  refine hnew place ?_
  match place, hbeyond with
  | .frame _, hge => exact h.frames.trans hge
  | .container (.list _), hge => exact h.lists.trans hge
  | .container (.set _), hge => exact h.sets.trans hge
  | .container (.map _), hge => exact h.maps.trans hge
  | .container (.object _), hge => exact h.objects.trans hge
  | .function _, hge => exact h.functions.trans hge

/-- A fresh value is in the region. -/
theorem Confined.among_place (h : start.Confined region store)
    (hnew : ∀ place, start.Beyond place → region place) {fresh : Fresh}
    (hparts : ∀ value ∈ fresh.parts, Among region value) : Among region (store.place fresh).1 := by
  intro place hplace
  rcases store.beyond_place fresh with ⟨value, rfl, hvalue⟩ | ⟨container, hcontainer, hbeyond⟩
  · rw [hvalue] at hplace
    exact hparts value (List.mem_singleton.mpr rfl) place hplace
  · cases (Value.place?_of_container? hcontainer).symm.trans hplace
    exact h.beyond hnew hbeyond

end Store

/-- From the frame of the built-in functions, as a session begins with it, only these are reached. -/
theorem Session.reaches_base {store : Store} (houter : (store.frame ⟨0⟩).outer = [])
    (hbase : (store.frame ⟨0⟩).bindings = baseBindings)
    (hfunctions : store.functions = (Builtin.all.map Function.builtin).toArray) {place : Place}
    (h : store.Reaches (.frame ⟨0⟩) place) : place = .frame ⟨0⟩ ∨ ∃ ref, place = .function ref := by
  induction h with
  | refl => exact .inl rfl
  | tail _ hleads ih =>
    rcases ih with rfl | ⟨ref, rfl⟩
    · cases hleads with
      | outer hmem =>
        rw [houter] at hmem
        cases hmem
      | @bound _ value _ hvalue hplace =>
        rw [hbase] at hvalue
        have hnone := container?_baseBindings hvalue
        cases value with
        | list | set | map | object => cases hnone
        | func ref => exact .inr ⟨ref, (Option.some.inj hplace).symm⟩
        | _ => cases hplace
    · obtain ⟨b, hfunction⟩ := function_of_builtins hfunctions ref
      cases hleads with
      | made hmade =>
        rw [hfunction] at hmade
        cases hmade
      | known hknown =>
        rw [hfunction] at hknown
        cases hknown

/-- The values that work comes across, for a realm within a region. -/
theorem Realm.has_iff_among {r : Realm} {w : r.World} {region : Place → Prop}
    (hkeeps : ∀ container, r.keeps w container ↔ region (.container container))
    (hcalls : ∀ ref, r.calls w ref ↔ region (.function ref)) (value : Value) :
    r.has w value ↔ Store.Among region value := by
  have hplace : ∀ place, (∀ other, some place = some other → region other) ↔ region place :=
    fun place => ⟨fun h => h place rfl, fun h other heq => Option.some.inj heq ▸ h⟩
  cases value with
  | list | set | map | object => exact (hkeeps _).trans (hplace _).symm
  | func => exact (hcalls _).trans (hplace _).symm
  | _ => exact ⟨fun _ _ => nofun, fun _ => trivial⟩

end Ckl
