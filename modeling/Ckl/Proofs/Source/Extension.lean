import Ckl.Proofs.Source.Place
import Ckl.Proofs.Source.Reading
import Ckl.Source.Sugar
import Mathlib.Data.List.Infix

/-!
# Texts that go on

A text is read, and so is a longer one that begins with the same tokens, perhaps at other places. What the
two readings have to do with each other is the same for all steps of the grammar, and `Outcome` says it:
unless the shorter text ends too soon, both succeed alike or both fail, with one exception. Some phrases
are recognized by several words, and where the text ends between these words the first of them is taken
for something else. `openings` are the words that can stand at the end of the text then.

`Continues` says that a step has such an outcome on all tokens up to a number. It holds of two steps one
after the other if it holds of each, and of the steps that look at one token.
-/

namespace Ckl.Source

open Reading

/-! ## Moving places -/

/-- What holds places, all of which can be moved. -/
class Placed (α : Type) where
  /-- The same with all places moved. -/
  relocate : (Position → Position) → α → α

section Placed

variable {α β ν : Type} [Placed α] [Placed β] [Placed ν]

instance : Placed Position := ⟨fun move => move⟩
instance : Placed Node := ⟨Node.relocate⟩
instance : Placed Token := ⟨fun move token => { token with position := move token.position }⟩
instance : Placed Link :=
  ⟨fun move link => ⟨link.function, move link.position, link.right.relocate move⟩⟩
instance : Placed Unit := ⟨fun _ a => a⟩
instance : Placed Bool := ⟨fun _ a => a⟩
instance : Placed String := ⟨fun _ a => a⟩
instance : Placed ImportStyle := ⟨fun _ a => a⟩
instance : Placed (List α) := ⟨fun move => List.map (Placed.relocate move)⟩
instance : Placed (Option α) := ⟨fun move => Option.map (Placed.relocate move)⟩
instance : Placed (α × β) := ⟨fun move a => (Placed.relocate move a.1, Placed.relocate move a.2)⟩
instance : Placed (Argument ν) := ⟨fun move a => { a with value := Placed.relocate move a.value }⟩
instance : Placed (Member ν) := ⟨fun move a => { a with value := Placed.relocate move a.value }⟩
instance : Placed (Parameter ν) := ⟨fun move a => { a with fallback := Placed.relocate move a.fallback }⟩
instance : Placed (Branch ν) :=
  ⟨fun move a => ⟨Placed.relocate move a.condition, Placed.relocate move a.body⟩⟩
instance : Placed (Handler ν) :=
  ⟨fun move a => ⟨Placed.relocate move a.filter, Placed.relocate move a.body⟩⟩
instance : Placed (MapItem ν) where
  relocate move
    | .entry key value => .entry (Placed.relocate move key) (Placed.relocate move value)
    | .spread inner => .spread (Placed.relocate move inner)

end Placed

/-! ## Two texts -/

/-- A text and a longer one that begins with the same tokens at places of its own. -/
structure Extension where
  /-- The places in the longer text. -/
  move : Position → Position
  /-- The tokens behind those of the shorter text. -/
  more : List Token
  /-- The end of the shorter text. -/
  finish : Position
  /-- The end of the longer text. -/
  finish' : Position

namespace Extension

variable (texts : Extension)

/-- What is left of the shorter text. -/
def short (front : List Token) : Tokens := ⟨front, texts.finish⟩

/-- What is left of the longer text where `front` is left of the shorter one. -/
def long (front : List Token) : Tokens :=
  ⟨front.map (Placed.relocate texts.move) ++ texts.more, texts.finish'⟩

/-- A text and one that goes on behind it. -/
def inPlace (finish : Position) (more : List Token) (finish' : Position) : Extension :=
  ⟨id, more, finish, finish'⟩

/-- A text that goes on in its place has the same tokens, and more behind them. -/
theorem long_inPlace (finish : Position) (more : List Token) (finish' : Position) (front : List Token) :
    (inPlace finish more finish').long front = ⟨front ++ more, finish'⟩ :=
  congrArg (fun tokens => (⟨tokens ++ more, finish'⟩ : Tokens)) (List.map_id front)

/-- The longer text goes on with something that can belong to the same statement. -/
def Open : Prop := ∃ lexeme, upNext texts.more = some lexeme ∧ lexeme ≠ .symbol .semicolon

/-- The longer text goes on. -/
def Longer : Prop := texts.more ≠ []

variable {texts}

/-- If a token comes up behind the end, the text is longer. -/
theorem longer_of_next {lexeme : Lexeme} (h : upNext texts.more = some lexeme) : texts.Longer := by
  intro hmore
  rw [hmore] at h
  cases h

/-- An open end is followed by something. -/
theorem Open.longer (h : texts.Open) : texts.Longer := by
  obtain ⟨lexeme, hnext, _⟩ := h
  exact longer_of_next hnext

/-- A token that ends no statement keeps the end open. -/
theorem opens {lexeme : Lexeme} (h : lexeme ≠ .symbol .semicolon)
    (hnext : upNext texts.more = some lexeme) : texts.Open := ⟨lexeme, hnext, h⟩

end Extension

/-! ## Phrases that have begun -/

/-- The words that begin a phrase of several words, as far as they can stand at the end of a text. -/
def openings : List (List Lexeme) :=
  [[.keyword .is], [.keyword .is, .keyword .not], [.keyword .not], [.name "starts"], [.name "ends"],
    [.keyword .not, .name "starts"], [.keyword .not, .name "ends"], [.name "with"]]

/-- What is left of a text is nothing, or may be the beginning of a phrase. -/
def Pending (front : List Token) : Prop := front = [] ∨ front.map Token.lexeme ∈ openings

/-- The fault is found where a phrase begins that the end of the text cuts off. -/
def Awaits (front : List Token) (fault : Fault) : Prop :=
  ∃ token rest, token :: rest <:+ front ∧ (token :: rest).map Token.lexeme ∈ openings ∧
    fault.position = token.position

instance (front : List Token) (fault : Fault) : Decidable (Awaits front fault) :=
  decidable_of_iff (∃ rest ∈ front.tails, rest.map Token.lexeme ∈ openings ∧
      rest.head?.map Token.position = some fault.position) <| by
    constructor
    · rintro ⟨rest, hrest, hopening, hposition⟩
      cases rest with
      | nil => cases hposition
      | cons token rest =>
        exact ⟨token, rest, (List.mem_tails _ _).mp hrest, hopening, (Option.some.inj hposition).symm⟩
    · rintro ⟨token, rest, hrest, hopening, hposition⟩
      exact ⟨token :: rest, (List.mem_tails _ _).mpr hrest, hopening, congrArg some hposition.symm⟩

section Suffixes

variable {front left : List Token} {token : Token} {fault : Fault}

/-- Tokens that are left over have their places from the text they belong to. -/
theorem Pending.suffix (h : Pending front) (hleft : left <:+ front) : Pending left := by
  rcases h with rfl | h
  · exact .inl (List.suffix_nil.mp hleft)
  · have hclosed : ∀ opening ∈ openings, ∀ rest ∈ opening.tails, rest = [] ∨ rest ∈ openings := by
      decide
    rcases hclosed _ h _ ((List.mem_tails _ _).mpr (hleft.map Token.lexeme)) with hnil | hmem
    · exact .inl (List.map_eq_nil_iff.mp hnil)
    · exact .inr hmem

/-- A text waits for more if its last tokens do. -/
theorem Awaits.suffix (h : Awaits left fault) (hleft : left <:+ front) : Awaits front fault := by
  obtain ⟨token, rest, hsuffix, hopening, hposition⟩ := h
  exact ⟨token, rest, hsuffix.trans hleft, hopening, hposition⟩

/-- The lexemes that openings consist of. -/
theorem Pending.head (h : Pending (token :: left)) :
    token.lexeme ∈ [.keyword .is, .keyword .not, .name "starts", .name "ends", .name "with"] := by
  have hheads : ∀ opening ∈ openings, ∀ first ∈ opening.head?,
      first ∈ [.keyword .is, .keyword .not, .name "starts", .name "ends", .name "with"] := by decide
  rcases h with h | h
  · cases h
  · exact hheads _ h _ rfl

theorem Pending.awaits (h : Pending (token :: left)) (hposition : fault.position = token.position) :
    Awaits (token :: left) fault := by
  rcases h with h | h
  · cases h
  · exact ⟨token, left, List.suffix_rfl, h, hposition⟩

end Suffixes

/-! ## Outcomes -/

/-- The tokens are left after at least `used` ones have been taken. -/
def Leaves (used : Nat) (left front : List Token) : Prop :=
  left <:+ front ∧ left.length + used ≤ front.length

/-- A fault ends the reading. -/
theorem bind_error {α β : Type} {first : Reading α} {next : α → Reading β} {fault : Fault}
    {state : Tokens} (h : first state = .error fault) : (first >>= next) state = .error fault := by
  show (first state >>= fun p => next p.1 p.2) = _
  rw [h]
  rfl

/-- What is done after both ways of a choice is done after each of them. -/
theorem bind_branch {α β : Type} {choose : Reading Bool} {yes no : Reading α} {next : α → Reading β} :
    (choose >>= fun way => if way = true then yes >>= next else no >>= next) =
      (choose >>= fun way => if way = true then yes else no) >>= next := by
  rw [bind_assoc]
  congr 1
  funext way
  cases way <;> rfl

/-- What a step does on the shorter and on the longer text. -/
inductive Outcome {α : Type} [Placed α] (texts : Extension) (loose : Prop) (used : Nat)
    (front : List Token) (found found' : Except Fault (α × Tokens)) : Prop where
  /-- Both find the same. -/
  | settled (a : α) (left : List Token) (hleft : Leaves used left front)
    (h : found = .ok (a, texts.short left))
    (h' : found' = .ok (Placed.relocate texts.move a, texts.long left))
  /-- What is left could belong to what has been found. -/
  | unsettled (a : α) (left : List Token) (hleft : Leaves used left front) (hloose : loose)
    (hpending : Pending left) (h : found = .ok (a, texts.short left))
  /-- The shorter text ends too soon. -/
  | incomplete (fault : Fault) (hfault : fault.cause.isIncomplete = true) (h : found = .error fault)
  /-- The shorter text ends inside a phrase of several words. -/
  | awaiting (fault : Fault) (hfault : Awaits front fault) (h : found = .error fault)
  /-- Both fail. -/
  | rejected (fault fault' : Fault) (hpending : ¬Pending front) (h : found = .error fault)
    (h' : found' = .error fault')

/-- The two steps have an outcome on all tokens that are less than `size`. -/
def Continues {α : Type} [Placed α] (texts : Extension) (loose : Prop) (size used : Nat)
    (step step' : Reading α) : Prop :=
  ∀ front, front.length < size →
    Outcome texts loose used front (step (texts.short front)) (step' (texts.long front))

/-- The step fails where the tokens left may be the beginning of a phrase. -/
def Blocked {α : Type} (texts : Extension) (step : Reading α) : Prop :=
  ∀ front, Pending front → ∃ fault, step (texts.short front) = .error fault

/-- What takes no token does not get beyond the end either. -/
theorem Blocked.behind {α β : Type} {texts : Extension} {first : Reading α} {next : α → Reading β}
    (h : ∀ front, Pending front → ∃ a, first (texts.short front) = .ok (a, texts.short front))
    (h' : ∀ a, Blocked texts (next a)) : Blocked texts (first >>= next) := by
  intro front hpending
  obtain ⟨a, ha⟩ := h front hpending
  obtain ⟨fault, hfault⟩ := h' a front hpending
  exact ⟨fault, by rw [bind_ok ha, hfault]⟩

variable {α β : Type} [Placed α] [Placed β] {texts : Extension} {loose loose' : Prop}
  {size size' used used' total : Nat} {front left : List Token}

/-- To take nothing leaves all tokens. -/
theorem Leaves.refl (front : List Token) : Leaves 0 front front := ⟨List.suffix_rfl, le_rfl⟩

/-- What two phrases take adds up. -/
theorem Leaves.trans (h : Leaves used left front) {left' : List Token} (h' : Leaves used' left' left)
    (htotal : total ≤ used + used') : Leaves total left' front :=
  ⟨h'.1.trans h.1, by have := h.2; have := h'.2; omega⟩

/-- To take one token. -/
theorem Leaves.tail (token : Token) (front : List Token) : Leaves 1 front (token :: front) :=
  ⟨List.suffix_cons _ _, by simp⟩

namespace Outcome

variable {found found' : Except Fault (α × Tokens)}

/-- Where the tokens left may be the beginning of a phrase, the outcome says nothing about the longer text. -/
theorem unsettle (h : Outcome texts loose used front found found') (hpending : Pending front)
    (hloose : loose) (found'' : Except Fault (α × Tokens)) :
    Outcome texts loose used front found found'' := by
  cases h with
  | settled a left hleft h _ =>
    exact .unsettled a left hleft hloose (hpending.suffix hleft.1) h
  | unsettled a left hleft _ hpending h => exact .unsettled a left hleft hloose hpending h
  | incomplete fault hfault h => exact .incomplete fault hfault h
  | awaiting fault hfault h => exact .awaiting fault hfault h
  | rejected _ _ hnot => exact absurd hpending hnot

/-- The outcome for all tokens is that for the tokens left after some of them have been taken. -/
theorem behind (hleft : Leaves used left front) (h : Outcome texts loose used' left found found')
    (htotal : total ≤ used + used') : Outcome texts loose total front found found' := by
  cases h with
  | settled a left' hleft' h h' => exact .settled a left' (hleft.trans hleft' htotal) h h'
  | unsettled a left' hleft' hloose hpending h =>
    exact .unsettled a left' (hleft.trans hleft' htotal) hloose hpending h
  | incomplete fault hfault h => exact .incomplete fault hfault h
  | awaiting fault hfault h => exact .awaiting fault (hfault.suffix hleft.1) h
  | rejected fault fault' hnot h h' =>
    exact .rejected fault fault' (fun hpending => hnot (hpending.suffix hleft.1)) h h'

/-- More may have been taken, and less be known of what follows. -/
theorem mono (h : Outcome texts loose used front found found') (hused : used' ≤ used)
    (hloose : loose → loose') : Outcome texts loose' used' front found found' := by
  cases h with
  | settled a left hleft h h' => exact .settled a left ⟨hleft.1, by have := hleft.2; omega⟩ h h'
  | unsettled a left hleft hl hpending h =>
    exact .unsettled a left ⟨hleft.1, by have := hleft.2; omega⟩ (hloose hl) hpending h
  | incomplete fault hfault h => exact .incomplete fault hfault h
  | awaiting fault hfault h => exact .awaiting fault hfault h
  | rejected fault fault' hnot h h' => exact .rejected fault fault' hnot h h'

/-- A fault at the first token. -/
theorem atHead {token : Token} {fault fault' : Fault} (h : found = .error fault)
    (h' : found' = .error fault') (hposition : fault.position = token.position) :
    Outcome texts loose used (token :: left) found found' := by
  by_cases hpending : Pending (token :: left)
  · exact .awaiting fault (hpending.awaits hposition) h
  · exact .rejected fault fault' hpending h h'

/-- Two steps one after the other. -/
theorem bind {first first' : Reading α} {next next' : α → Reading β}
    (h : Outcome texts loose used front (first (texts.short front)) (first' (texts.long front)))
    (h' : ∀ a left, Leaves used left front → Outcome texts loose used' left (next a (texts.short left))
      (next' (Placed.relocate texts.move a) (texts.long left)))
    (htotal : total ≤ used + used') :
    Outcome texts loose total front ((first >>= next) (texts.short front))
      ((first' >>= next') (texts.long front)) := by
  cases h with
  | settled a left hleft h₁ h₂ =>
    rw [bind_ok h₁, bind_ok h₂]
    exact (h' a left hleft).behind hleft htotal
  | unsettled a left hleft hloose hpending h₁ =>
    -- the second step starts at different places of the two texts, but at an opening in the shorter one
    rw [bind_ok h₁]
    exact ((h' a left hleft).unsettle hpending hloose _).behind hleft htotal
  | incomplete fault hfault h₁ => exact .incomplete fault hfault (bind_error h₁)
  | awaiting fault hfault h₁ => exact .awaiting fault hfault (bind_error h₁)
  | rejected fault fault' hnot h₁ h₂ =>
    exact .rejected fault fault' hnot (bind_error h₁) (bind_error h₂)

end Outcome

/-! ## Steps one after the other -/

namespace Continues

variable {step step' first first' : Reading α} {next next' : α → Reading β}

/-- Fewer tokens may be left, and less be known of what follows. -/
theorem mono (h : Continues texts loose size used step step') (hsize : size' ≤ size)
    (hused : used' ≤ used) (hloose : loose → loose') :
    Continues texts loose' size' used' step step' :=
  fun front hfront => (h front (by omega)).mono hused hloose

/-- For fewer tokens. -/
theorem less (h : Continues texts loose size used step step') (hsize : size' ≤ size)
    (hused : used' ≤ used) : Continues texts loose size' used' step step' :=
  h.mono hsize hused id

theorem pure {a a' : α} (h : a' = Placed.relocate texts.move a) :
    Continues texts loose size 0 (Pure.pure a) (Pure.pure a') :=
  fun front _ => .settled a front (.refl front) rfl (by rw [h]; rfl)

/-- Two steps one after the other. -/
theorem seq (h : Continues texts loose size used first first')
    (h' : ∀ a, Continues texts loose (size - used) used' (next a) (next' (Placed.relocate texts.move a)))
    (htotal : total ≤ used + used') :
    Continues texts loose size total (first >>= next) (first' >>= next') :=
  fun front hfront => (h front hfront).bind
    (fun a left hleft => h' a left (by have := hleft.2; omega)) htotal

/-- The tokens that the first step takes are counted. -/
theorem bind (h : Continues texts loose size used first first')
    (h' : ∀ a, Continues texts loose (size - used) 0 (next a) (next' (Placed.relocate texts.move a))) :
    Continues texts loose size used (first >>= next) (first' >>= next') :=
  h.seq h' (by omega)

/-- The tokens that the second step takes are counted. -/
theorem andThen (h : Continues texts loose size used first first')
    (h' : ∀ a, Continues texts loose (size - used) used' (next a) (next' (Placed.relocate texts.move a))) :
    Continues texts loose size used' (first >>= next) (first' >>= next') :=
  h.seq h' (by omega)

/-- Two ways that lead to the same step. -/
theorem branch {choose choose' : Reading Bool} {yes yes' no no' : Reading α}
    (h : Continues texts loose size 0 (choose >>= fun way => if way = true then yes else no)
      (choose' >>= fun way => if way = true then yes' else no'))
    (h' : ∀ a, Continues texts loose size used (next a) (next' (Placed.relocate texts.move a))) :
    Continues texts loose size used
      (choose >>= fun way => if way = true then yes >>= next else no >>= next)
      (choose' >>= fun way => if way = true then yes' >>= next' else no' >>= next') := by
  rw [bind_branch, bind_branch]
  exact h.andThen h'

/-- With nothing left to read there is nothing to show. -/
theorem zero (h : size = 0) : Continues texts loose size used step step' :=
  fun front hfront => absurd hfront (by omega)

/-- A loop that takes a token each time around, with its result so far. -/
theorem loopFrom {γ : Type} [Placed γ] (loop loop' : Nat → γ → Reading α) {most : Nat}
    (h : ∀ size bound bound', size < most → size ≤ bound → size ≤ bound' →
      (∀ c, Continues texts loose size used (loop bound c) (loop' bound' (Placed.relocate texts.move c))) →
      ∀ c, Continues texts loose (size + 1) used (loop (bound + 1) c)
        (loop' (bound' + 1) (Placed.relocate texts.move c)))
    {bound bound' : Nat} (hbound : most ≤ bound) (hbound' : most ≤ bound') (c : γ) :
    Continues texts loose most used (loop bound c) (loop' bound' (Placed.relocate texts.move c)) := by
  suffices ∀ size ≤ most, ∀ bound bound', size ≤ bound → size ≤ bound' → ∀ c,
      Continues texts loose size used (loop bound c) (loop' bound' (Placed.relocate texts.move c)) from
    this most le_rfl bound bound' hbound hbound' c
  intro size
  induction size with
  | zero => exact fun _ _ _ _ _ _ => .zero rfl
  | succ size ih =>
    intro hsize bound bound' hbound hbound'
    obtain ⟨bound, rfl⟩ : ∃ fewer, bound = fewer + 1 := ⟨bound - 1, by omega⟩
    obtain ⟨bound', rfl⟩ : ∃ fewer, bound' = fewer + 1 := ⟨bound' - 1, by omega⟩
    exact h size bound bound' hsize (by omega) (by omega)
      (ih (by omega) bound bound' (by omega) (by omega))

/-- A loop that takes a token each time around. -/
theorem loop {loop loop' : Nat → Reading α} {most : Nat}
    (h : ∀ size bound bound', size < most → size ≤ bound → size ≤ bound' →
      Continues texts loose size used (loop bound) (loop' bound') →
      Continues texts loose (size + 1) used (loop (bound + 1)) (loop' (bound' + 1)))
    {bound bound' : Nat} (hbound : most ≤ bound) (hbound' : most ≤ bound') :
    Continues texts loose most used (loop bound) (loop' bound') :=
  loopFrom (fun bound (_ : Unit) => loop bound) (fun bound (_ : Unit) => loop' bound)
    (fun size bound bound' hsize hbound hbound' ih _ => h size bound bound' hsize hbound hbound' (ih ()))
    hbound hbound' ()

/-- A step whose result need not be there. -/
theorem optional (h : Continues texts loose size used step step') :
    Continues texts loose size used (some <$> step) (some <$> step') := by
  rw [map_eq_pure_bind, map_eq_pure_bind]
  exact h.bind fun a => .pure rfl

end Continues

/-- What could go on in the longer text does not matter where a step fails that needs its end. -/
theorem Continues.closing {first first' : Reading α} {next next' : α → Reading β}
    (h : Continues texts loose' size used first first')
    (h' : ∀ a, Continues texts loose (size - used) used' (next a) (next' (Placed.relocate texts.move a)))
    (hblocked : ∀ a, Blocked texts (next a)) :
    Continues texts loose size used' (first >>= next) (first' >>= next') := by
  intro front hfront
  cases h front hfront with
  | settled a left hleft h₁ h₂ =>
    rw [bind_ok h₁, bind_ok h₂]
    exact (h' a left (by have := hleft.2; omega)).behind hleft (by omega)
  | unsettled a left hleft _ hpending h₁ =>
    obtain ⟨fault, hfault⟩ := hblocked a left hpending
    have hnext := h' a left (by have := hleft.2; omega)
    rw [bind_ok h₁, hfault]
    cases hnext with
    | settled _ _ _ hok | unsettled _ _ _ _ _ hok => cases hfault.symm.trans hok
    | incomplete fault' hincomplete herror =>
      cases hfault.symm.trans herror
      exact .incomplete fault hincomplete rfl
    | awaiting fault' hawaits herror =>
      cases hfault.symm.trans herror
      exact .awaiting fault (hawaits.suffix hleft.1) rfl
    | rejected _ _ hnot => exact absurd hpending hnot
  | incomplete fault hfault h₁ => exact .incomplete fault hfault (bind_error h₁)
  | awaiting fault hfault h₁ => exact .awaiting fault hfault (bind_error h₁)
  | rejected fault fault' hnot h₁ h₂ =>
    exact .rejected fault fault' hnot (bind_error h₁) (bind_error h₂)

/-! ## Single tokens -/

/-- A step behind the first token, which has been taken. -/
theorem Continues.skip {step step' : Reading α} {token : Token}
    (h : Continues texts loose size used step step') (hfront : left.length < size)
    (htotal : total ≤ used + 1) :
    Outcome texts loose total (token :: left) (step (texts.short left)) (step' (texts.long left)) :=
  (h left hfront).behind (.tail token left) (by omega)

theorem ahead?_short {α : Type} {texts : Extension} (k : Option Lexeme → Reading α) (token : Token)
    (front : List Token) : (ahead? 0 >>= k) (texts.short (token :: front)) =
      k (some token.lexeme) (texts.short (token :: front)) := rfl

theorem ahead?_long {α : Type} {texts : Extension} (k : Option Lexeme → Reading α) (token : Token)
    (front : List Token) : (ahead? 0 >>= k) (texts.long (token :: front)) =
      k (some token.lexeme) (texts.long (token :: front)) := rfl

/-- A token that has been looked at is taken by both readings. -/
theorem Outcome.advance {step step' : Reading α} {token : Token}
    (h : Continues texts loose size used step step') (hfront : left.length < size)
    (htotal : total ≤ used + 1) :
    Outcome texts loose total (token :: left) ((advance 1 >>= fun _ => step) (texts.short (token :: left)))
      ((advance 1 >>= fun _ => step') (texts.long (token :: left))) :=
  h.skip hfront htotal

/-- So are several. -/
theorem Outcome.advanceBy {step step' : Reading α} {count : Nat}
    (h : Continues texts loose size used step step') (hcount : count ≤ front.length)
    (hfront : front.length < size + count) (htotal : total ≤ used + count) :
    Outcome texts loose total front ((Reading.advance count >>= fun _ => step) (texts.short front))
      ((Reading.advance count >>= fun _ => step') (texts.long front)) := by
  have hlong : (Reading.advance count >>= fun _ => step') (texts.long front) =
      step' (texts.long (front.drop count)) := by
    show step' ⟨((texts.long front).rest.drop count), texts.finish'⟩ = _
    rw [Extension.long, List.drop_append_of_le_length (by simpa using hcount), ← List.map_drop]
    rfl
  have hleft : Leaves count (front.drop count) front :=
    ⟨List.drop_suffix count front, by rw [List.length_drop]; omega⟩
  rw [hlong]
  exact (h (front.drop count) (by rw [List.length_drop]; omega)).behind hleft (by omega)

/-- A token is taken together with its place. -/
theorem Outcome.next {k k' : Token → Reading α} {token : Token}
    (h : Continues texts loose size used (k token) (k' (Placed.relocate texts.move token)))
    (hfront : left.length < size) (htotal : total ≤ used + 1) :
    Outcome texts loose total (token :: left) ((next >>= k) (texts.short (token :: left)))
      ((next >>= k') (texts.long (token :: left))) :=
  h.skip hfront htotal

/-- A failure that does not come from the end of the text happens in the longer one too. -/
theorem continues_fail (cause : FaultCause) :
    Continues (α := α) texts loose size used (fail cause) (fail cause) := by
  intro front _
  cases front with
  | nil => exact .incomplete _ rfl rfl
  | cons token front => exact .atHead rfl rfl rfl

/-- An expected token is there in both, or is missing in both, or is to come behind the end. -/
theorem continues_expect (lexeme : Lexeme) (what : Expectation) :
    Continues texts loose size 1 (expect lexeme what) (expect lexeme what) := by
  intro front _
  cases front with
  | nil => exact .incomplete _ rfl rfl
  | cons token front =>
    by_cases htoken : token.lexeme = lexeme
    · exact .settled token.position front (.tail token front) (if_pos htoken) (if_pos htoken)
    · exact .atHead (if_neg htoken) (if_neg htoken) rfl

/-- So with a name. -/
theorem continues_expectName (what : Expectation) :
    Continues texts loose size 1 (expectName what) (expectName what) := by
  intro front _
  cases front with
  | nil => exact .incomplete _ rfl rfl
  | cons token front =>
    obtain ⟨lexeme, position⟩ := token
    cases lexeme with
    | name word => exact .settled (word, position) front (.tail _ front) rfl rfl
    | _ => exact .atHead rfl rfl rfl

section Lookahead

variable {lexeme : Lexeme} {yes yes' no no' : Reading α}

/-- A token that is taken if it comes next. -/
theorem Continues.take? {k k' : Option Position → Reading α}
    (hnext : upNext texts.more = some lexeme → loose)
    (hsome : ∀ position, Continues texts loose (size - 1) (used - 1) (k (some position))
      (k' (some (texts.move position))))
    (hnone : Continues texts loose size used (k none) (k' none)) :
    Continues texts loose size used (take? lexeme >>= k) (take? lexeme >>= k') := by
  intro front hfront
  cases front with
  | nil =>
    by_cases hmore : upNext texts.more = some lexeme
    · exact (hnone [] hfront).unsettle (.inl rfl) (hnext hmore) _
    · obtain ⟨_, htake, rfl⟩ := reads_take?_none lexeme [] texts.more texts.finish' rfl hmore
      have hlong : (Reading.take? lexeme >>= k') (texts.long []) = k' none (texts.long []) := bind_ok htake
      rw [hlong]
      exact hnone [] hfront
  | cons token front =>
    simp only [List.length_cons] at hfront
    by_cases htoken : token.lexeme = lexeme
    · have hshort : (Reading.take? lexeme >>= k) (texts.short (token :: front)) =
          k (some token.position) (texts.short front) := bind_ok (if_pos htoken)
      have hlong : (Reading.take? lexeme >>= k') (texts.long (token :: front)) =
          k' (some (texts.move token.position)) (texts.long front) := bind_ok (if_pos htoken)
      rw [hshort, hlong]
      exact (hsome token.position).skip (by omega) (by omega)
    · have hshort : (Reading.take? lexeme >>= k) (texts.short (token :: front)) =
          k none (texts.short (token :: front)) := bind_ok (if_neg htoken)
      have hlong : (Reading.take? lexeme >>= k') (texts.long (token :: front)) =
          k' none (texts.long (token :: front)) := bind_ok (if_neg htoken)
      rw [hshort, hlong]
      exact hnone (token :: front) hfront

/-- Two ways to go on, of which the first is taken with a token. -/
theorem Continues.ifTook (hnext : upNext texts.more = some lexeme → loose)
    (hyes : Continues texts loose (size - 1) (used - 1) yes yes')
    (hno : Continues texts loose size used no no') :
    Continues texts loose size used
      ((do return (← Reading.take? lexeme).isSome) >>= fun took => if took = true then yes else no)
      ((do return (← Reading.take? lexeme).isSome) >>= fun took => if took = true then yes' else no') := by
  simp only [bind_assoc, pure_bind]
  exact .take? hnext (fun _ => hyes) hno

/-- A look at the next lexeme. -/
theorem Continues.peek {k k' : Option Lexeme → Reading α}
    (hend : ∀ lexeme, upNext texts.more = some lexeme → loose ∨ k' (some lexeme) = k' none)
    (hnone : Continues texts loose size used (k none) (k' none))
    (hsome : ∀ token rest, rest.length + 1 < size → Outcome texts loose used (token :: rest)
      (k (some token.lexeme) (texts.short (token :: rest)))
      (k' (some token.lexeme) (texts.long (token :: rest)))) :
    Continues texts loose size used (ahead? 0 >>= k) (ahead? 0 >>= k') := by
  intro front hfront
  cases front with
  | nil =>
    have hlong : (ahead? 0 >>= k') (texts.long []) = k' (upNext texts.more) (texts.long []) := by
      show k' (texts.more[0]?.map Token.lexeme) _ = _
      rw [← List.head?_eq_getElem?]
      rfl
    rw [hlong]
    cases hnext : upNext texts.more with
    | none => exact hnone [] hfront
    | some lexeme =>
      rcases hend lexeme hnext with hloose | hsame
      · exact (hnone [] hfront).unsettle (.inl rfl) hloose _
      · rw [hsame]
        exact hnone [] hfront
  | cons token front => exact hsome token front hfront

/-- A look at whether a lexeme comes next. -/
theorem Continues.upcoming {k k' : Bool → Reading α} (hnext : upNext texts.more = some lexeme → loose)
    (htrue : Continues texts loose size used (k true) (k' true))
    (hfalse : Continues texts loose size used (k false) (k' false)) :
    Continues texts loose size used (upcoming [lexeme] >>= k) (upcoming [lexeme] >>= k') := by
  intro front hfront
  cases front with
  | nil =>
    by_cases hmore : upNext texts.more = some lexeme
    · exact (hfalse [] hfront).unsettle (.inl rfl) (hnext hmore) _
    · obtain ⟨_, hcomes, rfl⟩ := reads_upcoming_none lexeme [] [] texts.more texts.finish' rfl hmore
      have hlong : (Reading.upcoming [lexeme] >>= k') (texts.long []) = k' false (texts.long []) :=
        bind_ok hcomes
      rw [hlong]
      exact hfalse [] hfront
  | cons token front =>
    show Outcome texts loose used (token :: front)
      (k ([lexeme] == [token.lexeme]) (texts.short (token :: front)))
      (k' ([lexeme] == [token.lexeme]) (texts.long (token :: front)))
    cases [lexeme] == [token.lexeme] with
    | true => exact htrue (token :: front) hfront
    | false => exact hfalse (token :: front) hfront

end Lookahead

section Open

variable {yes yes' no no' : Reading α} {mark : Symbol} {word : Keyword}

theorem Extension.opens_symbol (h : mark ≠ .semicolon) (hnext : upNext texts.more = some (.symbol mark)) :
    texts.Open := ⟨_, hnext, fun heq => h (Lexeme.symbol.inj heq)⟩

/-- A look at the next lexeme, to which a semicolon is like the end. -/
theorem Continues.peekOpen {k k' : Option Lexeme → Reading α}
    (hsemicolon : k' (some (.symbol .semicolon)) = k' none)
    (hnone : Continues texts texts.Open size used (k none) (k' none))
    (hsome : ∀ token rest, rest.length + 1 < size → Outcome texts texts.Open used (token :: rest)
      (k (some token.lexeme) (texts.short (token :: rest)))
      (k' (some token.lexeme) (texts.long (token :: rest)))) :
    Continues texts texts.Open size used (ahead? 0 >>= k) (ahead? 0 >>= k') := by
  refine .peek (fun lexeme hnext => ?_) hnone hsome
  by_cases h : lexeme = .symbol .semicolon
  · exact .inr (h ▸ hsemicolon)
  · exact .inl (Extension.opens h hnext)

/-- A symbol that decides what is read may be the first token behind the end: then the short reading stops
open. -/
theorem Continues.ifSymbol (hmark : mark ≠ .semicolon)
    (hyes : Continues texts texts.Open (size - 1) (used - 1) yes yes')
    (hno : Continues texts texts.Open size used no no') :
    Continues texts texts.Open size used (tookSymbol mark >>= fun took => if took = true then yes else no)
      (tookSymbol mark >>= fun took => if took = true then yes' else no') :=
  .ifTook (Extension.opens_symbol hmark) hyes hno

/-- So may a keyword. -/
theorem Continues.ifKeyword (hyes : Continues texts texts.Open (size - 1) (used - 1) yes yes')
    (hno : Continues texts texts.Open size used no no') :
    Continues texts texts.Open size used (tookKeyword word >>= fun took => if took = true then yes else no)
      (tookKeyword word >>= fun took => if took = true then yes' else no') :=
  .ifTook (Extension.opens nofun) hyes hno

/-- The same where it is only looked at. -/
theorem Continues.ifUpcomingSymbol (hmark : mark ≠ .semicolon)
    (hyes : Continues texts texts.Open size used yes yes')
    (hno : Continues texts texts.Open size used no no') :
    Continues texts texts.Open size used
      (upcomingSymbol mark >>= fun comes => if comes = true then yes else no)
      (upcomingSymbol mark >>= fun comes => if comes = true then yes' else no') :=
  .upcoming (Extension.opens_symbol hmark) hyes hno

theorem Continues.ifUpcomingKeyword (hyes : Continues texts texts.Open size used yes yes')
    (hno : Continues texts texts.Open size used no no') :
    Continues texts texts.Open size used
      (upcomingKeyword word >>= fun comes => if comes = true then yes else no)
      (upcomingKeyword word >>= fun comes => if comes = true then yes' else no') :=
  .upcoming (Extension.opens nofun) hyes hno

end Open

/-- A step that begins with a decision about the next lexemes. Where it is not final yet the tokens left
are an opening, and a semicolon never changes it. -/
theorem Continues.window {γ : Type} (decision : List Lexeme → γ) (k k' : γ → Reading α)
    (hfinal : ∀ lexemes, lexemes ≠ [] → lexemes ∉ openings → ∀ more,
      decision (lexemes ++ more) = decision lexemes)
    (hbreak : ∀ lexemes ∈ [] :: openings, ∀ more,
      decision (lexemes ++ .symbol .semicolon :: more) = decision lexemes)
    (hk : ∀ front, front.length < size → Outcome texts texts.Open used front
      (k (decision (front.map Token.lexeme)) (texts.short front))
      (k' (decision (front.map Token.lexeme)) (texts.long front))) :
    Continues texts texts.Open size used
      (fun tokens => k (decision (tokens.rest.map Token.lexeme)) tokens)
      (fun tokens => k' (decision (tokens.rest.map Token.lexeme)) tokens) := by
  intro front hfront
  have hlexemes : (texts.long front).rest.map Token.lexeme =
      front.map Token.lexeme ++ texts.more.map Token.lexeme := by
    simp only [Extension.long, List.map_append, List.map_map]
    rfl
  have hsame : decision ((texts.long front).rest.map Token.lexeme) = decision (front.map Token.lexeme) ∨
      Pending front ∧ texts.Open := by
    rw [hlexemes]
    by_cases hpending : Pending front
    · cases hmore : texts.more with
      | nil => exact .inl (by rw [List.map_nil, List.append_nil])
      | cons token rest =>
        by_cases hsemicolon : token.lexeme = .symbol .semicolon
        · have hmem : front.map Token.lexeme ∈ [] :: openings := by
            rcases hpending with rfl | h
            · exact List.mem_cons_self
            · exact List.mem_cons_of_mem _ h
          exact .inl (by rw [List.map_cons, hsemicolon, hbreak _ hmem])
        · exact .inr ⟨hpending, token.lexeme, by rw [hmore]; rfl, hsemicolon⟩
    · refine .inl (hfinal _ ?_ (fun h => hpending (.inr h)) _)
      exact fun h => hpending (.inl (List.map_eq_nil_iff.mp h))
  rcases hsame with hsame | ⟨hpending, hopen⟩
  · show Outcome texts texts.Open used front _ (k' (decision ((texts.long front).rest.map _)) _)
    rw [hsame]
    exact hk front hfront
  · exact (hk front hfront).unsettle hpending hopen _

/-- Tokens that are taken as long as they come. -/
theorem continues_takeAll (lexeme : Lexeme) (hnext : upNext texts.more = some lexeme → loose) :
    Continues texts loose size 0 (takeAll lexeme) (takeAll lexeme) := by
  intro front hfront
  clear hfront
  induction front with
  | nil =>
    by_cases hmore : upNext texts.more = some lexeme
    -- there may be more of them in the continuation
    · exact .unsettled [] [] (.refl []) (hnext hmore) (.inl rfl) rfl
    · obtain ⟨_, htake, rfl⟩ := reads_takeAll_none lexeme [] texts.more texts.finish' rfl hmore
      exact .settled [] [] (.refl []) rfl htake
  | cons token front ih =>
    by_cases htoken : token.lexeme = lexeme
    · have htaken : (token.lexeme == lexeme) = true := beq_iff_eq.mpr htoken
      have hshort : takeAll lexeme (texts.short (token :: front)) = (takeAll lexeme (texts.short front)).map
          fun found => (token.position :: found.1, found.2) := by
        simp only [takeAll, Extension.short, List.takeWhile_cons, List.dropWhile_cons, htaken, if_true,
          List.map_cons, Except.map]
      have hlong : takeAll lexeme (texts.long (token :: front)) = (takeAll lexeme (texts.long front)).map
          fun found => (texts.move token.position :: found.1, found.2) := by
        simp only [takeAll, Extension.long, List.map_cons, List.cons_append, Placed.relocate,
          List.takeWhile_cons, List.dropWhile_cons, htaken, if_true, Except.map]
      rw [hshort, hlong]
      have htail : ∀ {left}, Leaves 0 left front → Leaves 0 left (token :: front) := fun hleft =>
        (Leaves.tail token front).trans hleft (by omega)
      cases ih with
      | settled places left hleft h h' =>
        rw [h, h']
        exact .settled (token.position :: places) left (htail hleft) rfl rfl
      | unsettled places left hleft hloose hpending h =>
        rw [h]
        exact .unsettled (token.position :: places) left (htail hleft) hloose hpending rfl
      | incomplete _ _ h | awaiting _ _ h | rejected _ _ _ h => cases h
    · have hleft : (token.lexeme == lexeme) = false := beq_eq_false_iff_ne.mpr htoken
      refine .settled [] (token :: front) (.refl _) ?_ ?_
      · simp only [takeAll, Extension.short, List.takeWhile_cons, List.dropWhile_cons, hleft,
          Bool.false_eq_true, if_false, List.map_nil]
      · simp only [takeAll, Extension.long, List.map_cons, List.cons_append, Placed.relocate,
          List.takeWhile_cons, List.dropWhile_cons, hleft, Bool.false_eq_true, if_false, List.map_nil]

end Ckl.Source
