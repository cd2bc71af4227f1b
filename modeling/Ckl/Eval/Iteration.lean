import Ckl.Eval.Exit

/-!
# Iteration

What loops and comprehensions run over. The items of a collection are those that it had at the
beginning; the lines of a stream are read one by one.
-/

namespace Ckl

open Source (Position Selection)

/-- What is left to run over. -/
inductive Iteration where
  | items (values : List Value)
  | lines (input : Ref .input)

namespace Iteration

/-- The items of a list with their indices. -/
def numbered (items : List Value) : List (Value × Value) :=
  items.zipIdx.map fun item => (.int (Int64.ofNat item.2), item.1)

/-- The selected part of entries. -/
def ofEntries (selection : Selection) (entries : List (Value × Value)) : Run Iteration :=
  match selection with
  | .items | .keys => return .items (entries.map Prod.fst)
  | .values => return .items (entries.map Prod.snd)
  | .entries => return .items (← Run.placePairs entries)

/-- The selected part of a list. -/
def ofList (selection : Selection) (items : List Value) : Run Iteration :=
  match selection with
  | .items | .values => return .items items
  | .keys | .entries => ofEntries selection (numbered items)

/-- An iteration over a value. -/
def ofSource (source : Value) (selection : Selection) (position : Position) : Run Iteration := do
  match source with
  | .input ref => return .lines ref
  | .list ref => ofList selection (← Run.read (·.items ref)).toList
  | .set ref => return .items (← Run.read (·.sortedKeys ref))
  | .map ref => ofEntries selection (← Run.read (·.sortedEntries ref))
  | .object ref =>
    let members ← Run.read (·.members ref)
    ofEntries selection (members.entries.map fun entry => (.string entry.1, entry.2))
  | .string text => return .items ((Text.graphemes text).map .string)
  | value => Run.fail (.unusable .iterate value.type) position

/-- At least the number of rounds that are left. -/
def rounds (store : Store) : Iteration → Nat
  | .items values => values.length
  | .lines input => (store.lines input).length

/-- The next item, and what is left behind it. -/
def next? : Iteration → Run (Option (Value × Iteration))
  | .items [] => return none
  | .items (value :: rest) => return some (value, .items rest)
  | .lines input => return (← Run.readLine input).map fun line => (.string line, .lines input)

/-- Folds over all items. -/
def fold {σ : Type} (body : σ → Value → Run σ) : (rounds : Nat) → Iteration → σ → Run σ
  | 0, _, state => return state
  | rounds + 1, iteration, state => do
    match ← iteration.next? with
    | none => return state
    | some (item, rest) => fold body rounds rest (← body state item)

/-- Runs a loop: its value is that of the last round that had one. -/
def loop (body : Value → Eval Value) : (rounds : Nat) → Iteration → (last : Value) → Eval Value
  | 0, _, last => return last
  | rounds + 1, iteration, last => do
    match ← iteration.next? with
    | none => return last
    | some (item, rest) =>
      match ← (body item).outcome with
      | .ok value => loop body rounds rest value
      | .error .break => return last
      | .error .continue => loop body rounds rest last
      | .error (.return value) => Eval.exit (.return value)

end Iteration

end Ckl
