import Mathlib
import RisingWave.Expr.WindowBuffer

/-!
# Window function states

`expr/src/window_function/state/mod.rs`, `row_number.rs`, `aggregate.rs` and `states.rs`. A
window state is fed the rows of a partition in the order of their keys (`append`), says which row
is current and whether its output is ready (`curr_window`), gives that output (`curr_output`), and
moves on to the next row (`slide_forward`), saying which keys it no longer needs
(`StateEvictHint`). `WindowStates` drives one state per window function call over the same rows
and merges their hints.

A state key is a value of a linearly ordered type, a `BTreeSet` of keys a `Finset`, a datum an
`Option ℤ`, and the arguments a call takes from a row a value of a type `V`. An aggregate call
carries the function of its window's arguments it computes, standing for
`AggregatorWrapper::aggregate` over its `AggCall`. Panics, `expect`s and `assert!`s are `none`;
the `debug_assert!`s are not checked, as in a release build; the heap size estimates are left
out.
-/

namespace RisingWave.Expr

/-- `StateEvictHint`. -/
inductive StateEvictHint (K : Type) where
  /-- keys the state no longer needs -/
  | canEvict (keys : Finset K)
  /-- the first key the state still needs -/
  | cannotEvict (key : K)
  deriving DecidableEq

namespace StateEvictHint

variable {K : Type} [LinearOrder K]

/-- `StateEvictHint::merge`. A `BTreeSet` yields its keys in order, so `take_while(|k| k <= &last)`
keeps the keys up to `last` and `split_off(&still_required)` leaves those below
`still_required`; `last().unwrap()` panics on an empty set. -/
def merge : StateEvictHint K → StateEvictHint K → Option (StateEvictHint K)
  | canEvict a, canEvict b =>
    if ha : a.Nonempty then
      if hb : b.Nonempty then
        let last := min (a.max' ha) (b.max' hb)
        some (canEvict (a.filter (· ≤ last) ∪ b.filter (· ≤ last)))
      else none
    else none
  | cannotEvict a, cannotEvict b => some (cannotEvict (min a b))
  | canEvict keys, cannotEvict stillRequired | cannotEvict stillRequired, canEvict keys =>
    some (canEvict (keys.filter (· < stillRequired)))

end StateEvictHint

/-- `WindowFuncKind`; an aggregate carries the function of its window's arguments it computes. -/
inductive WindowFuncKind (V : Type) where
  | rowNumber
  | rank
  | denseRank
  | lag
  | lead
  | aggregate (agg : List V → Option ℤ)

/-- `WindowFuncCall`: `args` projects the call's arguments out of an input row. Its return type is
left out. -/
structure WindowFuncCall (R V : Type) where
  kind : WindowFuncKind V
  args : R → V
  frame : Frame

/-- `StatePos`. -/
structure StatePos (K : Type) where
  key : Option K
  isReady : Bool
  deriving DecidableEq, Repr

/-! ## `ROW_NUMBER` -/

/-- `RowNumberState`. -/
structure RowNumberState (K : Type) where
  firstKey : Option K
  buffer : List K
  currRowNumber : Int64
  deriving DecidableEq, Repr

namespace RowNumberState

variable {K : Type}

/-- `RowNumberState::new`. -/
def new : RowNumberState K := ⟨none, [], 1⟩

/-- `RowNumberState::append`. -/
def append (self : RowNumberState K) (key : K) : RowNumberState K :=
  { self with firstKey := if self.firstKey.isNone then some key else self.firstKey,
              buffer := self.buffer ++ [key] }

/-- `RowNumberState::curr_window`. -/
def currWindow (self : RowNumberState K) : StatePos K := ⟨self.buffer.head?, self.buffer.head?.isSome⟩

/-- `RowNumberState::curr_output`. -/
def currOutput (self : RowNumberState K) : Option (Option ℤ) :=
  some (if self.currWindow.isReady then some self.currRowNumber.toInt else none)

/-- `RowNumberState::slide_forward`: both `expect`s panic. -/
def slideForward (self : RowNumberState K) : Option (StateEvictHint K × RowNumberState K) :=
  match self.buffer, self.firstKey with
  | _ :: rest, some firstKey =>
    some (.cannotEvict firstKey, { self with buffer := rest, currRowNumber := self.currRowNumber + 1 })
  | _, _ => none

end RowNumberState

/-! ## Aggregates -/

/-- `AggregateState`: the aggregate it computes and the window buffer of its arguments. -/
structure AggregateState (K V : Type) where
  aggregate : List V → Option ℤ
  buffer : WindowBuffer K V

namespace AggregateState

variable {K V : Type}

/-- `AggregateState::new`; `WindowBuffer::new` of a valid frame is the empty buffer. -/
def new (frame : Frame) (aggregate : List V → Option ℤ) : Except ExprError (AggregateState K V) :=
  if frame.bounds.isValid then .ok ⟨aggregate, ⟨frame, [], 0, 0, 0⟩⟩
  else .error (.internal "the window frame must be valid")

/-- `AggregateState::append`. -/
def append (self : AggregateState K V) (key : K) (args : V) : AggregateState K V :=
  { self with buffer := self.buffer.append key args }

/-- `AggregateState::curr_window`. -/
def currWindow (self : AggregateState K V) : StatePos K :=
  ⟨self.buffer.currWindow.key, self.buffer.currWindow.followingSaturated⟩

/-- `AggregateState::curr_output`. -/
def currOutput (self : AggregateState K V) : Option (Option ℤ) :=
  self.buffer.currWindowValues.map self.aggregate

variable [LinearOrder K]

/-- `AggregateState::slide_forward`: the keys drained, or the smallest key left, which must
exist. -/
def slideForward (self : AggregateState K V) : Option (StateEvictHint K × AggregateState K V) := do
  let (removed, buffer) ← self.buffer.slide
  let removedKeys := (removed.map Prod.fst).toFinset
  if removedKeys = ∅ then
    let key ← buffer.smallestKey
    return (.cannotEvict key, { self with buffer })
  else
    return (.canEvict removedKeys, { self with buffer })

end AggregateState

/-! ## The states of a partition -/

/-- A `Box<dyn WindowState>`: the two states `create_window_state` builds. -/
inductive WindowState (K V : Type) where
  | rowNumber (s : RowNumberState K)
  | aggregate (s : AggregateState K V)

namespace WindowState

variable {K V : Type}

/-- `WindowState::append`. -/
def append : WindowState K V → K → V → WindowState K V
  | rowNumber s, key, _ => rowNumber (s.append key)
  | aggregate s, key, args => aggregate (s.append key args)

/-- `WindowState::curr_window`. -/
def currWindow : WindowState K V → StatePos K
  | rowNumber s => s.currWindow
  | aggregate s => s.currWindow

/-- `WindowState::curr_output`. -/
def currOutput : WindowState K V → Option (Option ℤ)
  | rowNumber s => s.currOutput
  | aggregate s => s.currOutput

/-- `WindowState::slide_forward`. -/
def slideForward [LinearOrder K] : WindowState K V → Option (StateEvictHint K × WindowState K V)
  | rowNumber s => s.slideForward.map fun (hint, s) => (hint, rowNumber s)
  | aggregate s => s.slideForward.map fun (hint, s) => (hint, aggregate s)

end WindowState

/-- `create_window_state`: its `assert!` panics on an invalid frame, and the kinds without a state
are an error. -/
def createWindowState {K R V : Type} (call : WindowFuncCall R V) :
    Option (Except ExprError (WindowState K V)) :=
  if call.frame.bounds.isValid then
    some <| match call.kind with
      | .rowNumber => .ok (.rowNumber RowNumberState.new)
      | .aggregate agg => (AggregateState.new call.frame agg).map .aggregate
      | _ => .error .unsupportedFunction
  else none

/-- `Itertools::all_equal`. -/
def allEqual {α : Type} [DecidableEq α] : List α → Bool
  | [] => true
  | a :: l => l.all (· = a)

/-- `WindowStates`. -/
structure WindowStates (K V : Type) where
  states : List (WindowState K V)

namespace WindowStates

variable {K V : Type}

/-- `WindowStates::new`. -/
def new (states : List (WindowState K V)) : Option (WindowStates K V) :=
  if states.isEmpty then none else some ⟨states⟩

/-- `WindowStates::are_aligned`. -/
def areAligned [DecidableEq K] (self : WindowStates K V) : Bool :=
  allEqual (self.states.map fun s => s.currWindow.key)

/-- `WindowStates::curr_key`. -/
def currKey (self : WindowStates K V) : Option K :=
  self.states.head?.bind fun s => s.currWindow.key

/-- `WindowStates::are_ready`. -/
def areReady (self : WindowStates K V) : Bool := self.states.all fun s => s.currWindow.isReady

/-- `WindowStates::curr_output`. -/
def currOutput (self : WindowStates K V) : Option (List (Option ℤ)) :=
  self.states.mapM WindowState.currOutput

variable [LinearOrder K]

/-- `Iterator::reduce(StateEvictHint::merge)`, whose `expect` panics on no hint. -/
def reduceMerge : List (StateEvictHint K) → Option (StateEvictHint K)
  | [] => none
  | hint :: hints => hints.foldlM StateEvictHint.merge hint

/-- `WindowStates::slide_forward`. -/
def slideForward (self : WindowStates K V) : Option (StateEvictHint K × WindowStates K V) := do
  let slid ← self.states.mapM WindowState.slideForward
  let hint ← reduceMerge (slid.map Prod.fst)
  return (hint, ⟨slid.map Prod.snd⟩)

/-- `WindowStates::just_slide_forward`. -/
def justSlideForward (self : WindowStates K V) : Option (WindowStates K V) := do
  let slid ← self.states.mapM WindowState.slideForward
  return ⟨slid.map Prod.snd⟩

end WindowStates

end RisingWave.Expr
