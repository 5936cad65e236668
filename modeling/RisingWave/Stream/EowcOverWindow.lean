import RisingWave.Stream.Chunk
import RisingWave.Expr.WindowState

/-!
# The emit-on-window-close over-window executor

`executor/over_window/eowc.rs`. The input is append-only and, within each partition, in the order
of its state keys. Each row is written to the state table and fed to the window states of its
partition, one state per window function call; then, while every state's output for the
partition's current row is ready, that row is output with the window functions' results, the
states slide forward, and the keys their merged hint lets go are deleted from the state table.
The partitions live in a cache; a partition that is not there is recovered from the state table:
its rows are fed to new states, which slide past the rows whose outputs were already given.

A row is any value; the executor reads from it its partition key, its state key (the order key
and the input primary key) and each call's arguments, all given as functions. The state table is
the list of its rows in the order they were inserted, which within a partition is the order of
its primary key; a deletion by primary key removes the partition's row with that state key. The
cache is a function from partition keys; which partitions a barrier evicts is the cache's choice,
so a barrier names them. Errors and panics are both `none`.
-/

namespace RisingWave.Stream.EowcOverWindow

open RisingWave.Expr

/-- `Partition`. -/
structure Partition (K V R : Type) where
  states : WindowStates K V
  currRowBuffer : List R

/-- What the executor reads of its `ExecutorInner`: the window function calls, and how to take
the partition key and the state key out of a row. -/
structure Executor (P K V R : Type) where
  calls : List (WindowFuncCall R V)
  partitionKey : R → P
  stateKey : R → K

/-- The executor's state: the state table and the partition cache. -/
structure State (P K V R : Type) where
  stateTable : List R
  partitions : P → Option (Partition K V R)

/-- A message of the input; a barrier names the partitions the cache evicts. -/
inductive Message (P R : Type) where
  | chunk (rows : List (Op × R))
  | watermark
  | barrier (evicted : P → Bool)

namespace Executor

variable {P K V R : Type} [DecidableEq P] [LinearOrder K] (exec : Executor P K V R)

/-- Each call's state fed one row, with the call's arguments. -/
def feed (states : WindowStates K V) (row : R) : WindowStates K V :=
  ⟨List.zipWith (fun call state => state.append (exec.stateKey row) (call.args row)) exec.calls
    states.states⟩

/-- The window states of a new partition: `create_window_state` of each call. -/
def newStates : Option (WindowStates K V) := do
  let states ← exec.calls.mapM fun call => (createWindowState call).bind Except.toOption
  WindowStates.new states

/-- The `while are_ready()` loop of `ensure_key_in_cache`: the rows whose outputs were given
before the partition left the cache are passed over. With no row left the states would go on
sliding; that never happens, and is `none`. -/
def skipReady : WindowStates K V → List R → Option (Partition K V R)
  | states, [] => if states.areReady then none else some ⟨states, []⟩
  | states, row :: rows =>
    if states.areReady then do
      let states ← states.justSlideForward
      skipReady states rows
    else some ⟨states, row :: rows⟩

/-- The rows of a partition in the state table, as `iter_with_pk_prefix` gives them. -/
def partitionRows (table : List R) (p : P) : List R :=
  table.filter fun row => exec.partitionKey row = p

/-- `ensure_key_in_cache`. -/
def ensureKeyInCache (st : State P K V R) (p : P) : Option (State P K V R) :=
  if (st.partitions p).isSome then some st
  else do
    let states ← exec.newStates
    let rows := exec.partitionRows st.stateTable p
    let states := rows.foldl exec.feed states
    -- `assert!(partition.states.are_aligned())`
    if states.areAligned then
      let partition ← skipReady states rows
      some { st with partitions := Function.update st.partitions p (some partition) }
    else none

/-- The state table without the partition's rows whose keys a hint lets go. -/
def evict (p : P) : StateEvictHint K → List R → List R
  | .canEvict keys, table =>
    table.filter fun row => !(exec.partitionKey row = p ∧ exec.stateKey row ∈ keys)
  | .cannotEvict _, table => table

/-- The `while are_ready()` loop of `apply_chunk`: each ready row is output with the window
functions' results, and the states slide forward, deleting from the state table what they can
all evict. `pop_front().expect(..)` panics with no row left. -/
def emitReady (p : P) :
    List R → WindowStates K V → List R →
      Option (List (R × List (Option ℤ)) × List R × Partition K V R)
  | table, states, [] =>
    if states.areReady then none else some ([], table, ⟨states, []⟩)
  | table, states, row :: rows =>
    if states.areReady then do
      let output ← states.currOutput
      let (hint, states) ← states.slideForward
      let (outputs, table, partition) ← emitReady p (exec.evict p hint table) states rows
      return ((row, output) :: outputs, table, partition)
    else some ([], table, ⟨states, row :: rows⟩)

/-- One record of `apply_chunk`: only inserts are expected. -/
def applyRecord (st : State P K V R) : Op × R → Option (List (R × List (Option ℤ)) × State P K V R)
  | (.insert, row) => do
    let p := exec.partitionKey row
    let st ← exec.ensureKeyInCache st p
    let partition ← st.partitions p
    let states := exec.feed partition.states row
    let (outputs, table, partition) ←
      exec.emitReady p (st.stateTable ++ [row]) states (partition.currRowBuffer ++ [row])
    return (outputs, ⟨table, Function.update st.partitions p (some partition)⟩)
  | _ => none

/-- `apply_chunk`: the rows output, with the window functions' results, in order. -/
def applyChunk (st : State P K V R) :
    List (Op × R) → Option (List (R × List (Option ℤ)) × State P K V R)
  | [] => some ([], st)
  | record :: records => do
    let (outputs, st) ← exec.applyRecord st record
    let (outputs', st) ← applyChunk st records
    return (outputs ++ outputs', st)

/-- One message of `executor_inner`. -/
def step (st : State P K V R) : Message P R → Option (List (R × List (Option ℤ)) × State P K V R)
  | .chunk rows => exec.applyChunk st rows
  | .watermark => some ([], st)
  | .barrier evicted =>
    some ([], { st with partitions := fun p => if evicted p then none else st.partitions p })

/-- The messages one after the other, from an empty state table and cache. -/
def run (st : State P K V R) : List (Message P R) → Option (List (R × List (Option ℤ)) × State P K V R)
  | [] => some ([], st)
  | msg :: msgs => do
    let (outputs, st) ← exec.step st msg
    let (outputs', st) ← run st msgs
    return (outputs ++ outputs', st)

end Executor

end RisingWave.Stream.EowcOverWindow
