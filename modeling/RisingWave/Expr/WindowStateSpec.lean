import RisingWave.Expr.WindowState
import RisingWave.Expr.WindowBufferSpec

/-!
# Window states refine their windows

After the rows of a partition were appended and `c` slides made, a row number state holds the
keys from row `c` on and the number `c + 1`; an aggregate state's buffer refines its frame's
window (`WindowBuffer.Refines`) and has drained the rows before `frameLeft (start) c c`, the first
row that the frame of row `c` or row `c` itself needs. From that, `curr_window` and `curr_output`
are those of row `c`, and `slide_forward` gives as hint the keys drained, or the first key kept
(`StateEvictHint.ofDrain`). `WindowStates.Refines` says this of every call's state at once.
-/

namespace RisingWave.Expr

open FrameBound

/-- Once the current row exists, how many rows the buffer keeps no longer depends on how many
there are. -/
theorem Frame.neededFrom_eq (f : Frame) {c len : ℕ} (h : c + 1 ≤ len) :
    f.neededFrom c len = f.start.frameLeft (c + 1) (c + 1) := by
  unfold Frame.neededFrom
  cases f.start <;> simp only [frameLeft] <;> omega

/-! ## Merging hints -/

namespace StateEvictHint

variable {K : Type} [LinearOrder K]

/-- The keys a hint lets go. -/
def keys : StateEvictHint K → Finset K
  | canEvict keys => keys
  | cannotEvict _ => ∅

/-- The hint of a state that drains the keys `ks` from the `r`-th up to the `r'`-th: those keys,
or, when it drains none, the `r`-th key, the first it keeps. -/
def ofDrain (ks : List K) (r r' : ℕ) : Option (StateEvictHint K) :=
  if r' ≤ r then ks[r]?.map cannotEvict else some (canEvict ((ks.drop r).take (r' - r)).toFinset)

theorem merge_canEvict_self {S : Finset K} (hS : S.Nonempty) :
    merge (canEvict S) (canEvict S) = some (canEvict S) := by
  have hle : S.filter (· ≤ S.max' hS) = S := Finset.filter_true_of_mem fun k hk => S.le_max' k hk
  simp only [merge, dif_pos hS, min_self, hle, Finset.union_self]

theorem merge_cannotEvict_self (k : K) : merge (cannotEvict k) (cannotEvict k) = some (cannotEvict k) := by
  simp only [merge, min_self]

/-- A drain hint of a state that keeps some key merges with itself into itself. -/
theorem merge_self_of_ofDrain {ks : List K} {r r' : ℕ} {h : StateEvictHint K} (hr : r < ks.length)
    (hd : ofDrain ks r r' = some h) : merge h h = some h := by
  unfold ofDrain at hd
  split_ifs at hd with hle
  · obtain ⟨k, -, rfl⟩ := Option.map_eq_some_iff.mp hd
    exact merge_cannotEvict_self k
  · obtain rfl := Option.some.inj hd
    refine merge_canEvict_self ?_
    rw [List.toFinset_nonempty_iff, ne_eq, List.take_eq_nil_iff, List.drop_eq_nil_iff]
    omega

/-- The keys a drain hint lets go: those drained. -/
theorem keys_ofDrain {ks : List K} {r r' : ℕ} {h : StateEvictHint K} (hd : ofDrain ks r r' = some h) :
    h.keys = ((ks.drop r).take (r' - r)).toFinset := by
  unfold ofDrain at hd
  split_ifs at hd with hle
  · obtain ⟨k, -, rfl⟩ := Option.map_eq_some_iff.mp hd
    rw [Nat.sub_eq_zero_of_le hle, List.take_zero, List.toFinset_nil]
    rfl
  · obtain rfl := Option.some.inj hd
    rfl

/-- The hint lets go no key from `k₀` on. -/
def Below (k₀ : K) (h : StateEvictHint K) : Prop := ∀ k ∈ h.keys, k < k₀

theorem below_merge_cannotEvict (h : StateEvictHint K) (k₀ : K) :
    ∃ h', merge h (cannotEvict k₀) = some h' ∧ h'.Below k₀ := by
  cases h with
  | canEvict T => exact ⟨_, rfl, fun k hk => (Finset.mem_filter.mp hk).2⟩
  | cannotEvict k => exact ⟨_, rfl, fun k hk => absurd hk (Finset.notMem_empty k)⟩

theorem below_cannotEvict_merge (h : StateEvictHint K) (k₀ : K) :
    ∃ h', merge (cannotEvict k₀) h = some h' ∧ h'.Below k₀ := by
  cases h with
  | canEvict T => exact ⟨_, rfl, fun k hk => (Finset.mem_filter.mp hk).2⟩
  | cannotEvict k => exact ⟨_, rfl, fun k hk => absurd hk (Finset.notMem_empty k)⟩

/-- A hint merged with itself any number of times. -/
theorem foldlM_merge_self {h : StateEvictHint K} (hh : merge h h = some h) (n : ℕ) :
    (List.replicate n h).foldlM merge h = some h := by
  induction n with
  | zero => rfl
  | succ n ih => rw [List.replicate_succ, List.foldlM_cons, hh]; exact ih

/-- Merging `cannotEvict k₀` into a hint that lets go nothing from `k₀` on keeps it so. -/
theorem foldlM_merge_cannotEvict (k₀ : K) (n : ℕ) {h : StateEvictHint K} (hb : h.Below k₀) :
    ∃ h', (List.replicate n (cannotEvict k₀)).foldlM merge h = some h' ∧ h'.Below k₀ := by
  induction n generalizing h with
  | zero => exact ⟨h, rfl, hb⟩
  | succ n ih =>
    obtain ⟨h₁, hm, hb₁⟩ := below_merge_cannotEvict h k₀
    rw [List.replicate_succ, List.foldlM_cons, hm]
    exact ih hb₁

end StateEvictHint

/-! ## Row numbers -/

namespace RowNumberState

variable {K : Type} {s : RowNumberState K} {ks : List K} {c : ℕ}

/-- The row number state after the keys `ks` were appended and `c` slides made. -/
structure Refines (s : RowNumberState K) (ks : List K) (c : ℕ) : Prop where
  firstKey_eq : s.firstKey = ks.head?
  buffer_eq : s.buffer = ks.drop c
  currRowNumber_eq : s.currRowNumber = Int64.ofNat (c + 1)
  le_length : c ≤ ks.length

theorem refines_new : Refines (new : RowNumberState K) [] 0 := ⟨rfl, rfl, rfl, le_rfl⟩

theorem Refines.append (h : Refines s ks c) (key : K) : Refines (s.append key) (ks ++ [key]) c := by
  refine ⟨?_, ?_, h.currRowNumber_eq, by simp only [List.length_append]; have := h.le_length; omega⟩
  · -- the first key is set by the first append only
    cases ks with
    | nil => simp [RowNumberState.append, h.firstKey_eq]
    | cons k ks => simp [RowNumberState.append, h.firstKey_eq]
  · simp only [RowNumberState.append, h.buffer_eq, List.drop_append_of_le_length h.le_length]

theorem Refines.currWindow_eq (h : Refines s ks c) :
    s.currWindow = ⟨ks[c]?, decide (c < ks.length)⟩ := by
  have hkey : s.buffer.head? = ks[c]? := by rw [h.buffer_eq, List.head?_drop]
  rw [currWindow, hkey]
  by_cases hc : c < ks.length <;> simp [hc]

theorem Refines.currOutput_eq (h : Refines s ks c) (hc : c < 2 ^ 62) :
    s.currOutput = some (if c < ks.length then some ((c : ℤ) + 1) else none) := by
  rw [currOutput, h.currWindow_eq, h.currRowNumber_eq, Int64.toInt_ofNat_of_lt (by omega)]
  simp

/-- Sliding past an existing row keeps the first key, which the state still needs. -/
theorem Refines.slideForward (h : Refines s ks c) (hc : c < ks.length) :
    ∃ s', s.slideForward = (ks.head?.map StateEvictHint.cannotEvict).map (·, s') ∧
      Refines s' ks (c + 1) := by
  have hbuf : s.buffer = ks[c] :: ks.drop (c + 1) := by
    rw [h.buffer_eq, List.drop_eq_getElem_cons hc]
  obtain ⟨k₀, hk₀⟩ : ∃ k₀, ks.head? = some k₀ := ⟨ks[0], by
    rw [List.head?_eq_getElem?, List.getElem?_eq_getElem (by omega)]⟩
  refine ⟨{ s with buffer := ks.drop (c + 1), currRowNumber := s.currRowNumber + 1 }, ?_, ?_⟩
  · rw [RowNumberState.slideForward, hbuf, h.firstKey_eq, hk₀]
    rfl
  · refine ⟨h.firstKey_eq, rfl, ?_, hc⟩
    show s.currRowNumber + 1 = _
    rw [h.currRowNumber_eq, Int64.ofNat_add (c + 1) 1]
    rfl

end RowNumberState

/-! ## Aggregates -/

namespace AggregateState

variable {K V : Type} {s : AggregateState K V} {agg : List V → Option ℤ} {f : Frame}
  {A : List (Entry K V)} {c : ℕ}

/-- The aggregate state of a call after the entries `A` were appended and `c` slides made: it
aggregates with `agg` over the frame `f`, and its buffer has drained the rows before the first one
that the frame of row `c` or row `c` itself needs. -/
structure Refines (s : AggregateState K V) (agg : List V → Option ℤ) (f : Frame)
    (A : List (Entry K V)) (c : ℕ) : Prop where
  aggregate_eq : s.aggregate = agg
  frame_eq : s.buffer.frame = f
  buffer_refines : s.buffer.Refines A c (f.start.frameLeft c c)
  le_length : c ≤ A.length

theorem new_refines (hv : f.bounds.isValid = true) :
    ∃ s, (AggregateState.new f agg : Except ExprError (AggregateState K V)) = .ok s ∧
      Refines s agg f [] 0 := by
  obtain ⟨w, hnew, -, hw⟩ := @WindowBuffer.new_refines K V f hv
  rw [WindowBuffer.new, if_pos hv, Option.some.injEq] at hnew
  subst hnew
  refine ⟨_, by rw [AggregateState.new, if_pos hv], rfl, rfl, ?_, le_rfl⟩
  rwa [Nat.le_zero.mp (frameLeft_le f.start 0 0)]

theorem Refines.append (h : Refines s agg f A c) (hf : f.Fits) (hc : c < 2 ^ 62) (key : K)
    (value : V) : Refines (s.append key value) agg f (A ++ [⟨key, value⟩]) c := by
  refine ⟨h.aggregate_eq, ?_, ?_, by simp only [List.length_append]; have := h.le_length; omega⟩
  · rw [AggregateState.append, WindowBuffer.frame_append, h.frame_eq]
  · exact h.buffer_refines.append (h.frame_eq ▸ hf) hc key value

theorem Refines.currWindow_eq (h : Refines s agg f A c) (hf : f.Fits) :
    s.currWindow = ⟨A[c]?.map Entry.key, decide (c < A.length) && f.end_.endReached c A.length⟩ := by
  rw [currWindow, h.buffer_refines.currWindow_eq (h.frame_eq ▸ hf), h.frame_eq]

theorem Refines.currOutput_eq (h : Refines s agg f A c) (hf : f.Fits) :
    s.currOutput = some (agg (f.windowValues A c)) := by
  rw [currOutput, h.buffer_refines.currWindowValues_eq (h.frame_eq ▸ hf), h.frame_eq,
    h.aggregate_eq]
  rfl

variable [LinearOrder K]

/-- Sliding past an existing row drains the rows up to the one the frame of the next row starts
at, or the next row itself, and hints their keys, or the first key kept when there are none. -/
theorem Refines.slideForward (h : Refines s agg f A c) (hf : f.Fits) (hc : c < A.length)
    (hA : A.length < 2 ^ 62) :
    ∃ s', s.slideForward = (StateEvictHint.ofDrain (A.map Entry.key) (f.start.frameLeft c c)
        (f.start.frameLeft (c + 1) (c + 1))).map (·, s') ∧ Refines s' agg f A (c + 1) := by
  have hw := h.buffer_refines
  have hf' : s.buffer.frame.Fits := h.frame_eq ▸ hf
  obtain ⟨w', hs, hfr, hw'⟩ := hw.slide hf' (by omega) hA
  have hr := hw.le_neededFrom
  rw [h.frame_eq, Frame.neededFrom_eq f (by omega)] at hs hw' hr
  -- the rows drained, and what is left of them as a finite set of keys
  set r := f.start.frameLeft c c
  set r' := f.start.frameLeft (c + 1) (c + 1)
  have hkeys : (((A.drop r).take (r' - r)).map fun e => (e.key, e.value)).map Prod.fst =
      ((A.map Entry.key).drop r).take (r' - r) := by
    rw [List.map_map, ← List.map_drop, ← List.map_take]
    rfl
  have hrc : r ≤ c := by have := hw.currIdx_add; omega
  refine ⟨{ s with buffer := w' }, ?_, h.aggregate_eq, hfr.trans h.frame_eq, hw',
    by have := h.le_length; omega⟩
  unfold AggregateState.slideForward
  rw [hs, Option.bind_eq_bind, Option.bind_some]
  dsimp only
  rw [hkeys]
  by_cases hdrain : r' ≤ r
  · -- nothing drained: the first key kept is the `r`-th
    have hrr : r' = r := le_antisymm hdrain hr
    have hsmall := hw'.smallestKey_eq
    rw [hrr] at hsmall
    rw [StateEvictHint.ofDrain, if_pos hdrain, Nat.sub_eq_zero_of_le hdrain, List.take_zero,
      List.toFinset_nil, if_pos rfl, hsmall, List.getElem?_map]
    rw [List.getElem?_eq_getElem (by omega)]
    rfl
  · have hne : ((A.map Entry.key).drop r).take (r' - r) ≠ [] := by
      rw [ne_eq, List.take_eq_nil_iff, List.drop_eq_nil_iff, List.length_map]
      omega
    rw [StateEvictHint.ofDrain, if_neg hdrain, if_neg (by rwa [List.toFinset_eq_empty_iff])]
    rfl

end AggregateState

/-! ## A call's state -/

namespace WindowFuncCall

variable {K V R : Type} (call : WindowFuncCall R V) (stateKey : R → K)

/-- The entries of the call's buffer for some rows: their state keys and the call's arguments. -/
def entries (rows : List R) : List (Entry K V) := rows.map fun row => ⟨stateKey row, call.args row⟩

/-- Whether the call's output for row `c` of `n` rows is ready: the row exists and, for an
aggregate, so does the last row of its frame. -/
def isReadyAt (n c : ℕ) : Bool :=
  decide (c < n) && match call.kind with
    | .aggregate _ => call.frame.end_.endReached c n
    | _ => true

/-- The call's output for row `c` of the rows: the row's number, or the aggregate of its window. -/
def outputAt (rows : List R) (c : ℕ) : Option ℤ :=
  match call.kind with
  | .rowNumber => if c < rows.length then some ((c : ℤ) + 1) else none
  | .aggregate agg => agg (call.frame.windowValues (call.entries stateKey rows) c)
  | _ => none

variable [LinearOrder K]

/-- The hint of the call's state sliding past row `c` of the rows. -/
def hintAt (rows : List R) (c : ℕ) : Option (StateEvictHint K) :=
  match call.kind with
  | .rowNumber => (rows.head?.map stateKey).map .cannotEvict
  | .aggregate _ => StateEvictHint.ofDrain (rows.map stateKey)
      (call.frame.start.frameLeft c c) (call.frame.start.frameLeft (c + 1) (c + 1))
  | _ => none

end WindowFuncCall

namespace WindowState

variable {K V R : Type} {call : WindowFuncCall R V} {stateKey : R → K} {st : WindowState K V}
  {rows : List R} {c : ℕ}

/-- The state of the call `call` after the rows `rows` were appended and `c` slides made. -/
def Refines (call : WindowFuncCall R V) (stateKey : R → K) :
    WindowState K V → List R → ℕ → Prop
  | rowNumber s, rows, c => call.kind = .rowNumber ∧ s.Refines (rows.map stateKey) c
  | aggregate s, rows, c => ∃ agg, call.kind = .aggregate agg ∧ call.frame.Fits ∧
      s.Refines agg call.frame (call.entries stateKey rows) c

theorem Refines.append (h : st.Refines call stateKey rows c) (hc : c < 2 ^ 62) (row : R) :
    (st.append (stateKey row) (call.args row)).Refines call stateKey (rows ++ [row]) c := by
  cases st with
  | rowNumber s =>
    obtain ⟨hk, hs⟩ := h
    refine ⟨hk, ?_⟩
    rw [List.map_append, List.map_singleton]
    exact hs.append _
  | aggregate s =>
    obtain ⟨agg, hk, hf, hs⟩ := h
    refine ⟨agg, hk, hf, ?_⟩
    rw [WindowFuncCall.entries, List.map_append, List.map_singleton]
    exact hs.append hf hc _ _

theorem Refines.currWindow_key (h : st.Refines call stateKey rows c) :
    st.currWindow.key = rows[c]?.map stateKey := by
  cases st with
  | rowNumber s =>
    rw [currWindow, h.2.currWindow_eq, List.getElem?_map]
  | aggregate s =>
    obtain ⟨agg, -, hf, hs⟩ := h
    rw [currWindow, hs.currWindow_eq hf, WindowFuncCall.entries, List.getElem?_map,
      Option.map_map]
    rfl

theorem Refines.currWindow_isReady (h : st.Refines call stateKey rows c) :
    st.currWindow.isReady = call.isReadyAt rows.length c := by
  cases st with
  | rowNumber s =>
    rw [currWindow, h.2.currWindow_eq, WindowFuncCall.isReadyAt, h.1, List.length_map,
      Bool.and_true]
  | aggregate s =>
    obtain ⟨agg, hk, hf, hs⟩ := h
    rw [currWindow, hs.currWindow_eq hf, WindowFuncCall.isReadyAt, hk, WindowFuncCall.entries,
      List.length_map]

theorem Refines.currOutput_eq (h : st.Refines call stateKey rows c) (hc : c < 2 ^ 62) :
    st.currOutput = some (call.outputAt stateKey rows c) := by
  cases st with
  | rowNumber s =>
    rw [currOutput, h.2.currOutput_eq hc, WindowFuncCall.outputAt, h.1, List.length_map]
  | aggregate s =>
    obtain ⟨agg, hk, hf, hs⟩ := h
    rw [currOutput, hs.currOutput_eq hf, WindowFuncCall.outputAt, hk]

variable [LinearOrder K]

/-- Sliding past an existing row gives the call's hint and keeps the invariant at the next row. -/
theorem Refines.slideForward (h : st.Refines call stateKey rows c) (hc : c < rows.length)
    (hlen : rows.length < 2 ^ 62) :
    ∃ hint st', call.hintAt stateKey rows c = some hint ∧ st.slideForward = some (hint, st') ∧
      st'.Refines call stateKey rows (c + 1) := by
  cases st with
  | rowNumber s =>
    obtain ⟨hk, hs⟩ := h
    obtain ⟨s', hslide, hs'⟩ := hs.slideForward (by rwa [List.length_map])
    obtain ⟨k₀, hk₀⟩ : ∃ k₀, rows.head? = some k₀ := ⟨rows[0], by
      rw [List.head?_eq_getElem?, List.getElem?_eq_getElem (by omega)]⟩
    rw [List.head?_map, hk₀] at hslide
    refine ⟨_, rowNumber s', by rw [WindowFuncCall.hintAt, hk, hk₀]; rfl, ?_, hk, hs'⟩
    rw [WindowState.slideForward, hslide]
    rfl
  | aggregate s =>
    obtain ⟨agg, hk, hf, hs⟩ := h
    have hlen' : (call.entries stateKey rows).length = rows.length := List.length_map _
    obtain ⟨s', hslide, hs'⟩ := hs.slideForward hf (by omega) (by omega)
    have hkeys : (call.entries stateKey rows).map Entry.key = rows.map stateKey := by
      rw [WindowFuncCall.entries, List.map_map]
      rfl
    rw [hkeys] at hslide
    -- the hint exists: the `r`-th key does, as `r` is at most `c`
    obtain ⟨hint, hhint⟩ : ∃ hint, StateEvictHint.ofDrain (rows.map stateKey)
        (call.frame.start.frameLeft c c) (call.frame.start.frameLeft (c + 1) (c + 1)) =
          some hint := by
      have hr : call.frame.start.frameLeft c c < rows.length :=
        lt_of_le_of_lt (frameLeft_le _ _ _) hc
      unfold StateEvictHint.ofDrain
      split_ifs
      · exact ⟨_, by rw [List.getElem?_map, List.getElem?_eq_getElem hr]; rfl⟩
      · exact ⟨_, rfl⟩
    rw [hhint] at hslide
    refine ⟨hint, aggregate s', by rw [WindowFuncCall.hintAt, hk, hhint], ?_, agg, hk, hf, hs'⟩
    rw [WindowState.slideForward, hslide]
    rfl

end WindowState

/-! ## The states of a partition -/

namespace WindowStates

variable {K V R : Type} {calls : List (WindowFuncCall R V)} {stateKey : R → K}
  {states : WindowStates K V} {rows : List R} {c : ℕ}

/-- Every call's state after the rows `rows` were appended and `c` slides made. -/
def Refines (calls : List (WindowFuncCall R V)) (stateKey : R → K) (states : WindowStates K V)
    (rows : List R) (c : ℕ) : Prop :=
  List.Forall₂ (fun call st => st.Refines call stateKey rows c) calls states.states

theorem Refines.feed (h : states.Refines calls stateKey rows c) (hc : c < 2 ^ 62) (row : R) :
    Refines calls stateKey
      ⟨List.zipWith (fun call st => st.append (stateKey row) (call.args row)) calls states.states⟩
      (rows ++ [row]) c := by
  obtain ⟨sts⟩ := states
  unfold Refines at h ⊢
  dsimp only at h ⊢
  induction h with
  | nil => exact .nil
  | cons hst _ ih => exact .cons (hst.append hc row) ih

theorem Refines.map_key (h : states.Refines calls stateKey rows c) :
    states.states.map (fun st => st.currWindow.key) =
      List.replicate calls.length (rows[c]?.map stateKey) := by
  obtain ⟨sts⟩ := states
  unfold Refines at h
  dsimp only at h ⊢
  induction h with
  | nil => rfl
  | cons hst _ ih => rw [List.map_cons, ih, hst.currWindow_key]; rfl

theorem allEqual_replicate {α : Type} [DecidableEq α] (n : ℕ) (a : α) :
    allEqual (List.replicate n a) = true := by
  cases n with
  | zero => rfl
  | succ n => simp [allEqual, List.replicate_succ]

theorem Refines.areAligned [DecidableEq K] (h : states.Refines calls stateKey rows c) :
    states.areAligned = true := by
  rw [WindowStates.areAligned, h.map_key, allEqual_replicate]

theorem Refines.areReady (h : states.Refines calls stateKey rows c) :
    states.areReady = calls.all fun call => call.isReadyAt rows.length c := by
  obtain ⟨sts⟩ := states
  unfold Refines at h
  rw [WindowStates.areReady]
  dsimp only at h ⊢
  induction h with
  | nil => rfl
  | cons hst _ ih => rw [List.all_cons, List.all_cons, hst.currWindow_isReady, ih]

theorem Refines.currOutput (h : states.Refines calls stateKey rows c) (hc : c < 2 ^ 62) :
    states.currOutput = some (calls.map fun call => call.outputAt stateKey rows c) := by
  obtain ⟨sts⟩ := states
  unfold Refines at h
  rw [WindowStates.currOutput]
  dsimp only at h ⊢
  induction h with
  | nil => rfl
  | cons hst _ ih => rw [List.mapM_cons, hst.currOutput_eq hc, ih]; rfl

variable [LinearOrder K]

/-- Sliding every state past an existing row: the calls' hints, and the states at the next row. -/
theorem Refines.mapM_slideForward (h : states.Refines calls stateKey rows c) (hc : c < rows.length)
    (hlen : rows.length < 2 ^ 62) :
    ∃ hints sts, calls.mapM (fun call => call.hintAt stateKey rows c) = some hints ∧
      states.states.mapM WindowState.slideForward = some (hints.zip sts) ∧
      hints.length = sts.length ∧ Refines calls stateKey ⟨sts⟩ rows (c + 1) := by
  obtain ⟨sts⟩ := states
  unfold Refines at h ⊢
  dsimp only at h ⊢
  induction h with
  | nil => exact ⟨[], [], rfl, rfl, rfl, .nil⟩
  | @cons call st calls sts hst _ ih =>
    obtain ⟨hint, st', hhint, hslide, hst'⟩ := hst.slideForward hc hlen
    obtain ⟨hints, sts', hhints, hslides, hlen', hsts'⟩ := ih
    refine ⟨hint :: hints, st' :: sts', ?_, ?_, by simp [hlen'], .cons hst' hsts'⟩
    · rw [List.mapM_cons, hhint, hhints]
      rfl
    · rw [List.mapM_cons, hslide, hslides]
      rfl

theorem Refines.slideForward (h : states.Refines calls stateKey rows c) (hc : c < rows.length)
    (hlen : rows.length < 2 ^ 62) :
    ∃ hints states', calls.mapM (fun call => call.hintAt stateKey rows c) = some hints ∧
      states.slideForward = (reduceMerge hints).map (·, states') ∧
      states'.Refines calls stateKey rows (c + 1) := by
  obtain ⟨hints, sts, hhints, hslides, hlen', hsts⟩ := h.mapM_slideForward hc hlen
  refine ⟨hints, ⟨sts⟩, hhints, ?_, hsts⟩
  rw [WindowStates.slideForward, hslides, Option.bind_eq_bind, Option.bind_some,
    List.map_fst_zip hlen'.le, List.map_snd_zip hlen'.ge]
  cases reduceMerge hints <;> rfl

theorem Refines.justSlideForward (h : states.Refines calls stateKey rows c) (hc : c < rows.length)
    (hlen : rows.length < 2 ^ 62) :
    ∃ states', states.justSlideForward = some states' ∧
      states'.Refines calls stateKey rows (c + 1) := by
  obtain ⟨hints, sts, -, hslides, hlen', hsts⟩ := h.mapM_slideForward hc hlen
  refine ⟨⟨sts⟩, ?_, hsts⟩
  rw [WindowStates.justSlideForward, hslides, Option.bind_eq_bind, Option.bind_some,
    List.map_snd_zip hlen'.ge]
  rfl

/-- Hints that are all one hint, which merges with itself into itself. -/
theorem reduceMerge_replicate {h : StateEvictHint K} (hh : StateEvictHint.merge h h = some h)
    (n : ℕ) : reduceMerge (List.replicate (n + 1) h) = some h := by
  rw [List.replicate_succ, reduceMerge, StateEvictHint.foldlM_merge_self hh]

/-- Hints that are `cannotEvict k₀` but for one, with at least one of them: merged, they let go no
key from `k₀` on. -/
theorem reduceMerge_cannotEvict (k₀ : K) (h : StateEvictHint K) {a b : ℕ} (hab : 0 < a + b) :
    ∃ h', reduceMerge (List.replicate a (.cannotEvict k₀) ++ h :: List.replicate b (.cannotEvict k₀))
      = some h' ∧ h'.Below k₀ := by
  cases a with
  | zero =>
    -- the one hint first, then at least one `cannotEvict k₀`
    obtain ⟨b, rfl⟩ : ∃ b', b = b' + 1 := ⟨b - 1, by omega⟩
    obtain ⟨h₁, hm, hb⟩ := StateEvictHint.below_merge_cannotEvict h k₀
    rw [List.replicate_zero, List.nil_append, reduceMerge, List.replicate_succ,
      List.foldlM_cons, hm]
    exact StateEvictHint.foldlM_merge_cannotEvict k₀ b hb
  | succ a =>
    -- `cannotEvict k₀` merged with itself, then with the one hint, then with the rest
    obtain ⟨h₁, hm, hb⟩ := StateEvictHint.below_cannotEvict_merge h k₀
    rw [List.replicate_succ, List.cons_append, reduceMerge, List.foldlM_append,
      StateEvictHint.foldlM_merge_self (StateEvictHint.merge_cannotEvict_self k₀)]
    simp only [Option.bind_eq_bind, Option.bind_some, List.foldlM_cons, hm]
    exact StateEvictHint.foldlM_merge_cannotEvict k₀ b hb

end WindowStates

/-! ## Rows that arrive later -/

theorem frameRight_of_endReached {e : FrameBound ℕ} {c n n' : ℕ} (he : e.endReached c n = true)
    (hne : e ≠ .unboundedPreceding) (hc : c < n) (hn : n ≤ n') :
    e.frameRight c n' = e.frameRight c n := by
  cases e <;> simp_all [endReached, frameRight] <;> omega

theorem frameLeft_eq_of_le {s : FrameBound ℕ} {c n n' : ℕ} (h : s.frameLeft c n' ≤ n)
    (hn : n ≤ n') : s.frameLeft c n = s.frameLeft c n' := by
  cases s <;> simp only [frameLeft] at h ⊢ <;> omega

/-- Rows after the last row of a frame change nothing in its window. -/
theorem Frame.windowValues_append {K V : Type} {f : Frame} (hf : f.Fits) {A B : List (Entry K V)}
    {c : ℕ} (hc : c < A.length) (he : f.end_.endReached c A.length = true) :
    f.windowValues (A ++ B) c = f.windowValues A c := by
  obtain ⟨-, hne, hLR⟩ := hf.rows
  have hn : A.length ≤ (A ++ B).length := by simp
  have hR := frameRight_of_endReached he hne hc hn
  have hRA := frameRight_le f.end_ c A.length
  have hL := frameLeft_eq_of_le ((hLR c _).trans (hR ▸ hRA)) hn
  have hLR' := hLR c (A ++ B).length
  rw [hR] at hLR'
  unfold Frame.windowValues
  rw [Frame.filter_contains hf, Frame.filter_contains hf, hR, ← hL]
  refine List.filterMap_congr fun i hi => ?_
  have hi' := (List.mem_range'_1.mp (List.mem_of_mem_filter hi)).2
  rw [List.getElem?_append_left (by omega)]

namespace WindowFuncCall

variable {K V R : Type} {call : WindowFuncCall R V}

theorem lt_of_isReadyAt {n c : ℕ} (h : call.isReadyAt n c = true) : c < n := by
  unfold isReadyAt at h
  rw [Bool.and_eq_true, decide_eq_true_eq] at h
  exact h.1

theorem isReadyAt_of_le {n c c' : ℕ} (h : call.isReadyAt n c' = true) (hc : c ≤ c') :
    call.isReadyAt n c = true := by
  unfold isReadyAt at h ⊢
  obtain ⟨kind, args, frame⟩ := call
  simp only [Bool.and_eq_true, decide_eq_true_eq] at h ⊢
  refine ⟨by omega, ?_⟩
  cases kind <;> try rfl
  dsimp only at h ⊢
  -- only an end some rows following waits for later rows
  cases hend : frame.end_ with
  | following k => simp only [hend, endReached, decide_eq_true_eq] at h ⊢; omega
  | unboundedFollowing => simp [hend, endReached] at h
  | _ => rfl

theorem isReadyAt_of_length_le {n n' c : ℕ} (h : call.isReadyAt n c = true) (hn : n ≤ n') :
    call.isReadyAt n' c = true := by
  unfold isReadyAt at h ⊢
  obtain ⟨kind, args, frame⟩ := call
  simp only [Bool.and_eq_true, decide_eq_true_eq] at h ⊢
  refine ⟨by omega, ?_⟩
  cases kind <;> try rfl
  dsimp only at h ⊢
  cases hend : frame.end_ with
  | following k => simp only [hend, endReached, decide_eq_true_eq] at h ⊢; omega
  | unboundedFollowing => simp [hend, endReached] at h
  | _ => rfl

/-- Readiness over the rows from the `b`-th on is readiness over all of them, moved up by `b`. -/
theorem isReadyAt_sub {n b c : ℕ} (hb : b ≤ n) :
    call.isReadyAt (n - b) c = call.isReadyAt n (c + b) := by
  unfold isReadyAt
  obtain ⟨kind, args, frame⟩ := call
  have hlt : decide (c < n - b) = decide (c + b < n) := decide_eq_decide.mpr (by omega)
  rw [hlt]
  cases kind <;> try rfl
  dsimp only
  cases frame.end_ with
  | following k =>
    simp only [endReached]
    rw [decide_eq_decide.mpr (show c + k < n - b ↔ c + b + k < n by omega)]
  | _ => rfl

/-- A call's output for a ready row stays the same as rows arrive. -/
theorem outputAt_append (hf : call.frame.Fits) (stateKey : R → K) {rows : List R} {c : ℕ}
    (h : call.isReadyAt rows.length c = true) (more : List R) :
    call.outputAt stateKey (rows ++ more) c = call.outputAt stateKey rows c := by
  unfold isReadyAt at h
  unfold outputAt
  obtain ⟨kind, args, frame⟩ := call
  simp only [Bool.and_eq_true, decide_eq_true_eq] at h
  cases kind with
  | rowNumber => simp only [List.length_append]; rw [if_pos (by omega), if_pos h.1]
  | aggregate agg =>
    dsimp only
    rw [entries, List.map_append, Frame.windowValues_append hf (by simpa using h.1)
      (by simpa using h.2)]
    rfl
  | _ => rfl

end WindowFuncCall

/-! ## States built over the rows left -/

/-- The first row of a frame among rows from the `b`-th on, moved up by `b`, when the frame starts
at or after it. -/
theorem frameLeft_add {s : FrameBound ℕ} {b c n : ℕ} (hb : b ≤ s.frameLeft (c + b) n)
    (hn : b ≤ n) : s.frameLeft c (n - b) + b = s.frameLeft (c + b) n := by
  cases s <;> simp only [frameLeft] at hb ⊢ <;> omega

theorem frameRight_add {e : FrameBound ℕ} {b c n : ℕ} (hb : b ≤ e.frameRight (c + b) n)
    (hn : b ≤ n) : e.frameRight c (n - b) + b = e.frameRight (c + b) n := by
  cases e <;> simp only [frameRight] at hb ⊢ <;> omega

/-- A buffer over the entries from the `b`-th on is one over all of them that drained `b` more,
when the frame of its current row starts at or after the `b`-th. -/
theorem WindowBuffer.Refines.shift {K V : Type} {w : WindowBuffer K V} {A : List (Entry K V)}
    {b c r : ℕ} (hw : w.Refines (A.drop b) c r) (hf : w.frame.Fits)
    (hb : b ≤ w.frame.start.frameLeft (c + b) A.length) : w.Refines A (c + b) (r + b) := by
  have hbA : b ≤ A.length := hb.trans (frameLeft_le _ _ _)
  have hbR : b ≤ w.frame.end_.frameRight (c + b) A.length := hb.trans (hf.rows.2.2 _ _)
  have hl := frameLeft_add hb hbA
  have hr := frameRight_add hbR hbA
  have hcurr := hw.currIdx_add
  have hdrained := hw.drained_le
  have hleft := hw.leftIdx_add
  have hright := hw.rightExclIdx_add
  rw [List.length_drop] at hdrained hleft hright
  refine ⟨?_, by omega, by omega, by omega, by omega⟩
  rw [hw.buffer_eq, List.drop_drop, Nat.add_comm]

namespace AggregateState

variable {K V : Type} {s : AggregateState K V} {agg : List V → Option ℤ} {f : Frame}
  {A : List (Entry K V)} {b c : ℕ}

theorem Refines.shift (h : Refines s agg f (A.drop b) c) (hf : f.Fits) (hbA : b ≤ A.length)
    (hb : b ≤ f.start.frameLeft (c + b) (c + b)) : Refines s agg f A (c + b) := by
  have hc := h.le_length
  rw [List.length_drop] at hc
  have hbA : b ≤ f.start.frameLeft (c + b) A.length :=
    hb.trans (frameLeft_mono _ le_rfl (by omega))
  have hshift := h.buffer_refines.shift (h.frame_eq ▸ hf) (h.frame_eq ▸ hbA)
  have hdrain : f.start.frameLeft c c + b = f.start.frameLeft (c + b) (c + b) := by
    have := frameLeft_add hb (Nat.le_add_left b c)
    rwa [Nat.add_sub_cancel] at this
  exact ⟨h.aggregate_eq, h.frame_eq, hdrain ▸ hshift, by omega⟩

end AggregateState

namespace WindowState

variable {K V R : Type} {call : WindowFuncCall R V} {stateKey : R → K} {st : WindowState K V}
  {rows : List R} {b c : ℕ}

/-- A state built over the rows from the `b`-th on is one over all of them: for a row number
nothing was left out, and an aggregate's frame starts at or after the `b`-th row. -/
theorem Refines.shift (h : st.Refines call stateKey (rows.drop b) c) (hb : b ≤ rows.length)
    (hrn : call.kind = .rowNumber → b = 0)
    (hagg : ∀ agg, call.kind = .aggregate agg → b ≤ call.frame.start.frameLeft (c + b) (c + b)) :
    st.Refines call stateKey rows (c + b) := by
  cases st with
  | rowNumber s =>
    obtain ⟨hk, hs⟩ := h
    obtain rfl := hrn hk
    exact ⟨hk, by simpa using hs⟩
  | aggregate s =>
    obtain ⟨agg, hk, hf, hs⟩ := h
    refine ⟨agg, hk, hf, ?_⟩
    rw [WindowFuncCall.entries, List.map_drop] at hs
    exact hs.shift hf (by rwa [List.length_map]) (hagg agg hk)

end WindowState

theorem WindowStates.Refines.shift {K V R : Type} {calls : List (WindowFuncCall R V)}
    {stateKey : R → K} {states : WindowStates K V} {rows : List R} {b c : ℕ}
    (h : states.Refines calls stateKey (rows.drop b) c) (hb : b ≤ rows.length)
    (hrn : ∀ call ∈ calls, call.kind = .rowNumber → b = 0)
    (hagg : ∀ call ∈ calls, ∀ agg, call.kind = .aggregate agg →
      b ≤ call.frame.start.frameLeft (c + b) (c + b)) :
    states.Refines calls stateKey rows (c + b) := by
  obtain ⟨sts⟩ := states
  unfold WindowStates.Refines at h ⊢
  dsimp only at h ⊢
  induction h with
  | nil => exact .nil
  | cons hst _ ih =>
    refine .cons (hst.shift hb (hrn _ List.mem_cons_self) (hagg _ List.mem_cons_self)) ?_
    exact ih (fun call hc => hrn call (List.mem_cons_of_mem _ hc))
      (fun call hc => hagg call (List.mem_cons_of_mem _ hc))

/-! ## Calls whose hints merge -/

theorem mapM_eq_replicate {α β : Type} {f : α → Option β} {b : β} :
    ∀ {l : List α}, (∀ a ∈ l, f a = some b) → l.mapM f = some (List.replicate l.length b)
  | [], _ => rfl
  | a :: l, h => by
    rw [List.mapM_cons, h a List.mem_cons_self,
      mapM_eq_replicate fun a' ha' => h a' (List.mem_cons_of_mem a ha')]
    rfl

/-- A list with at most one member of a kind is made of others, but perhaps for one. -/
theorem exists_split_of_countP_le_one {α : Type} {p : α → Bool} :
    ∀ {l : List α}, l.countP p ≤ 1 →
      (∀ a ∈ l, p a = false) ∨ ∃ l₁ a l₂, l = l₁ ++ a :: l₂ ∧ p a = true ∧ ∀ b ∈ l₁ ++ l₂, p b = false
  | [], _ => .inl fun _ h => absurd h List.not_mem_nil
  | a :: l, h => by
    rw [List.countP_cons] at h
    by_cases ha : p a = true
    · -- `a` is the one: none of the rest is
      have hl : ∀ b ∈ l, p b = false := by
        intro b hb
        have h0 : l.countP p = 0 := by rw [if_pos ha] at h; omega
        exact Bool.eq_false_iff.mpr (List.countP_eq_zero.mp h0 b hb)
      exact .inr ⟨[], a, l, rfl, ha, by simpa using hl⟩
    · rw [if_neg ha] at h
      rcases exists_split_of_countP_le_one (by omega) with hl | ⟨l₁, b, l₂, rfl, hb, hrest⟩
      · exact .inl fun b hb => (List.mem_cons.mp hb).elim (· ▸ Bool.eq_false_iff.mpr ha) (hl b)
      · refine .inr ⟨a :: l₁, b, l₂, rfl, hb, fun x hx => ?_⟩
        rcases List.mem_cons.mp hx with rfl | hx
        · exact Bool.eq_false_iff.mpr ha
        · exact hrest x hx

namespace WindowFuncCall

variable {K V R : Type}

/-- The call is `ROW_NUMBER`. -/
def isRowNumber (call : WindowFuncCall R V) : Bool :=
  match call.kind with
  | .rowNumber => true
  | _ => false

/-- The call is an aggregate. -/
def isAggregate (call : WindowFuncCall R V) : Bool :=
  match call.kind with
  | .aggregate _ => true
  | _ => false

/-- Calls that have states and whose hints merge without a panic: row numbers and aggregates, the
aggregates over frames that start at `start`, and at most one aggregate beside a row number. -/
structure HintsMerge (calls : List (WindowFuncCall R V)) (start : FrameBound ℕ) : Prop where
  kinds : ∀ call ∈ calls, call.isRowNumber = true ∨ call.isAggregate = true
  start_eq : ∀ call ∈ calls, call.isAggregate = true → call.frame.start = start
  one_aggregate : calls.any isRowNumber = true → calls.countP isAggregate ≤ 1

theorem isAggregate_eq_false {call : WindowFuncCall R V} (h : call.isRowNumber = true) :
    call.isAggregate = false := by
  obtain ⟨kind, args, frame⟩ := call
  cases kind <;> simp_all [isRowNumber, isAggregate]

variable [LinearOrder K] {call : WindowFuncCall R V} {stateKey : R → K} {rows : List R} {c : ℕ}

theorem hintAt_of_isRowNumber (h : call.isRowNumber = true) :
    call.hintAt stateKey rows c = (rows.head?.map stateKey).map .cannotEvict := by
  obtain ⟨kind, args, frame⟩ := call
  cases kind <;> simp_all [isRowNumber, hintAt]

theorem hintAt_of_isAggregate (h : call.isAggregate = true) :
    call.hintAt stateKey rows c = StateEvictHint.ofDrain (rows.map stateKey)
      (call.frame.start.frameLeft c c) (call.frame.start.frameLeft (c + 1) (c + 1)) := by
  obtain ⟨kind, args, frame⟩ := call
  cases kind <;> simp_all [isAggregate, hintAt]

/-- Under `HintsMerge`, the hints of the states sliding past an existing row merge without a
panic, and they let a key of the rows go exactly when no call is a row number and the aggregates
drain it. -/
theorem reduceMerge_hintAt {calls : List (WindowFuncCall R V)} {start : FrameBound ℕ}
    (hm : HintsMerge calls start) (hne : calls ≠ []) (hsorted : (rows.map stateKey).Pairwise (· < ·))
    (hc : c < rows.length) {hints : List (StateEvictHint K)}
    (hh : calls.mapM (fun call => call.hintAt stateKey rows c) = some hints) :
    ∃ h, WindowStates.reduceMerge hints = some h ∧ ∀ row ∈ rows,
      (stateKey row ∈ h.keys ↔ calls.any isRowNumber = false ∧
        stateKey row ∈ ((rows.map stateKey).drop (start.frameLeft c c)).take
          (start.frameLeft (c + 1) (c + 1) - start.frameLeft c c)) := by
  have hr : start.frameLeft c c < rows.length := lt_of_le_of_lt (frameLeft_le _ _ _) hc
  by_cases hrn : calls.any isRowNumber = true
  · -- a row number keeps the first key, and the merged hint lets go nothing from it on
    obtain ⟨row₀, rows', rfl⟩ : ∃ row₀ rows', rows = row₀ :: rows' :=
      List.exists_cons_of_length_pos (by omega)
    set k₀ := stateKey row₀
    have hfirst : ∀ row ∈ row₀ :: rows', k₀ ≤ stateKey row := by
      intro row hrow
      rcases List.mem_cons.mp hrow with rfl | hrow
      · exact le_rfl
      · rw [List.map_cons, List.pairwise_cons] at hsorted
        exact (hsorted.1 _ (List.mem_map_of_mem hrow)).le
    have hC : ∀ call ∈ calls, call.isRowNumber = true →
        call.hintAt stateKey (row₀ :: rows') c = some (.cannotEvict k₀) := fun call _ h => by
      rw [hintAt_of_isRowNumber h]
      rfl
    obtain ⟨h, hred, hbelow⟩ : ∃ h, WindowStates.reduceMerge hints = some h ∧ h.Below k₀ := by
      rcases exists_split_of_countP_le_one (hm.one_aggregate hrn) with
        hall | ⟨l₁, x, l₂, rfl, hx, hrest⟩
      · -- row numbers only
        have hrn' : ∀ call ∈ calls, call.isRowNumber = true := fun call hcall =>
          (hm.kinds call hcall).resolve_right (by rw [hall call hcall]; exact Bool.false_ne_true)
        rw [mapM_eq_replicate fun call hcall => hC call hcall (hrn' call hcall),
          Option.some.injEq] at hh
        obtain ⟨n, hn⟩ : ∃ n, calls.length = n + 1 :=
          ⟨calls.length - 1, by have := List.length_pos_of_ne_nil hne; omega⟩
        rw [← hh, hn, WindowStates.reduceMerge_replicate (StateEvictHint.merge_cannotEvict_self k₀)]
        exact ⟨_, rfl, fun k hk => absurd hk (Finset.notMem_empty k)⟩
      · -- one aggregate among row numbers, of which there is at least one
        have hrn' : ∀ call ∈ l₁ ++ l₂, call.isRowNumber = true := fun call hcall =>
          (hm.kinds call (by simp at hcall ⊢; tauto)).resolve_right
            (by rw [hrest call hcall]; exact Bool.false_ne_true)
        have hC₁ := mapM_eq_replicate fun call hcall =>
          hC call (by simp [hcall]) (hrn' call (List.mem_append_left l₂ hcall))
        have hC₂ := mapM_eq_replicate fun call hcall =>
          hC call (by simp [hcall]) (hrn' call (List.mem_append_right l₁ hcall))
        obtain ⟨H, hH⟩ : ∃ H, x.hintAt stateKey (row₀ :: rows') c = some H := by
          rw [List.mapM_append, List.mapM_cons] at hh
          cases hx' : x.hintAt stateKey (row₀ :: rows') c with
          | none => simp [hx'] at hh
          | some H => exact ⟨H, rfl⟩
        rw [List.mapM_append, List.mapM_cons, hC₁, hH, hC₂] at hh
        simp only [Option.bind_eq_bind, Option.bind_some, Option.pure_def, Option.some.injEq] at hh
        rw [← hh]
        refine WindowStates.reduceMerge_cannotEvict k₀ H ?_
        -- the row number is not the aggregate
        obtain ⟨y, hy, hyrn⟩ := List.any_eq_true.mp hrn
        have hyx : y ≠ x := fun hyx => by
          rw [← hyx, isAggregate_eq_false hyrn] at hx
          exact Bool.false_ne_true hx
        have hy' : y ∈ l₁ ++ l₂ := by simp at hy ⊢; tauto
        have := List.length_pos_of_mem hy'
        rw [List.length_append] at this
        omega
    refine ⟨h, hred, fun row hrow => ⟨fun hk => ?_, fun hk => ?_⟩⟩
    · exact absurd (hbelow _ hk) (not_lt.mpr (hfirst row hrow))
    · rw [hk.1] at hrn
      exact absurd hrn Bool.false_ne_true
  · -- aggregates only, all with one hint
    rw [Bool.not_eq_true] at hrn
    have hagg : ∀ call ∈ calls, call.isAggregate = true := fun call hcall =>
      (hm.kinds call hcall).resolve_left (List.any_eq_false.mp hrn call hcall)
    obtain ⟨H, hH⟩ : ∃ H, StateEvictHint.ofDrain (rows.map stateKey) (start.frameLeft c c)
        (start.frameLeft (c + 1) (c + 1)) = some H := by
      unfold StateEvictHint.ofDrain
      split_ifs
      · exact ⟨_, by rw [List.getElem?_map, List.getElem?_eq_getElem hr]; rfl⟩
      · exact ⟨_, rfl⟩
    have hall : ∀ call ∈ calls, call.hintAt stateKey rows c = some H := fun call hcall => by
      rw [hintAt_of_isAggregate (hagg call hcall), hm.start_eq call hcall (hagg call hcall), hH]
    rw [mapM_eq_replicate hall, Option.some.injEq] at hh
    obtain ⟨n, hn⟩ : ∃ n, calls.length = n + 1 :=
      ⟨calls.length - 1, by have := List.length_pos_of_ne_nil hne; omega⟩
    refine ⟨H, ?_, fun row _ => ?_⟩
    · rw [← hh, hn, WindowStates.reduceMerge_replicate
        (StateEvictHint.merge_self_of_ofDrain (by rwa [List.length_map]) hH)]
    · rw [StateEvictHint.keys_ofDrain hH, List.mem_toFinset]
      exact ⟨fun h => ⟨hrn, h⟩, fun h => h.2⟩

end WindowFuncCall

/-! ## New states -/

/-- A call that has a state, over a frame that fits, gets a new state over no rows. -/
theorem createWindowState_refines {K V R : Type} {call : WindowFuncCall R V} (stateKey : R → K)
    (hf : call.frame.Fits) (hk : call.isRowNumber = true ∨ call.isAggregate = true) :
    ∃ st, (createWindowState call).bind Except.toOption = some st ∧
      st.Refines call stateKey [] 0 := by
  obtain ⟨kind, args, frame⟩ := call
  cases kind with
  | rowNumber =>
    refine ⟨.rowNumber RowNumberState.new, ?_, rfl, RowNumberState.refines_new⟩
    rw [createWindowState, if_pos hf.valid]
    rfl
  | aggregate agg =>
    obtain ⟨s, hnew, hs⟩ := @AggregateState.new_refines K V _ frame hf.valid
    refine ⟨.aggregate s, ?_, agg, rfl, hf, hs⟩
    rw [createWindowState, if_pos hf.valid]
    dsimp only
    rw [hnew]
    rfl
  | _ => simp [WindowFuncCall.isRowNumber, WindowFuncCall.isAggregate] at hk

theorem WindowStates.mapM_createWindowState {K V R : Type} (stateKey : R → K) :
    ∀ {calls : List (WindowFuncCall R V)},
      (∀ call ∈ calls, call.frame.Fits ∧ (call.isRowNumber = true ∨ call.isAggregate = true)) →
      ∃ sts, calls.mapM (fun call => (createWindowState call).bind Except.toOption) = some sts ∧
        WindowStates.Refines calls stateKey ⟨sts⟩ [] 0
  | [], _ => ⟨[], rfl, .nil⟩
  | call :: calls, h => by
    obtain ⟨st, hst, hrefines⟩ := createWindowState_refines stateKey (h call List.mem_cons_self).1
      (h call List.mem_cons_self).2
    obtain ⟨sts, hsts, hrest⟩ :=
      WindowStates.mapM_createWindowState stateKey fun c hc => h c (List.mem_cons_of_mem _ hc)
    refine ⟨st :: sts, ?_, .cons hrefines hrest⟩
    rw [List.mapM_cons, hst, hsts]
    rfl

end RisingWave.Expr
