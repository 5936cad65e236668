import RisingWave.Common.VnodeMapping
import RisingWave.Stream.DynamicFilter

/-!
# Hash dispatch

`executor/dispatch.rs`, `HashDataDispatcher::dispatch_data`. Each row of a chunk gets the
vnode of its dispatch keys (`VirtualNode::compute_chunk`), and the expanded hash mapping names
the actor of that vnode. Every output is sent the whole chunk, projected to the output columns,
with a visibility that keeps the visible rows of its actor. One pass over the rows builds these
visibilities and the ops of the new chunks: a visible `UpdateDelete` pushes no op and records
its vnode, and the visible `UpdateInsert` after it pushes two ops, `Delete` and `Insert` when the
two rows went to different vnodes and the update pair otherwise.

A chunk is a list of rows, each its op, its datums and its visibility, as in the dynamic
filter's model. The hash of the dispatch keys (crc32 or the vnode bits of a row id) is the
parameter `vnodeOf`, the projection to `output_indices` the parameter `project`; an output is
its actor's id, its channel not modelled. `StreamChunk::new` asserts that the columns are as long
as the ops; its failure is `none`, as is the `unwrap` of an `UpdateInsert` with no
`UpdateDelete` before it.
-/

namespace RisingWave.Stream

open RisingWave.Common
open DynamicFilter (UpdatesPaired visibleChanges)

/-- `ActorId`. -/
abbrev ActorId := ℕ

/-- A `StreamChunk`, row by row: the op and the row, and whether the row is visible. -/
abbrev StreamChunk (ρ : Type) := List ((Op × ρ) × Bool)

/-- `HashDataDispatcher`: the actors of its outputs and its hash mapping, expanded to one actor
per vnode. -/
structure HashDataDispatcher where
  outputs : List ActorId
  hashMapping : List ActorId
  hashMapping_length : hashMapping.length = VirtualNode.COUNT

variable {ρ σ : Type}

namespace StreamChunk

/-- `StreamChunk::new`: the columns must be as long as the ops. -/
def new (ops : List Op) (rows : List σ) (visibility : List Bool) : Option (StreamChunk σ) :=
  if ops.length = rows.length then some ((ops.zip rows).zip visibility) else none

/-- `cardinality`: the number of visible rows. -/
def cardinality (chunk : StreamChunk σ) : ℕ := chunk.countP (·.2)

end StreamChunk

namespace HashDataDispatcher

/-- `hash_mapping[vnode.to_index()]`. -/
def actorOf (self : HashDataDispatcher) (vnode : VirtualNode) : ActorId :=
  self.hashMapping.get ⟨vnode.toIndex, self.hashMapping_length ▸ vnode.toIndex_lt⟩

/-- What the pass of `dispatch_data` carries from row to row. -/
structure DispatchState where
  visMaps : List (List Bool)
  lastVnodeWhenUpdateDelete : Option VirtualNode
  newOps : List Op

/-- One row of the pass of `dispatch_data`. -/
def dispatchRow (self : HashDataDispatcher) (st : DispatchState) (vnode : VirtualNode) (op : Op)
    (visible : Bool) : Option DispatchState :=
  -- every output's visibility gets the row, visible for the actor of its vnode
  let visMaps := List.zipWith (fun output visMap =>
    visMap ++ [visible && self.actorOf vnode == output]) self.outputs st.visMaps
  if !visible then some { st with visMaps, newOps := st.newOps ++ [op] }
  else if op = .updateDelete then
    some { st with visMaps, lastVnodeWhenUpdateDelete := some vnode }
  else if op = .updateInsert then
    match st.lastVnodeWhenUpdateDelete with
    | none => none
    | some last =>
      if vnode.inner ≠ last.inner then
        some { st with visMaps, newOps := st.newOps ++ [.delete, .insert] }
      else some { st with visMaps, newOps := st.newOps ++ [.updateDelete, .updateInsert] }
  else some { st with visMaps, newOps := st.newOps ++ [op] }

/-- `dispatch_data`: the chunk sent to each output that has a visible row, in output order. -/
def dispatchData (self : HashDataDispatcher) (vnodeOf : ρ → VirtualNode) (project : ρ → σ)
    (chunk : StreamChunk ρ) : Option (List (ActorId × StreamChunk σ)) := do
  -- the vnodes are computed on the rows before they are projected
  let st ← chunk.foldlM (fun st x => self.dispatchRow st (vnodeOf x.1.2) x.1.1 x.2)
    ⟨self.outputs.map fun _ => [], none, []⟩
  let rows := chunk.map fun x => project x.1.2
  let sent ← (st.visMaps.zip self.outputs).mapM fun (visMap, output) =>
    (StreamChunk.new st.newOps rows visMap).map fun newStreamChunk => (output, newStreamChunk)
  pure (sent.filter fun s => 0 < StreamChunk.cardinality s.2)

end HashDataDispatcher

/-! ## The chunks as the update pairs say -/

section Spec

variable (vnodeOf : ρ → VirtualNode)

/-- Updates come in pairs: each `UpdateDelete` row is followed at once by an `UpdateInsert` row
of the same visibility, and each visible `UpdateInsert` row follows a visible `UpdateDelete`. -/
def updatePairs : StreamChunk ρ → Bool
  | [] => true
  | ((.updateDelete, _), vis) :: ((.updateInsert, _), vis') :: rest => vis == vis' && updatePairs rest
  | ((.updateDelete, _), _) :: _ => false
  | ((.updateInsert, _), true) :: _ => false
  | _ :: rest => updatePairs rest

/-- The ops of the chunks sent: a visible update pair whose rows have different vnodes becomes
`Delete`, `Insert`, and every other op is kept. -/
def rewriteOps : StreamChunk ρ → List Op
  | [] => []
  | ((.updateDelete, r), true) :: ((.updateInsert, r'), true) :: rest =>
    (if (vnodeOf r').inner ≠ (vnodeOf r).inner then [.delete, .insert]
      else [.updateDelete, .updateInsert]) ++ rewriteOps rest
  | ((op, _), _) :: rest => op :: rewriteOps rest

variable {vnodeOf}

attribute [local simp] rewriteOps in
/-- A row that is no visible `UpdateDelete` keeps its op. -/
theorem rewriteOps_cons_of_kept {x : (Op × ρ) × Bool} (hx : x.1.1 = .updateDelete → x.2 = false)
    (rest : StreamChunk ρ) : rewriteOps vnodeOf (x :: rest) = x.1.1 :: rewriteOps vnodeOf rest := by
  obtain ⟨⟨op, r⟩, vis⟩ := x
  cases op <;> cases vis <;> simp_all [rewriteOps]

/-- Every row gets one op. -/
theorem length_rewriteOps (chunk : StreamChunk ρ) :
    (rewriteOps vnodeOf chunk).length = chunk.length := by
  induction chunk using rewriteOps.induct with
  | case1 => rfl
  | case2 r r' rest ih => by_cases hv : (vnodeOf r').inner = (vnodeOf r).inner <;> simp [rewriteOps, hv, ih]
  | case3 op r vis rest hnot ih => simp [rewriteOps.eq_3 _ _ _ _ _ hnot, ih]

end Spec

/-! ## Rows zipped with their ops and visibility -/

section Zip

variable {α : Type}

/-- The visible rows of a chunk built from ops, rows and bits, one per row. -/
theorem visibleChanges_zip_zip (ops : List Op) (chunk : List α) (p : α → σ) (b : α → Bool) :
    visibleChanges ((ops.zip (chunk.map p)).zip (chunk.map b)) =
      (ops.zip chunk).filterMap fun y => if b y.2 then some (y.1, p y.2) else none := by
  induction chunk generalizing ops with
  | nil => simp [visibleChanges]
  | cons x chunk ih =>
    cases ops with
    | nil => simp [visibleChanges]
    | cons op ops =>
      have hrest := ih ops
      simp only [visibleChanges] at hrest ⊢
      cases hb : b x <;> simp [hb, hrest]

/-- The visibility of a row of such a chunk is its bit. -/
theorem getElem?_zip_zip {ops : List Op} {chunk : List α} (hlen : ops.length = chunk.length)
    (p : α → σ) (b : α → Bool) {i : ℕ} {x : α} (hx : chunk[i]? = some x) :
    (((ops.zip (chunk.map p)).zip (chunk.map b))[i]?).map (·.2) = some (b x) := by
  have hi : i < ops.length := hlen ▸ (List.getElem?_eq_some_iff.mp hx).1
  have hrow : ((ops.zip (chunk.map p)).zip (chunk.map b))[i]? = some ((ops[i], p x), b x) := by
    simp [List.getElem?_zip_eq_some, hx, hi]
  simp [hrow]

end Zip

/-! ## The pass over the rows -/

namespace HashDataDispatcher

variable (d : HashDataDispatcher)

/-- A row appends its bit to the visibility of every output. -/
theorem zipWith_visMaps (F : ActorId → List Bool) (bit : ActorId → Bool) :
    List.zipWith (fun output visMap => visMap ++ [bit output]) d.outputs (d.outputs.map F) =
      d.outputs.map fun o => F o ++ [bit o] := by
  rw [List.zipWith_map_right, List.zipWith_self]

variable (F : ActorId → List Bool) (last : Option VirtualNode) (newOps : List Op)
  (vnode : VirtualNode) (op : Op) (visible : Bool)

attribute [local simp] dispatchRow in
/-- An invisible row, or a visible one that is no update, pushes its op. -/
theorem dispatchRow_of_kept (h : visible = false ∨ (op ≠ .updateDelete ∧ op ≠ .updateInsert)) :
    d.dispatchRow ⟨d.outputs.map F, last, newOps⟩ vnode op visible =
      some ⟨d.outputs.map fun o => F o ++ [visible && d.actorOf vnode == o], last,
        newOps ++ [op]⟩ := by
  rcases h with rfl | ⟨hUD, hUI⟩
  · simp [dispatchRow, zipWith_visMaps]
  · cases visible <;> simp [dispatchRow, zipWith_visMaps, hUD, hUI]

/-- A visible `UpdateDelete` records its vnode and pushes nothing. -/
theorem dispatchRow_updateDelete :
    d.dispatchRow ⟨d.outputs.map F, last, newOps⟩ vnode .updateDelete true =
      some ⟨d.outputs.map fun o => F o ++ [true && d.actorOf vnode == o], some vnode, newOps⟩ := by
  simp [dispatchRow, zipWith_visMaps]

/-- A visible `UpdateInsert` after an `UpdateDelete` pushes the pair's ops. -/
theorem dispatchRow_updateInsert (lastVnode : VirtualNode) :
    d.dispatchRow ⟨d.outputs.map F, some lastVnode, newOps⟩ vnode .updateInsert true =
      some ⟨d.outputs.map fun o => F o ++ [true && d.actorOf vnode == o], some lastVnode,
        newOps ++ if vnode.inner ≠ lastVnode.inner then [.delete, .insert]
          else [.updateDelete, .updateInsert]⟩ := by
  by_cases hv : vnode.inner = lastVnode.inner <;> simp [dispatchRow, zipWith_visMaps, hv]

variable (vnodeOf : ρ → VirtualNode)

attribute [local simp] updatePairs in
/-- The pass of `dispatch_data` over a chunk whose updates come in pairs: the visibilities get
one bit per row and the ops are the rewritten ones. -/
theorem foldlM_dispatchRow (chunk : StreamChunk ρ) (hpairs : updatePairs chunk = true) :
    ∃ last', chunk.foldlM (fun st x => d.dispatchRow st (vnodeOf x.1.2) x.1.1 x.2)
        ⟨d.outputs.map F, last, newOps⟩ =
      some ⟨d.outputs.map fun o => F o ++ chunk.map fun x => x.2 && d.actorOf (vnodeOf x.1.2) == o,
        last', newOps ++ rewriteOps vnodeOf chunk⟩ := by
  induction chunk using updatePairs.induct generalizing F last newOps with
  | case1 => exact ⟨last, by simp [rewriteOps]⟩
  | case2 r vis r' vis' rest ih =>
    -- an update pair: both visible, or both not
    simp only [updatePairs, Bool.and_eq_true, beq_iff_eq] at hpairs
    obtain ⟨rfl, hrest⟩ := hpairs
    cases vis
    · obtain ⟨last', hlast'⟩ := ih (fun o => F o ++ [false && d.actorOf (vnodeOf r) == o] ++
        [false && d.actorOf (vnodeOf r') == o]) last (newOps ++ [.updateDelete, .updateInsert]) hrest
      refine ⟨last', ?_⟩
      simp only [List.foldlM_cons, d.dispatchRow_of_kept F last newOps _ _ false (.inl rfl),
        Option.bind_eq_bind, Option.bind_some, List.map_cons]
      rw [show (d.outputs.map fun o => F o ++ [false && d.actorOf (vnodeOf r) == o]) =
        d.outputs.map (fun o => F o ++ [false && d.actorOf (vnodeOf r) == o]) from rfl,
        d.dispatchRow_of_kept _ last _ _ _ false (.inl rfl)]
      simp only [Option.bind_some, List.append_assoc, List.singleton_append] at hlast' ⊢
      rw [hlast', rewriteOps_cons_of_kept (x := ((.updateDelete, r), false)) fun _ => rfl,
        rewriteOps_cons_of_kept (x := ((.updateInsert, r'), false)) fun _ => rfl]
      simp
    · obtain ⟨last', hlast'⟩ := ih (fun o => F o ++ [true && d.actorOf (vnodeOf r) == o] ++
        [true && d.actorOf (vnodeOf r') == o]) (some (vnodeOf r))
        (newOps ++ if (vnodeOf r').inner ≠ (vnodeOf r).inner then [.delete, .insert]
          else [.updateDelete, .updateInsert]) hrest
      refine ⟨last', ?_⟩
      simp only [List.foldlM_cons, dispatchRow_updateDelete, Option.bind_eq_bind, Option.bind_some]
      rw [d.dispatchRow_updateInsert]
      simp only [Option.bind_some, List.append_assoc, List.singleton_append, List.map_cons]
        at hlast' ⊢
      rw [hlast']
      simp [rewriteOps]
  | case3 r vis tail hnot =>
    -- an `UpdateDelete` with no `UpdateInsert` after it is not paired
    exfalso
    rcases tail with _ | ⟨⟨⟨op, r'⟩, vis'⟩, rest⟩
    · simp [updatePairs] at hpairs
    · cases op <;> simp_all [updatePairs]
  | case4 r tail => simp [updatePairs] at hpairs
  | case5 x rest hpair hUD hUI ih =>
    -- any other row keeps its op
    obtain ⟨⟨op, r⟩, vis⟩ := x
    have hop : op ≠ .updateDelete := fun h => hUD r vis (by rw [h])
    have hkept : vis = false ∨ (op ≠ .updateDelete ∧ op ≠ .updateInsert) := by
      cases vis
      · exact .inl rfl
      · exact .inr ⟨hop, fun h => hUI r (by rw [h])⟩
    have hrest : updatePairs rest = true := by
      cases op <;> cases vis <;> simp_all [updatePairs]
    obtain ⟨last', hlast'⟩ := ih (fun o => F o ++ [vis && d.actorOf (vnodeOf r) == o]) last
      (newOps ++ [op]) hrest
    refine ⟨last', ?_⟩
    simp only [List.foldlM_cons, d.dispatchRow_of_kept F last newOps _ _ _ hkept,
      Option.bind_eq_bind, Option.bind_some, hlast',
      rewriteOps_cons_of_kept (x := ((op, r), vis)) (fun h => absurd h hop), List.map_cons]
    simp

/-- The chunk an output is sent: the projected rows with the rewritten ops, visible where the
row is visible and its vnode maps to the output's actor. -/
def outputChunk (project : ρ → σ) (chunk : StreamChunk ρ) (output : ActorId) : StreamChunk σ :=
  ((rewriteOps vnodeOf chunk).zip (chunk.map fun x => project x.1.2)).zip
    (chunk.map fun x => x.2 && d.actorOf (vnodeOf x.1.2) == output)

/-- On a chunk whose updates come in pairs, `dispatch_data` does not panic and sends each output
with a visible row its chunk, in output order. -/
theorem dispatchData_eq (project : ρ → σ) (chunk : StreamChunk ρ)
    (hpairs : updatePairs chunk = true) :
    d.dispatchData vnodeOf project chunk =
      some ((d.outputs.map fun o => (o, d.outputChunk vnodeOf project chunk o)).filter
        fun s => 0 < StreamChunk.cardinality s.2) := by
  obtain ⟨last', hloop⟩ := d.foldlM_dispatchRow (fun _ => []) none [] vnodeOf chunk hpairs
  have hlen : (rewriteOps vnodeOf chunk).length = (chunk.map fun x => project x.1.2).length := by
    rw [length_rewriteOps, List.length_map]
  simp only [dispatchData, hloop, Option.bind_eq_bind, Option.bind_some, List.nil_append,
    StreamChunk.new, hlen, if_true, Option.map_some]
  -- every output's `StreamChunk::new` succeeds
  have hzip : d.outputs.zip d.outputs = d.outputs.map fun o => (o, o) := by
    induction d.outputs <;> simp [*]
  rw [List.zip_map_left, hzip, List.map_map, List.mapM_map]
  simp only [Function.comp_def, Prod.map, id, ← Option.pure_def, List.mapM_pure]
  rfl

/-! ## The chunks sent -/

variable (project : ρ → σ) (chunk : StreamChunk ρ)

/-- An output is sent the input's visible rows whose vnode maps to its actor, projected, with
the rewritten ops. -/
theorem visibleChanges_outputChunk (o : ActorId) :
    visibleChanges (d.outputChunk vnodeOf project chunk o) =
      ((rewriteOps vnodeOf chunk).zip chunk).filterMap fun y =>
        if y.2.2 && d.actorOf (vnodeOf y.2.1.2) == o then some (y.1, project y.2.1.2) else none :=
  visibleChanges_zip_zip _ _ _ _

attribute [local simp] outputChunk in
/-- In the chunk an output is sent, every visible `UpdateDelete` is followed at once by a
visible `UpdateInsert`: a pair kept whole has one vnode, so both rows go to one actor. -/
theorem updatesPaired_outputChunk (hpairs : updatePairs chunk = true) (o : ActorId) :
    UpdatesPaired (d.outputChunk vnodeOf project chunk o) := by
  unfold outputChunk
  induction chunk using updatePairs.induct with
  | case1 => simp [rewriteOps]
  | case2 r vis r' vis' rest ih =>
    simp only [updatePairs, Bool.and_eq_true, beq_iff_eq] at hpairs
    obtain ⟨rfl, hrest⟩ := hpairs
    cases vis
    · rw [rewriteOps_cons_of_kept (x := ((.updateDelete, r), false)) fun _ => rfl,
        rewriteOps_cons_of_kept (x := ((.updateInsert, r'), false)) fun _ => rfl]
      simp [ih hrest]
    · by_cases hv : (vnodeOf r').inner = (vnodeOf r).inner
      · -- one vnode: the pair stays, and both rows go to the same actor
        have hvn : vnodeOf r' = vnodeOf r := by
          cases h1 : vnodeOf r'
          cases h2 : vnodeOf r
          simp_all
        simp [rewriteOps, hvn, ih hrest]
      · simp [rewriteOps, hv, ih hrest]
  | case3 r vis tail hnot =>
    exfalso
    rcases tail with _ | ⟨⟨⟨op, r'⟩, vis'⟩, rest⟩
    · simp [updatePairs] at hpairs
    · cases op <;> simp_all [updatePairs]
  | case4 r tail => simp [updatePairs] at hpairs
  | case5 x rest hpair hUD hUI ih =>
    obtain ⟨⟨op, r⟩, vis⟩ := x
    have hop : op ≠ .updateDelete := fun h => hUD r vis (by rw [h])
    have hrest : updatePairs rest = true := by
      cases op <;> cases vis <;> simp_all [updatePairs]
    rw [rewriteOps_cons_of_kept (x := ((op, r), vis)) (fun h => absurd h hop)]
    simp [hop, ih hrest]

/-- Where the hash mapping sends every vnode to an output and the outputs' actors are distinct,
a visible row is visible to exactly one output. -/
theorem length_filter_visible_outputChunk (hnodup : d.outputs.Nodup)
    (hmap : ∀ v, d.actorOf v ∈ d.outputs) {i : ℕ} {x : (Op × ρ) × Bool} (hx : chunk[i]? = some x)
    (hvis : x.2 = true) :
    (d.outputs.filter fun o =>
      ((d.outputChunk vnodeOf project chunk o)[i]?.map (·.2)) == some true).length = 1 := by
  have hbit : ∀ o, (((d.outputChunk vnodeOf project chunk o)[i]?.map (·.2)) == some true) =
      (o == d.actorOf (vnodeOf x.1.2)) := by
    intro o
    rw [outputChunk, getElem?_zip_zip (length_rewriteOps chunk) _ _ hx, hvis]
    by_cases ho : o = d.actorOf (vnodeOf x.1.2)
    · simp [ho]
    · simp [ho, Ne.symm ho]
  simp only [hbit]
  have hcount := List.count_eq_one_of_mem hnodup (hmap (vnodeOf x.1.2))
  rwa [List.count_eq_countP, List.countP_eq_length_filter] at hcount

end HashDataDispatcher

/-- On a chunk whose updates come in pairs, `dispatch_data` sends each output with a visible row
the whole chunk, projected, with the rewritten ops, showing the visible rows whose vnode maps to
its actor; every visible `UpdateDelete` of it is followed by a visible `UpdateInsert`; and where
the mapping sends every vnode to one of distinct outputs, each visible row reaches exactly one. -/
theorem dispatchData_partitions_chunk (d : HashDataDispatcher) (vnodeOf : ρ → VirtualNode)
    (project : ρ → σ) (chunk : StreamChunk ρ) (hpairs : updatePairs chunk = true) :
    ∃ sent, d.dispatchData vnodeOf project chunk = some sent ∧
      sent = (d.outputs.map fun o => (o, d.outputChunk vnodeOf project chunk o)).filter
        (fun s => 0 < StreamChunk.cardinality s.2) ∧
      (∀ o, visibleChanges (d.outputChunk vnodeOf project chunk o) =
        ((rewriteOps vnodeOf chunk).zip chunk).filterMap fun y =>
          if y.2.2 && d.actorOf (vnodeOf y.2.1.2) == o then some (y.1, project y.2.1.2)
          else none) ∧
      (∀ o, UpdatesPaired (d.outputChunk vnodeOf project chunk o)) ∧
      (d.outputs.Nodup → (∀ v, d.actorOf v ∈ d.outputs) →
        ∀ (i : ℕ) (x : (Op × ρ) × Bool), chunk[i]? = some x → x.2 = true →
          (sent.filter fun s => (s.2[i]?.map (·.2)) == some true).length = 1) := by
  refine ⟨_, d.dispatchData_eq vnodeOf project chunk hpairs, rfl,
    d.visibleChanges_outputChunk vnodeOf project chunk,
    d.updatesPaired_outputChunk vnodeOf project chunk hpairs, ?_⟩
  intro hnodup hmap i x hx hvis
  -- an output that shows the row has a visible row, so it is among those sent
  have hsent : ∀ o, ((d.outputChunk vnodeOf project chunk o)[i]?.map (·.2)) == some true →
      0 < StreamChunk.cardinality (d.outputChunk vnodeOf project chunk o) := by
    intro o ho
    obtain ⟨y, hy, hy2⟩ : ∃ y, (d.outputChunk vnodeOf project chunk o)[i]? = some y ∧
        y.2 = true := by
      simpa using ho
    exact List.countP_pos_iff.mpr ⟨y, List.mem_of_getElem? hy, hy2⟩
  rw [List.filter_filter, List.filter_map, List.length_map]
  rw [← d.length_filter_visible_outputChunk vnodeOf project chunk hnodup hmap hx hvis]
  congr 1
  refine List.filter_congr fun o _ => ?_
  by_cases ho : (((d.outputChunk vnodeOf project chunk o)[i]?.map (·.2)) == some true) = true
  · simp [ho, hsent o ho]
  · simp [ho]

/-- Two actors, each with half the vnodes: vnode 0 goes to actor 1 and vnode 200 to actor 2. -/
def twoActorDispatcher : HashDataDispatcher :=
  ⟨[1, 2], (List.range VirtualNode.COUNT).map fun v => if v < 128 then 1 else 2, by simp⟩

/-- Row `0` on vnode 0, every other row on vnode 200. -/
def twoVnodes (r : ℕ) : VirtualNode := if r = 0 then ⟨0, by decide⟩ else ⟨200, by decide⟩

/-- An update that moves its row from vnode 0 to vnode 200, then an insert. -/
def movedUpdateChunk : StreamChunk ℕ :=
  [((.updateDelete, 0), true), ((.updateInsert, 5), true), ((.insert, 0), true)]

theorem dispatchData_partitions_chunk_moved_update :
    updatePairs movedUpdateChunk = true ∧
    ∃ sent, twoActorDispatcher.dispatchData twoVnodes id movedUpdateChunk = some sent ∧
      sent = (twoActorDispatcher.outputs.map fun o =>
        (o, twoActorDispatcher.outputChunk twoVnodes id movedUpdateChunk o)).filter
          (fun s => 0 < StreamChunk.cardinality s.2) ∧
      (∀ o, visibleChanges (twoActorDispatcher.outputChunk twoVnodes id movedUpdateChunk o) =
        ((rewriteOps twoVnodes movedUpdateChunk).zip movedUpdateChunk).filterMap fun y =>
          if y.2.2 && twoActorDispatcher.actorOf (twoVnodes y.2.1.2) == o then
            some (y.1, id y.2.1.2) else none) ∧
      (∀ o, UpdatesPaired (twoActorDispatcher.outputChunk twoVnodes id movedUpdateChunk o)) ∧
      (twoActorDispatcher.outputs.Nodup →
        (∀ v, twoActorDispatcher.actorOf v ∈ twoActorDispatcher.outputs) →
        ∀ (i : ℕ) (x : (Op × ℕ) × Bool), movedUpdateChunk[i]? = some x → x.2 = true →
          (sent.filter fun s => (s.2[i]?.map (·.2)) == some true).length = 1) :=
  ⟨by decide, dispatchData_partitions_chunk _ _ _ _ (by decide)⟩

/-- A visible `UpdateInsert` with no `UpdateDelete` before it: no `UpdateDelete` goes unpaired,
yet `dispatch_data` panics on the `unwrap` of the missing vnode. -/
theorem dispatchData_lone_updateInsert :
    (([((.updateInsert, 5), true)] : StreamChunk ℕ).all fun x => x.1.1 != .updateDelete) = true ∧
    twoActorDispatcher.dispatchData twoVnodes id [((.updateInsert, 5), true)] = none := by
  decide

end RisingWave.Stream
