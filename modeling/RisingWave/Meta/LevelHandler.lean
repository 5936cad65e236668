import Mathlib

/-!
# The level handler of the compaction scheduler

`meta/src/hummock/level_handler.rs`. A `LevelHandler` keeps, for one level, the compaction
tasks running on it (`pending_tasks`) and, for each SST one of them compacts, the task's id
(`compacting_files`). `add_pending_task` records a task and its SSTs, `remove_task` drops every
task with an id and the files they list, and the protobuf `LevelHandler` stores the tasks alone,
the file map being rebuilt from them.

The `HashMap` of compacting files is modelled by the partial function it stores, so that two
handlers are equal exactly when `PartialEq` says they are. Ids and file sizes are numbers;
`target_level as u32` truncates.

The callers hand `add_pending_task` only SSTs that are not pending yet. Under that contract the
file map is always the one the pending tasks determine (`Consistent`), which is what the
protobuf round trip needs.
-/

namespace RisingWave.Meta

/-- `HummockSstableId`. -/
abbrev HummockSstableId := ℕ

/-- `HummockCompactionTaskId`. -/
abbrev HummockCompactionTaskId := ℕ

/-- `SstableInfo`, with the fields the level handler reads. -/
structure SstableInfo where
  sstId : HummockSstableId
  fileSize : ℕ
  deriving DecidableEq, Repr

/-- `RunningCompactTask`. -/
structure RunningCompactTask where
  taskId : HummockCompactionTaskId
  targetLevel : UInt32
  totalFileSize : ℕ
  ssts : List HummockSstableId
  deriving DecidableEq, Repr

/-- `LevelHandler`. -/
structure LevelHandler where
  level : UInt32
  compactingFiles : HummockSstableId → Option HummockCompactionTaskId
  pendingTasks : List RunningCompactTask

/-- `risingwave_pb::hummock::LevelHandler`. -/
structure PbLevelHandler where
  level : UInt32
  tasks : List RunningCompactTask
  deriving DecidableEq, Repr

namespace LevelHandler

/-- `LevelHandler::new`. -/
def new (level : UInt32) : LevelHandler := ⟨level, fun _ => none, []⟩

/-- `remove_task`: the files of every task with the id leave the map, then those tasks leave
the list. -/
def removeTask (self : LevelHandler) (targetTaskId : HummockCompactionTaskId) : LevelHandler :=
  let compactingFiles := self.pendingTasks.foldl (fun files task =>
    if task.taskId = targetTaskId then
      task.ssts.foldl (fun files sst => Function.update files sst none) files
    else files) self.compactingFiles
  { self with
    compactingFiles
    pendingTasks := self.pendingTasks.filter fun task => task.taskId != targetTaskId }

/-- `is_pending_compact`. -/
def isPendingCompact (self : LevelHandler) (sstId : HummockSstableId) : Bool :=
  (self.compactingFiles sstId).isSome

/-- `pending_task_id_by_sst`. -/
def pendingTaskIdBySst (self : LevelHandler) (sstId : HummockSstableId) :
    Option HummockCompactionTaskId :=
  self.compactingFiles sstId

/-- `add_pending_task`: one pass over the SSTs maps each to the task, adds up their sizes and
collects their ids. -/
def addPendingTask (self : LevelHandler) (taskId : HummockCompactionTaskId) (targetLevel : ℕ)
    (ssts : List SstableInfo) : LevelHandler :=
  let targetLevel := UInt32.ofNat targetLevel
  let (compactingFiles, totalFileSize, tableIds) :=
    ssts.foldl (fun (files, totalFileSize, tableIds) sst =>
      (Function.update files sst.sstId (some taskId), totalFileSize + sst.fileSize,
        tableIds ++ [sst.sstId]))
      (self.compactingFiles, 0, [])
  { self with
    compactingFiles
    pendingTasks := self.pendingTasks ++ [⟨taskId, targetLevel, totalFileSize, tableIds⟩] }

/-- `get_pending_file_size`. -/
def getPendingFileSize (self : LevelHandler) : ℕ :=
  (self.pendingTasks.map (·.totalFileSize)).sum

/-- `get_pending_output_file_size`. -/
def getPendingOutputFileSize (self : LevelHandler) (targetLevel : UInt32) : ℕ :=
  ((self.pendingTasks.filter (·.targetLevel == targetLevel)).map (·.totalFileSize)).sum

/-- `pending_tasks_ids`. -/
def pendingTasksIds (self : LevelHandler) : List HummockCompactionTaskId :=
  self.pendingTasks.map (·.taskId)

/-- `From<&LevelHandler> for risingwave_pb::hummock::LevelHandler`. -/
def toPb (lh : LevelHandler) : PbLevelHandler := ⟨lh.level, lh.pendingTasks⟩

/-- `From<&risingwave_pb::hummock::LevelHandler> for LevelHandler`: the tasks are copied and
each maps its SSTs to its id. -/
def ofPb (lh : PbLevelHandler) : LevelHandler :=
  let (pendingTasks, compactingFiles) :=
    lh.tasks.foldl (fun (pendingTasks, compactingFiles) task =>
      (pendingTasks ++ [task],
        task.ssts.foldl (fun files s => Function.update files s (some task.taskId))
          compactingFiles))
      (([] : List RunningCompactTask),
        (fun _ => none : HummockSstableId → Option HummockCompactionTaskId))
  { pendingTasks, compactingFiles, level := lh.level }

end LevelHandler

/-! ## Maps written key by key -/

section FoldUpdate

variable {κ β : Type} [DecidableEq κ]

/-- Writing one value under each key of a list. -/
theorem foldl_update_eq (keys : List κ) (v : β) (f : κ → β) (k : κ) :
    keys.foldl (fun f key => Function.update f key v) f k = if k ∈ keys then v else f k := by
  induction keys generalizing f with
  | nil => simp
  | cons key keys ih =>
    rw [List.foldl_cons, ih]
    by_cases hk : k = key <;> simp [hk]

end FoldUpdate

/-! ## What each call does -/

namespace LevelHandler

variable {lh : LevelHandler}

/-- The pass of `add_pending_task` over its SSTs, from any accumulator. -/
theorem foldl_addSst (taskId : HummockCompactionTaskId) (ssts : List SstableInfo)
    (files : HummockSstableId → Option HummockCompactionTaskId) (size : ℕ)
    (ids : List HummockSstableId) :
    ssts.foldl (fun (acc : (HummockSstableId → Option HummockCompactionTaskId) × ℕ ×
        List HummockSstableId) sst =>
      (Function.update acc.1 sst.sstId (some taskId), acc.2.1 + sst.fileSize,
        acc.2.2 ++ [sst.sstId])) (files, size, ids) =
      (fun k => if k ∈ ssts.map (·.sstId) then some taskId else files k,
        size + (ssts.map (·.fileSize)).sum, ids ++ ssts.map (·.sstId)) := by
  induction ssts generalizing files size ids with
  | nil => simp
  | cons sst ssts ih =>
    rw [List.foldl_cons, ih]
    refine Prod.ext (funext fun k => ?_) (Prod.ext ?_ ?_)
    · by_cases hk : k = sst.sstId <;> simp [hk]
    · simp only [List.map_cons, List.sum_cons]
      omega
    · simp

/-- `add_pending_task` maps the task's SSTs to it and appends the task, with the SSTs' ids and
total size. -/
theorem addPendingTask_eq (taskId : HummockCompactionTaskId) (targetLevel : ℕ)
    (ssts : List SstableInfo) :
    lh.addPendingTask taskId targetLevel ssts =
      { lh with
        compactingFiles := fun k =>
          if k ∈ ssts.map (·.sstId) then some taskId else lh.compactingFiles k
        pendingTasks := lh.pendingTasks ++ [⟨taskId, UInt32.ofNat targetLevel,
          (ssts.map (·.fileSize)).sum, ssts.map (·.sstId)⟩] } := by
  simp only [addPendingTask]
  rw [foldl_addSst]
  simp

/-- The pass of `remove_task` over the tasks clears the files of those with the id. -/
theorem foldl_removeSsts (targetTaskId : HummockCompactionTaskId) (tasks : List RunningCompactTask)
    (files : HummockSstableId → Option HummockCompactionTaskId) (k : HummockSstableId) :
    tasks.foldl (fun files task =>
      if task.taskId = targetTaskId then
        task.ssts.foldl (fun files sst => Function.update files sst none) files
      else files) files k =
      if ∃ task ∈ tasks, task.taskId = targetTaskId ∧ k ∈ task.ssts then none else files k := by
  induction tasks generalizing files with
  | nil => simp
  | cons task tasks ih =>
    rw [List.foldl_cons, ih]
    by_cases ht : task.taskId = targetTaskId
    · by_cases hk : k ∈ task.ssts
      · simp [ht, hk, foldl_update_eq]
      · simp [ht, hk, foldl_update_eq]
    · simp [ht]

theorem removeTask_compactingFiles (targetTaskId : HummockCompactionTaskId)
    (k : HummockSstableId) :
    (lh.removeTask targetTaskId).compactingFiles k =
      if ∃ task ∈ lh.pendingTasks, task.taskId = targetTaskId ∧ k ∈ task.ssts then none
      else lh.compactingFiles k :=
  foldl_removeSsts targetTaskId lh.pendingTasks lh.compactingFiles k

@[simp] theorem removeTask_pendingTasks (targetTaskId : HummockCompactionTaskId) :
    (lh.removeTask targetTaskId).pendingTasks =
      lh.pendingTasks.filter fun task => task.taskId != targetTaskId := rfl

attribute [local simp] getPendingFileSize in
/-- The pending size grows by the sizes of the task's SSTs. -/
theorem getPendingFileSize_addPendingTask (taskId : HummockCompactionTaskId) (targetLevel : ℕ)
    (ssts : List SstableInfo) :
    (lh.addPendingTask taskId targetLevel ssts).getPendingFileSize =
      lh.getPendingFileSize + (ssts.map (·.fileSize)).sum := by
  simp [getPendingFileSize, addPendingTask_eq]

/-- The pending size loses the sizes of the removed tasks. -/
theorem getPendingFileSize_removeTask (targetTaskId : HummockCompactionTaskId) :
    (lh.removeTask targetTaskId).getPendingFileSize +
      ((lh.pendingTasks.filter fun task => task.taskId = targetTaskId).map
        (·.totalFileSize)).sum = lh.getPendingFileSize := by
  simp only [getPendingFileSize, removeTask_pendingTasks]
  induction lh.pendingTasks with
  | nil => simp
  | cons task tasks ih =>
    by_cases ht : task.taskId = targetTaskId
    · simp [ht] at ih ⊢
      omega
    · simp [ht] at ih ⊢
      omega

/-- The protobuf conversion copies the tasks and rebuilds the files from them, in order. -/
theorem foldl_ofPb (tasks acc : List RunningCompactTask)
    (files : HummockSstableId → Option HummockCompactionTaskId) :
    tasks.foldl (fun (acc : List RunningCompactTask × (HummockSstableId →
        Option HummockCompactionTaskId)) task =>
      (acc.1 ++ [task],
        task.ssts.foldl (fun files s => Function.update files s (some task.taskId)) acc.2))
      (acc, files) =
      (acc ++ tasks, tasks.foldl (fun files task =>
        task.ssts.foldl (fun files s => Function.update files s (some task.taskId)) files)
        files) := by
  induction tasks generalizing acc files with
  | nil => simp
  | cons task tasks ih => simp [ih]

/-- Rebuilding the files task by task, when every task holding `k` has the id `v`. -/
theorem foldl_files_eq (tasks : List RunningCompactTask)
    (files : HummockSstableId → Option HummockCompactionTaskId) {k : HummockSstableId}
    {v : HummockCompactionTaskId} (hv : ∀ task ∈ tasks, k ∈ task.ssts → task.taskId = v) :
    tasks.foldl (fun files task =>
      task.ssts.foldl (fun files s => Function.update files s (some task.taskId)) files) files k =
      if ∃ task ∈ tasks, k ∈ task.ssts then some v else files k := by
  induction tasks generalizing files with
  | nil => simp
  | cons task tasks ih =>
    rw [List.foldl_cons, ih _ fun t ht => hv t (List.mem_cons_of_mem task ht),
      foldl_update_eq]
    by_cases hk : k ∈ task.ssts
    · simp [hk, hv task List.mem_cons_self hk]
    · simp [hk]

/-! ## The file map follows the tasks -/

/-- The compacting files are the SSTs of the pending tasks, each mapped to its task's id. -/
def Consistent (lh : LevelHandler) : Prop :=
  ∀ sst taskId, lh.compactingFiles sst = some taskId ↔
    ∃ task ∈ lh.pendingTasks, task.taskId = taskId ∧ sst ∈ task.ssts

theorem new_consistent (level : UInt32) : (new level).Consistent := by
  simp [Consistent, new]

theorem Consistent.files_eq (h : lh.Consistent) {task : RunningCompactTask}
    (ht : task ∈ lh.pendingTasks) {sst : HummockSstableId} (hs : sst ∈ task.ssts) :
    lh.compactingFiles sst = some task.taskId :=
  (h sst task.taskId).mpr ⟨task, ht, rfl, hs⟩

/-- An SST is pending exactly when a pending task holds it. -/
theorem Consistent.isPendingCompact_iff (h : lh.Consistent) (sst : HummockSstableId) :
    lh.isPendingCompact sst = true ↔ ∃ task ∈ lh.pendingTasks, sst ∈ task.ssts := by
  constructor
  · intro hp
    obtain ⟨taskId, hid⟩ := Option.isSome_iff_exists.mp hp
    obtain ⟨task, ht, -, hs⟩ := (h sst taskId).mp hid
    exact ⟨task, ht, hs⟩
  · rintro ⟨task, ht, hs⟩
    simp [isPendingCompact, h.files_eq ht hs]

/-- A task given SSTs that are not pending keeps the map consistent: they were in no task. -/
theorem Consistent.addPendingTask (h : lh.Consistent) {taskId : HummockCompactionTaskId}
    {targetLevel : ℕ} {ssts : List SstableInfo}
    (hfresh : ∀ sst ∈ ssts, lh.isPendingCompact sst.sstId = false) :
    (lh.addPendingTask taskId targetLevel ssts).Consistent := by
  intro sst t
  rw [addPendingTask_eq]
  dsimp only
  by_cases hs : sst ∈ ssts.map (·.sstId)
  · -- a new SST belongs to the new task alone
    have hold : ∀ task ∈ lh.pendingTasks, sst ∉ task.ssts := by
      intro task ht hst
      obtain ⟨info, hinfo, rfl⟩ := List.mem_map.mp hs
      have hp := (h.isPendingCompact_iff info.sstId).mpr ⟨task, ht, hst⟩
      simp [hfresh info hinfo] at hp
    simp only [hs, if_true, Option.some.injEq, List.mem_append, List.mem_singleton]
    constructor
    · rintro rfl
      exact ⟨_, .inr rfl, rfl, hs⟩
    · rintro ⟨task, ht | rfl, rfl, hst⟩
      · exact absurd hst (hold task ht)
      · rfl
  · rw [if_neg hs, h sst t]
    constructor
    · rintro ⟨task, ht, hid, hst⟩
      exact ⟨task, List.mem_append_left _ ht, hid, hst⟩
    · rintro ⟨task, ht, hid, hst⟩
      rcases List.mem_append.mp ht with ht | ht
      · exact ⟨task, ht, hid, hst⟩
      · obtain rfl := List.mem_singleton.mp ht
        exact absurd hst hs

/-- Removing a task keeps the map consistent: the files it clears were held by the removed
tasks alone. -/
theorem Consistent.removeTask (h : lh.Consistent) (targetTaskId : HummockCompactionTaskId) :
    (lh.removeTask targetTaskId).Consistent := by
  intro sst t
  rw [removeTask_compactingFiles, removeTask_pendingTasks]
  by_cases hs : ∃ task ∈ lh.pendingTasks, task.taskId = targetTaskId ∧ sst ∈ task.ssts
  · -- the SST's task is removed, and a kept task holding it would have another id
    obtain ⟨task, ht, hid, hst⟩ := hs
    rw [if_pos ⟨task, ht, hid, hst⟩]
    simp only [reduceCtorEq, false_iff, not_exists, not_and, List.mem_filter, bne_iff_ne]
    rintro task' ⟨ht', hid'⟩ rfl hst'
    have heq := (h.files_eq ht hst).symm.trans (h.files_eq ht' hst')
    exact hid' (hid ▸ (Option.some.inj heq).symm)
  · rw [if_neg hs, h sst t]
    constructor
    · rintro ⟨task, ht, hid, hst⟩
      refine ⟨task, List.mem_filter.mpr ⟨ht, ?_⟩, hid, hst⟩
      simpa using fun htarget => hs ⟨task, ht, htarget, hst⟩
    · rintro ⟨task, ht, hid, hst⟩
      exact ⟨task, (List.mem_filter.mp ht).1, hid, hst⟩

/-- A consistent handler survives the protobuf round trip. -/
theorem Consistent.ofPb_toPb (h : lh.Consistent) : ofPb lh.toPb = lh := by
  obtain ⟨level, files, tasks⟩ := lh
  simp only [ofPb, toPb]
  rw [foldl_ofPb]
  simp only [List.nil_append, LevelHandler.mk.injEq, true_and, and_true]
  funext k
  cases hk : files k with
  | none =>
    -- no task holds `k`
    have hnone : ¬ ∃ task ∈ tasks, k ∈ task.ssts := by
      rintro ⟨task, ht, hst⟩
      have hfile : files k = some task.taskId := h.files_eq ht hst
      rw [hfile] at hk
      cases hk
    rw [foldl_files_eq tasks _ (v := 0) fun task ht hst => absurd ⟨task, ht, hst⟩ hnone,
      if_neg hnone]
  | some v =>
    -- every task holding `k` has the id the map gives it
    obtain ⟨task, ht, -, hst⟩ := (h k v).mp hk
    rw [foldl_files_eq tasks _ (v := v) fun task ht hst => ?_, if_pos ⟨task, ht, hst⟩]
    have := (h.files_eq ht hst).symm.trans hk
    exact Option.some.inj this

end LevelHandler

/-! ## Runs of calls -/

/-- A call on a level handler, as the compaction scheduler makes them. -/
inductive LevelHandlerCall where
  | addPendingTask (taskId : HummockCompactionTaskId) (targetLevel : ℕ) (ssts : List SstableInfo)
  | removeTask (targetTaskId : HummockCompactionTaskId)
  deriving DecidableEq, Repr

namespace LevelHandlerCall

/-- The call made on a handler. -/
def apply : LevelHandlerCall → LevelHandler → LevelHandler
  | .addPendingTask taskId targetLevel ssts, lh => lh.addPendingTask taskId targetLevel ssts
  | .removeTask targetTaskId, lh => lh.removeTask targetTaskId

/-- The callers' contract: a task is given SSTs that no pending task compacts. -/
def allowed : LevelHandlerCall → LevelHandler → Bool
  | .addPendingTask _ _ ssts, lh => ssts.all fun sst => !lh.isPendingCompact sst.sstId
  | .removeTask _, _ => true

end LevelHandlerCall

/-- The handler after a run of calls. -/
def runCalls (lh : LevelHandler) (calls : List LevelHandlerCall) : LevelHandler :=
  calls.foldl (fun lh call => call.apply lh) lh

/-- Whether each call of a run keeps to the contract where it is made. -/
def callsAllowed : LevelHandler → List LevelHandlerCall → Bool
  | _, [] => true
  | lh, call :: calls => call.allowed lh && callsAllowed (call.apply lh) calls

namespace LevelHandler

variable {lh : LevelHandler}

theorem Consistent.apply (h : lh.Consistent) {call : LevelHandlerCall}
    (hallowed : call.allowed lh = true) : (call.apply lh).Consistent := by
  cases call with
  | addPendingTask taskId targetLevel ssts =>
    refine h.addPendingTask fun sst hsst => ?_
    simpa using List.all_eq_true.mp hallowed sst hsst
  | removeTask targetTaskId => exact h.removeTask targetTaskId

/-- Every run of allowed calls keeps the map consistent. -/
theorem Consistent.runCalls (h : lh.Consistent) {calls : List LevelHandlerCall}
    (hcalls : callsAllowed lh calls = true) : (RisingWave.Meta.runCalls lh calls).Consistent := by
  induction calls generalizing lh with
  | nil => exact h
  | cons call calls ih =>
    simp only [callsAllowed, Bool.and_eq_true] at hcalls
    exact ih (h.apply hcalls.1) hcalls.2

end LevelHandler

/-- Along every run of `add_pending_task` calls on SSTs that are not pending and `remove_task`
calls, the compacting files are exactly the SSTs of the pending tasks, each mapped to its task,
the pending size is the tasks' total size, and the protobuf round trip gives the handler back. -/
theorem levelHandler_bookkeeping (level : UInt32) (calls : List LevelHandlerCall)
    (hcalls : callsAllowed (LevelHandler.new level) calls = true) :
    (∀ sst taskId, (runCalls (.new level) calls).compactingFiles sst = some taskId ↔
      ∃ task ∈ (runCalls (.new level) calls).pendingTasks,
        task.taskId = taskId ∧ sst ∈ task.ssts) ∧
    (runCalls (.new level) calls).getPendingFileSize =
      ((runCalls (.new level) calls).pendingTasks.map (·.totalFileSize)).sum ∧
    LevelHandler.ofPb (runCalls (.new level) calls).toPb = runCalls (.new level) calls := by
  have h := (LevelHandler.new_consistent level).runCalls hcalls
  exact ⟨h, rfl, h.ofPb_toPb⟩

/-- Two tasks on a level, the first removed. -/
theorem levelHandler_bookkeeping_two_tasks :
    callsAllowed (LevelHandler.new 0)
        [.addPendingTask 1 1 [⟨5, 10⟩, ⟨6, 20⟩], .addPendingTask 2 1 [⟨7, 5⟩], .removeTask 1] =
      true ∧
    (∀ sst taskId, (runCalls (.new 0) [.addPendingTask 1 1 [⟨5, 10⟩, ⟨6, 20⟩],
        .addPendingTask 2 1 [⟨7, 5⟩], .removeTask 1]).compactingFiles sst = some taskId ↔
      ∃ task ∈ (runCalls (.new 0) [.addPendingTask 1 1 [⟨5, 10⟩, ⟨6, 20⟩],
        .addPendingTask 2 1 [⟨7, 5⟩], .removeTask 1]).pendingTasks,
        task.taskId = taskId ∧ sst ∈ task.ssts) ∧
    (runCalls (.new 0) [.addPendingTask 1 1 [⟨5, 10⟩, ⟨6, 20⟩], .addPendingTask 2 1 [⟨7, 5⟩],
        .removeTask 1]).getPendingFileSize =
      ((runCalls (.new 0) [.addPendingTask 1 1 [⟨5, 10⟩, ⟨6, 20⟩], .addPendingTask 2 1 [⟨7, 5⟩],
        .removeTask 1]).pendingTasks.map (·.totalFileSize)).sum ∧
    LevelHandler.ofPb (runCalls (.new 0) [.addPendingTask 1 1 [⟨5, 10⟩, ⟨6, 20⟩],
        .addPendingTask 2 1 [⟨7, 5⟩], .removeTask 1]).toPb =
      runCalls (.new 0) [.addPendingTask 1 1 [⟨5, 10⟩, ⟨6, 20⟩], .addPendingTask 2 1 [⟨7, 5⟩],
        .removeTask 1] :=
  ⟨by decide, levelHandler_bookkeeping 0 _ (by decide)⟩

end RisingWave.Meta
