import Mathlib
import RisingWave.Hummock.Key
import RisingWave.Lib.Cursor
import RisingWave.Lib.Merge

/-!
# The ordered merge iterator

`iterator/merge_inner.rs`. `OrderedMergeIteratorInner` merges forward iterators
through a `BinaryHeap` of nodes, each an iterator and its index. The heap is a
max-heap under an order that reverses keys, so its top is the node with the
least key, and among equal keys the one of least index. `next` moves every
node at the top key one entry on, dropping the nodes that run out: each key is
read once, from the iterator of least index that has it.

The inner iterators are cursors over their entries (`Cursor`): what a forward
`HummockIterator` shows is the sequence of its entries from `rewind` or `seek`.
The heap is a list; `BinaryHeap::peek` is the least node (`List.argmin`), and a
node changed or popped under `PeekMut` is taken out and, when still valid, put
back. `last_table_key` only buffers the top key and is left out.
-/

namespace RisingWave.Hummock

/-- `Node<I, OrderedNodeExtra>`: an iterator and its index among the inputs. -/
structure Node (V : Type*) where
  iter : Cursor FullKey V
  extraOrderInfo : ℕ
  deriving DecidableEq

variable {V : Type*}

/-- The forward order of `PartialOrd for Node<I, OrderedNodeExtra>`, reversed:
key, then index. An invalid node, never in the heap, is last. -/
def Node.heapKey (node : Node V) : WithTop (FullKey ×ₗ ℕ) :=
  match node.iter.current? with
  | some entry => ((toLex (entry.1, node.extraOrderInfo) : FullKey ×ₗ ℕ) : WithTop (FullKey ×ₗ ℕ))
  | none => ⊤

/-- `BinaryHeap::peek`: the top of the max-heap, the least node. -/
def heapPeek (heap : List (Node V)) : Option (Node V) := heap.argmin Node.heapKey

/-- `MergeIteratorInner<I, OrderedNodeExtra>`. -/
structure OrderedMergeIteratorInner (V : Type*) where
  unusedIters : List (Node V)
  heap : List (Node V)

namespace OrderedMergeIteratorInner

/-- `create`: every iterator with its index, all unused. -/
def create (iterators : List (Cursor FullKey V)) : OrderedMergeIteratorInner V :=
  ⟨iterators.zipIdx.map fun p => ⟨p.1, p.2⟩, []⟩

/-- `reset_heap`: move every node of the heap to the unused ones. -/
def resetHeap (self : OrderedMergeIteratorInner V) : OrderedMergeIteratorInner V :=
  ⟨self.unusedIters ++ self.heap, []⟩

/-- `build_heap`: the valid unused nodes form the heap. -/
def buildHeap (self : OrderedMergeIteratorInner V) : OrderedMergeIteratorInner V :=
  ⟨self.unusedIters.filter fun n => !n.iter.isValid, self.unusedIters.filter fun n => n.iter.isValid⟩

/-- `rewind`: every node rewinds, then the heap is rebuilt. -/
def rewind (self : OrderedMergeIteratorInner V) : OrderedMergeIteratorInner V :=
  let self := self.resetHeap
  buildHeap { self with unusedIters := self.unusedIters.map fun n => { n with iter := n.iter.rewind } }

/-- `seek`: every node seeks `key`, then the heap is rebuilt. -/
def seek (self : OrderedMergeIteratorInner V) (key : FullKey) : OrderedMergeIteratorInner V :=
  let self := self.resetHeap
  buildHeap { self with unusedIters := self.unusedIters.map fun n => { n with iter := n.iter.seek key } }

/-- `is_valid`. -/
def isValid (self : OrderedMergeIteratorInner V) : Bool :=
  ((heapPeek self.heap).map fun n => n.iter.isValid).getD false

/-- `key` and `value` of the top node (`none` where they panic). -/
def current? (self : OrderedMergeIteratorInner V) : Option (FullKey × V) :=
  (heapPeek self.heap).bind fun n => n.iter.current?

/-- The loop of `next_inner`: while the top node is at `topKey`, move it on, and
drop it from the heap once it is invalid. -/
def nextLoop [DecidableEq V] (topKey : FullKey) :
    ℕ → OrderedMergeIteratorInner V → OrderedMergeIteratorInner V
  | 0, self => self
  | fuel + 1, self =>
    match heapPeek self.heap with
    | none => self
    | some node =>
      if node.iter.current?.map Prod.fst = some topKey then
        let node' : Node V := { node with iter := node.iter.next }
        if node'.iter.isValid then
          nextLoop topKey fuel { self with heap := node' :: self.heap.erase node }
        else
          nextLoop topKey fuel ⟨self.unusedIters ++ [node'], self.heap.erase node⟩
      else self

/-- The entries left in the heap's iterators: each round of the loop moves one on. -/
def heapEntries (self : OrderedMergeIteratorInner V) : ℕ :=
  (self.heap.map fun n => n.iter.remaining.length).sum

/-- `next_inner` of `OrderedMergeIteratorInner` (`none` where it panics: no top). -/
def next [DecidableEq V] (self : OrderedMergeIteratorInner V) : Option (OrderedMergeIteratorInner V) :=
  self.current?.map fun top => nextLoop top.1 self.heapEntries self

/-- What a client reads: while valid, the current entry, then `next`. -/
def drain [DecidableEq V] : ℕ → OrderedMergeIteratorInner V → List (FullKey × V)
  | 0, _ => []
  | fuel + 1, self =>
    match self.current? with
    | none => []
    | some entry => entry :: ((self.next.map (drain fuel)).getD [])

/-! ## The heap holds the merge of what is left

Each node contributes its entries from the cursor on, under its index: these
are the heap's sources. The top node holds the least key of all sources with
its first value, and the loop of `next_inner` takes that key out of every
source; so what is read from a heap is the merge of its sources. -/

/-- The sources in the heap: each node's index with its entries from the cursor on. -/
def heapSources (heap : List (Node V)) : List (ℕ × List (FullKey × V)) :=
  heap.map fun n => (n.extraOrderInfo, n.iter.remaining)

/-- What the heap keeps: valid nodes of distinct indices, each with ascending keys. -/
structure HeapInv (heap : List (Node V)) : Prop where
  valid : ∀ n ∈ heap, n.iter.remaining ≠ []
  sorted : ∀ n ∈ heap, (n.iter.remaining.map Prod.fst).Pairwise (· < ·)
  nodup : (heap.map (·.extraOrderInfo)).Nodup

attribute [local simp] heapSources in
@[simp] theorem heapSources_map_fst (heap : List (Node V)) :
    (heapSources heap).map Prod.fst = heap.map (·.extraOrderInfo) := by
  simp [heapSources]

theorem HeapInv.wellFormed {heap : List (Node V)} (h : HeapInv heap) :
    Merge.WellFormed (heapSources heap) := by
  refine ⟨by simpa using h.nodup, fun s hs => ?_⟩
  obtain ⟨n, hn, rfl⟩ := List.mem_map.mp hs
  exact h.sorted n hn

theorem heapSources_perm {heap heap' : List (Node V)} (hp : heap.Perm heap') :
    (heapSources heap).Perm (heapSources heap') :=
  hp.map _

theorem HeapInv.perm {heap heap' : List (Node V)} (h : HeapInv heap) (hp : heap.Perm heap') :
    HeapInv heap' :=
  ⟨fun n hn => h.valid n (hp.mem_iff.mpr hn), fun n hn => h.sorted n (hp.mem_iff.mpr hn),
    (hp.map _).nodup_iff.mp h.nodup⟩

theorem HeapInv.erase [DecidableEq V] {heap : List (Node V)} (h : HeapInv heap) (node : Node V) :
    HeapInv (heap.erase node) :=
  ⟨fun n hn => h.valid n (List.mem_of_mem_erase hn),
    fun n hn => h.sorted n (List.mem_of_mem_erase hn),
    h.nodup.sublist ((List.erase_sublist).map _)⟩

/-- The heap with one of its nodes moved on by an entry, while still valid. -/
theorem HeapInv.next_cons_erase [DecidableEq V] {heap : List (Node V)} (h : HeapInv heap) {node : Node V}
    (hnode : node ∈ heap) (hv : node.iter.next.remaining ≠ []) :
    HeapInv ({ node with iter := node.iter.next } :: heap.erase node) := by
  have hp := List.perm_cons_erase hnode
  refine ⟨fun n hn => ?_, fun n hn => ?_, ?_⟩
  · rcases List.mem_cons.mp hn with rfl | hn
    · exact hv
    · exact h.valid n (List.mem_of_mem_erase hn)
  · rcases List.mem_cons.mp hn with rfl | hn
    · simpa [List.map_tail] using (h.sorted node hnode).tail
    · exact h.sorted n (List.mem_of_mem_erase hn)
  · -- The index stays: the indices are those of `node :: heap.erase node`.
    have := (hp.map (·.extraOrderInfo)).nodup_iff.mp h.nodup
    simpa using this

/-! ### Valid nodes and the heap order -/

section Order

variable {k k' : FullKey} {v v' : V} {r r' : List (FullKey × V)}

theorem Node.heapKey_eq {n : Node V} (h : n.iter.remaining = (k, v) :: r) :
    n.heapKey = ((toLex (k, n.extraOrderInfo) : FullKey ×ₗ ℕ) : WithTop (FullKey ×ₗ ℕ)) := by
  simp [Node.heapKey, h]

/-- Two valid nodes in heap order: a smaller key, or the same key and an index
no larger. -/
theorem Node.heapKey_le_iff {a b : Node V} (ha : a.iter.remaining = (k, v) :: r)
    (hb : b.iter.remaining = (k', v') :: r') :
    a.heapKey ≤ b.heapKey ↔ k < k' ∨ k = k' ∧ a.extraOrderInfo ≤ b.extraOrderInfo := by
  rw [Node.heapKey_eq ha, Node.heapKey_eq hb, WithTop.coe_le_coe, Prod.Lex.toLex_le_toLex]

theorem Node.atKey_iff {n : Node V} (h : n.iter.remaining = (k, v) :: r) :
    n.iter.current?.map Prod.fst = some k' ↔ k = k' := by
  simp [h]

end Order

/-- The top of a non-empty heap is one of its nodes, below every other. -/
theorem heapPeek_spec {heap : List (Node V)} (hne : heap ≠ []) :
    ∃ node ∈ heap, heapPeek heap = some node ∧ ∀ n ∈ heap, node.heapKey ≤ n.heapKey := by
  cases h : heapPeek heap with
  | none => exact absurd (List.argmin_eq_none.mp h) hne
  | some node => exact ⟨node, List.argmin_mem h, rfl, fun n hn => List.le_of_mem_argmin hn h⟩

/-- No key in the heap lies below `k`. -/
def KeysFrom (k : FullKey) (heap : List (Node V)) : Prop :=
  ∀ n ∈ heap, ∀ e ∈ n.iter.remaining, k ≤ e.1

theorem KeysFrom.le_keys {k : FullKey} {heap : List (Node V)} (h : KeysFrom k heap) :
    ∀ k' ∈ Merge.keys (heapSources heap), k ≤ k' := by
  intro k' hk'
  obtain ⟨s, hs, hk's⟩ := Merge.mem_keys.mp hk'
  obtain ⟨n, hn, rfl⟩ := List.mem_map.mp hs
  obtain ⟨e, he, rfl⟩ := List.mem_map.mp hk's
  exact h n hn e he

theorem KeysFrom.of_subset {k : FullKey} {heap heap' : List (Node V)} (h : KeysFrom k heap)
    (hsub : ∀ n' ∈ heap', ∃ n ∈ heap, n'.iter.remaining ⊆ n.iter.remaining) :
    KeysFrom k heap' := by
  intro n' hn' e he
  obtain ⟨n, hn, hs⟩ := hsub n' hn'
  exact h n hn e (hs he)

section Top

variable {heap : List (Node V)} {node : Node V} {k : FullKey} {v : V} {r : List (FullKey × V)}

/-- No key of the heap lies below the top node's. -/
theorem keysFrom_top (hinv : HeapInv heap) (hmin : ∀ n ∈ heap, node.heapKey ≤ n.heapKey)
    (hrem : node.iter.remaining = (k, v) :: r) : KeysFrom k heap := by
  intro n hn e he
  obtain ⟨⟨k₀, v₀⟩, r₀, hrem₀⟩ := List.exists_cons_of_ne_nil (hinv.valid n hn)
  have h₀ : k ≤ k₀ := by
    rcases (Node.heapKey_le_iff hrem hrem₀).mp (hmin n hn) with h | ⟨h, -⟩
    · exact h.le
    · exact h.le
  have hs := hinv.sorted n hn
  rw [hrem₀] at hs he
  exact h₀.trans (Merge.le_of_mem_of_sorted_cons hs (List.mem_map_of_mem he))

/-- The top node holds the first value of its key. -/
theorem firstValue_top (hinv : HeapInv heap) (hnode : node ∈ heap)
    (hmin : ∀ n ∈ heap, node.heapKey ≤ n.heapKey) (hrem : node.iter.remaining = (k, v) :: r) :
    Merge.FirstValue (heapSources heap) k v := by
  refine ⟨node.extraOrderInfo, node.iter.remaining, List.mem_map_of_mem hnode,
    by rw [hrem]; exact List.mem_cons_self, fun j l' hs hk => ?_⟩
  obtain ⟨n, hn, hnj⟩ := List.mem_map.mp hs
  obtain ⟨rfl, rfl⟩ := Prod.mk.inj hnj
  obtain ⟨⟨k₀, v₀⟩, r₀, hrem₀⟩ := List.exists_cons_of_ne_nil (hinv.valid n hn)
  have hs₀ := hinv.sorted n hn
  rw [hrem₀] at hs₀ hk
  -- `n` has `k`, so its key is at most `k`; the heap order then compares indices.
  have hk₀ : k₀ ≤ k := Merge.le_of_mem_of_sorted_cons hs₀ hk
  rcases (Node.heapKey_le_iff hrem hrem₀).mp (hmin n hn) with h | ⟨-, h⟩
  · exact absurd hk₀ (not_le.mpr h)
  · exact h

end Top

/-! ### One round of `next_inner` -/

/-- A node after the loop of `next_inner` at `topKey`: one entry on if it was at
`topKey`, and gone once invalid. -/
def advanceNode (topKey : FullKey) (n : Node V) : Option (Node V) :=
  if n.iter.current?.map Prod.fst = some topKey then
    if n.iter.next.isValid then some { n with iter := n.iter.next } else none
  else some n

/-- The heap after the loop of `next_inner` at `topKey`, up to order. -/
def advanceHeap (topKey : FullKey) (heap : List (Node V)) : List (Node V) :=
  heap.filterMap (advanceNode topKey)

section Advance

variable {heap : List (Node V)} {k : FullKey}

attribute [local simp] advanceNode in
theorem advanceNode_eq_some {n n' : Node V} (h : advanceNode k n = some n') :
    n' = n ∨ n' = { n with iter := n.iter.next } ∧ n.iter.next.remaining ≠ [] := by
  unfold advanceNode at h
  split_ifs at h with h₁ h₂
  · exact .inr ⟨(Option.some.inj h).symm, (Cursor.isValid_iff _).mp h₂⟩
  · exact .inl (Option.some.inj h).symm

theorem advanceNode_of_atKey {n : Node V} (h : n.iter.current?.map Prod.fst = some k) :
    advanceNode k n = if n.iter.next.isValid then some { n with iter := n.iter.next } else none := by
  simp only [advanceNode, h, if_true]

theorem advanceNode_of_not_atKey {n : Node V} (h : ¬ n.iter.current?.map Prod.fst = some k) :
    advanceNode k n = some n := by
  simp only [advanceNode, h, if_false]

attribute [local simp] advanceHeap in
theorem advanceHeap_of_not_atKey (h : ∀ n ∈ heap, ¬ n.iter.current?.map Prod.fst = some k) :
    advanceHeap k heap = heap := by
  rw [advanceHeap, List.filterMap_congr fun n hn => advanceNode_of_not_atKey (h n hn),
    List.filterMap_some]

theorem map_extraOrderInfo_advanceHeap_sublist (heap : List (Node V)) :
    ((advanceHeap k heap).map (·.extraOrderInfo)).Sublist (heap.map (·.extraOrderInfo)) := by
  induction heap with
  | nil => simp [advanceHeap]
  | cons n heap ih =>
    simp only [advanceHeap, List.filterMap_cons] at ih ⊢
    cases h : advanceNode k n with
    | none => exact ih.cons _
    | some n' =>
      -- A node moved on keeps its index.
      have hidx : n'.extraOrderInfo = n.extraOrderInfo := by
        rcases advanceNode_eq_some h with rfl | ⟨rfl, -⟩ <;> rfl
      rw [List.map_cons, List.map_cons, hidx]
      exact ih.cons_cons _

theorem HeapInv.advanceHeap (hinv : HeapInv heap) : HeapInv (advanceHeap k heap) := by
  refine ⟨fun n' hn' => ?_, fun n' hn' => ?_,
    hinv.nodup.sublist (map_extraOrderInfo_advanceHeap_sublist heap)⟩ <;>
  obtain ⟨n, hn, h⟩ := List.mem_filterMap.mp hn' <;>
  rcases advanceNode_eq_some h with rfl | ⟨rfl, hv⟩
  · exact hinv.valid n' hn
  · exact hv
  · exact hinv.sorted n' hn
  · simpa [List.map_tail] using (hinv.sorted n hn).tail

/-- Moving every node at the least key `k` on takes `k` out of the sources. -/
theorem heapSources_advanceHeap (hinv : HeapInv heap) (hk : KeysFrom k heap) :
    heapSources (advanceHeap k heap) = Merge.removeKey k (heapSources heap) := by
  simp only [heapSources, advanceHeap, Merge.removeKey, List.map_filterMap, List.filterMap_map]
  refine List.filterMap_congr fun n hn => ?_
  obtain ⟨⟨k₀, v₀⟩, r, hrem⟩ := List.exists_cons_of_ne_nil (hinv.valid n hn)
  have hs := hinv.sorted n hn
  rw [hrem, List.map_cons, List.pairwise_cons] at hs
  have hk₀ : k ≤ k₀ := hk n hn (k₀, v₀) (by rw [hrem]; exact List.mem_cons_self)
  have hr : ∀ e ∈ r, k₀ < e.1 := fun e he => hs.1 e.1 (List.mem_map_of_mem he)
  dsimp only [Function.comp_apply]
  rw [hrem]
  by_cases hat : k₀ = k
  · -- The node was at `k`: it moves on to `r`, and goes once `r` is empty.
    subst hat
    have hnext : n.iter.next.remaining = r := by simp [hrem]
    rw [Merge.dropKey_cons_self _ hr, advanceNode, if_pos ((Node.atKey_iff hrem).mpr rfl)]
    by_cases hrn : r = [] <;> simp [hrn, hnext]
  · -- The node lies above `k`: it stays as it is.
    have hlt : k < k₀ := lt_of_le_of_ne hk₀ (Ne.symm hat)
    rw [Merge.dropKey_of_lt _ (List.cons_ne_nil _ _) fun e he => ?_,
      advanceNode_of_not_atKey (by rw [Node.atKey_iff hrem]; exact hat)]
    · simp [hrem]
    · rcases List.mem_cons.mp he with rfl | he
      · exact hlt
      · exact hlt.trans (hr e he)

/-- One round takes one entry from each node at `k`. -/
theorem heapEntries_advanceHeap (hvalid : ∀ n ∈ heap, n.iter.remaining ≠ []) :
    ((advanceHeap k heap).map fun n => n.iter.remaining.length).sum +
        heap.countP (fun n => n.iter.current?.map Prod.fst = some k) =
      (heap.map fun n => n.iter.remaining.length).sum := by
  induction heap with
  | nil => simp [advanceHeap]
  | cons n heap ih =>
    have ih := ih fun m hm => hvalid m (List.mem_cons_of_mem _ hm)
    obtain ⟨⟨k₀, v₀⟩, r, hrem⟩ := List.exists_cons_of_ne_nil (hvalid n List.mem_cons_self)
    simp only [advanceHeap] at ih ⊢
    rw [List.filterMap_cons, List.countP_cons, List.map_cons, List.sum_cons]
    by_cases hat : k₀ = k
    · subst hat
      have hnext : n.iter.next.remaining = r := by simp [hrem]
      by_cases hrn : r = []
      · simp [advanceNode, hrem, hrn, hnext] at ih ⊢
        omega
      · simp [advanceNode, hrem, hnext, (Cursor.isValid_iff _).mpr (hnext ▸ hrn)] at ih ⊢
        omega
    · rw [advanceNode_of_not_atKey (by rw [Node.atKey_iff hrem]; exact hat)]
      simp [hrem, hat] at ih ⊢
      omega

end Advance

/-! ### The loop of `next_inner` -/

section Loop

variable [DecidableEq V] {k : FullKey}

attribute [local simp] heapPeek in
/-- Given a round for each node at the least key `k`, the loop moves every node
at `k` on and stops. -/
theorem nextLoop_heap_perm (fuel : ℕ) :
    ∀ self : OrderedMergeIteratorInner V, HeapInv self.heap → KeysFrom k self.heap →
      self.heap.countP (fun n => n.iter.current?.map Prod.fst = some k) ≤ fuel →
      (nextLoop k fuel self).heap.Perm (advanceHeap k self.heap) := by
  induction fuel with
  | zero =>
    intro self _ _ hcount
    have hnone := List.countP_eq_zero.mp (Nat.le_zero.mp hcount)
    rw [advanceHeap_of_not_atKey fun n hn => by simpa using hnone n hn]
    rfl
  | succ fuel ih =>
    intro self hinv hk hcount
    rcases eq_or_ne self.heap [] with hnil | hne
    · simp [nextLoop, hnil, heapPeek, advanceHeap]
    obtain ⟨node, hnode, hpeek, hmin⟩ := heapPeek_spec hne
    obtain ⟨⟨k₀, v₀⟩, r, hrem⟩ := List.exists_cons_of_ne_nil (hinv.valid node hnode)
    have hp := List.perm_cons_erase hnode
    by_cases hat : k₀ = k
    · -- The top is at `k`: one round moves it on, the rest is the loop on the others.
      subst hat
      have hatk : node.iter.current?.map Prod.fst = some k₀ := (Node.atKey_iff hrem).mpr rfl
      have hnext : node.iter.next.remaining = r := by simp [hrem]
      have hcount' : (self.heap.erase node).countP
          (fun n => n.iter.current?.map Prod.fst = some k₀) ≤ fuel := by
        have := hp.countP_eq (fun n => n.iter.current?.map Prod.fst = some k₀)
        rw [List.countP_cons_of_pos (by simpa using hatk)] at this
        omega
      have hadv : (advanceHeap k₀ self.heap).Perm
          (advanceHeap k₀ (node :: self.heap.erase node)) := hp.filterMap _
      have hk' : KeysFrom k₀ (self.heap.erase node) :=
        hk.of_subset fun n hn => ⟨n, List.mem_of_mem_erase hn, fun _ h => h⟩
      by_cases hrn : r = []
      · -- The top runs out and leaves the heap.
        have hv : node.iter.next.isValid = false :=
          Bool.eq_false_iff.mpr fun h => (Cursor.isValid_iff _).mp h (hnext.trans hrn)
        simp only [nextLoop, hpeek, hatk, if_true, hv, Bool.false_eq_true, if_false]
        refine (ih _ (hinv.erase node) hk' hcount').trans (hadv.trans ?_).symm
        simp only [advanceHeap, List.filterMap_cons, advanceNode_of_atKey hatk, hv,
          Bool.false_eq_true, if_false]
        exact List.Perm.refl _
      · -- The top moves on, above `k₀`, and stays.
        obtain ⟨⟨k₁, v₁⟩, r₁, hr₁⟩ := List.exists_cons_of_ne_nil hrn
        have hs := hinv.sorted node hnode
        rw [hrem, hr₁] at hs
        have hlt : k₀ < k₁ := List.rel_of_pairwise_cons hs (by simp)
        have hv : node.iter.next.isValid = true := by simp [hnext, hrn]
        have hrem' : ({ node with iter := node.iter.next } : Node V).iter.remaining =
            (k₁, v₁) :: r₁ := hnext.trans hr₁
        have hnot : ¬ ({ node with iter := node.iter.next } : Node V).iter.current?.map
            Prod.fst = some k₀ := by
          rw [Node.atKey_iff hrem']
          exact hlt.ne'
        have hinv' := hinv.next_cons_erase hnode (by rw [hnext]; exact hrn)
        have hk'' : KeysFrom k₀ ({ node with iter := node.iter.next } :: self.heap.erase node) :=
          hk.of_subset fun n hn => by
            rcases List.mem_cons.mp hn with rfl | hn
            · exact ⟨node, hnode, by rw [hnext, hrem]; exact List.subset_cons_self _ _⟩
            · exact ⟨n, List.mem_of_mem_erase hn, fun _ h => h⟩
        have hcount'' : ({ node with iter := node.iter.next } :: self.heap.erase node).countP
            (fun n => n.iter.current?.map Prod.fst = some k₀) ≤ fuel := by
          rw [List.countP_cons_of_neg (by simpa using hnot)]
          exact hcount'
        simp only [nextLoop, hpeek, hatk, if_true, hv]
        refine (ih _ hinv' hk'' hcount'').trans (hadv.trans ?_).symm
        simp only [advanceHeap, List.filterMap_cons, advanceNode_of_atKey hatk, hv, if_true,
          advanceNode_of_not_atKey hnot]
        exact List.Perm.refl _
    · -- The top lies above `k`, so no node is at `k` and the loop stops.
      have hk₀ : k < k₀ :=
        lt_of_le_of_ne (hk node hnode _ (by rw [hrem]; exact List.mem_cons_self)) (Ne.symm hat)
      have hnone : ∀ n ∈ self.heap, ¬ n.iter.current?.map Prod.fst = some k := by
        intro n hn hnk
        obtain ⟨⟨k₁, v₁⟩, r₁, hrem₁⟩ := List.exists_cons_of_ne_nil (hinv.valid n hn)
        have hk₁ : k₁ = k := (Node.atKey_iff hrem₁).mp hnk
        subst hk₁
        rcases (Node.heapKey_le_iff hrem hrem₁).mp (hmin n hn) with h | ⟨h, -⟩
        · exact lt_asymm hk₀ h
        · exact hat h
      have hnat : ¬ node.iter.current?.map Prod.fst = some k := hnone node hnode
      simp only [nextLoop, hpeek, hnat, if_false]
      rw [advanceHeap_of_not_atKey hnone]

end Loop

/-! ### Reading the heap to its end -/

section Drain

variable [DecidableEq V]

attribute [local simp] heapEntries in
/-- Reading a heap that keeps its invariant, with a round for each entry, gives the
merge of its sources. -/
theorem drain_isMerge (fuel : ℕ) :
    ∀ self : OrderedMergeIteratorInner V, HeapInv self.heap → self.heapEntries < fuel →
      Merge.IsMerge (heapSources self.heap) (self.drain fuel) := by
  induction fuel with
  | zero => exact fun _ _ h => absurd h (Nat.not_lt_zero _)
  | succ fuel ih =>
    intro self hinv hfuel
    rcases eq_or_ne self.heap [] with hnil | hne
    · -- An empty heap reads nothing.
      have hcur : self.current? = none := by simp [current?, hnil, heapPeek]
      simp only [drain, hcur, hnil]
      exact Merge.isMerge_nil (by simp [heapSources, Merge.keys])
    obtain ⟨node, hnode, hpeek, hmin⟩ := heapPeek_spec hne
    obtain ⟨⟨k, v⟩, r, hrem⟩ := List.exists_cons_of_ne_nil (hinv.valid node hnode)
    have hcur : self.current? = some (k, v) := by simp [current?, hpeek, hrem]
    have hk := keysFrom_top hinv hmin hrem
    -- Each node at `k` gives up one entry, and the top is one of them.
    have hsum := heapEntries_advanceHeap (k := k) hinv.valid
    have hpos : 0 < self.heap.countP (fun n => n.iter.current?.map Prod.fst = some k) :=
      List.countP_pos_iff.mpr ⟨node, hnode, by simpa using (Node.atKey_iff hrem).mpr rfl⟩
    have hp : (nextLoop k self.heapEntries self).heap.Perm (advanceHeap k self.heap) :=
      nextLoop_heap_perm _ self hinv hk (by simp only [heapEntries]; omega)
    have hentries : (nextLoop k self.heapEntries self).heapEntries < fuel := by
      have hsame : (nextLoop k self.heapEntries self).heapEntries =
          ((advanceHeap k self.heap).map fun n => n.iter.remaining.length).sum :=
        (hp.map _).sum_eq
      rw [hsame]
      simp only [heapEntries] at hfuel
      omega
    have hmerge := ih _ (hinv.advanceHeap.perm hp.symm) hentries
    simp only [drain, hcur, next, Option.map_some, Option.getD_some]
    refine Merge.isMerge_cons hinv.wellFormed (firstValue_top hinv hnode hmin hrem) hk.le_keys ?_
    rw [← heapSources_advanceHeap hinv hk]
    exact hmerge.perm (heapSources_perm hp)

end Drain

/-! ## Reading from `rewind` and `seek` -/

section Read

/-- The inputs as sources: each iterator's entries under its index. -/
def inputSources (iterators : List (Cursor FullKey V)) : List (ℕ × List (FullKey × V)) :=
  iterators.zipIdx.map fun p => (p.2, p.1.entries)

/-- The heap that `create`, then `rewind` or `seek`, builds: each input moved by `t`. -/
def startHeap (iterators : List (Cursor FullKey V)) (t : Cursor FullKey V → Cursor FullKey V) :
    OrderedMergeIteratorInner V :=
  buildHeap ⟨(create iterators).unusedIters.map fun n => { n with iter := t n.iter }, []⟩

attribute [local simp] resetHeap startHeap create in
theorem rewind_create (iterators : List (Cursor FullKey V)) :
    (create iterators).rewind = startHeap iterators Cursor.rewind := by
  simp [rewind, resetHeap, startHeap, create]

theorem seek_create (iterators : List (Cursor FullKey V)) (key : FullKey) :
    (create iterators).seek key = startHeap iterators (·.seek key) := by
  simp [seek, resetHeap, startHeap, create]

attribute [local simp] buildHeap in
theorem heapSources_startHeap (iterators : List (Cursor FullKey V))
    (t : Cursor FullKey V → Cursor FullKey V) :
    heapSources (startHeap iterators t).heap =
      (iterators.zipIdx.map fun p => (p.2, (t p.1).remaining)).filter fun s => s.2 ≠ [] := by
  simp only [startHeap, buildHeap, create, heapSources, List.filter_map, List.map_map]
  congr 1
  exact List.filter_congr fun p _ => by rw [Bool.eq_iff_iff]; simp

section Sorted

variable {iterators : List (Cursor FullKey V)}
  (hsorted : ∀ c ∈ iterators, (c.entries.map Prod.fst).Pairwise (· < ·))
  {t : Cursor FullKey V → Cursor FullKey V} (ht : ∀ c, (t c).entries = c.entries)

include hsorted ht in
theorem heapInv_startHeap : HeapInv (startHeap iterators t).heap := by
  refine ⟨fun n hn => ?_, fun n hn => ?_, ?_⟩
  · simpa [startHeap, buildHeap] using (List.mem_filter.mp hn).2
  · -- A node's entries from its cursor on are a sublist of its input's.
    obtain ⟨hn, -⟩ := List.mem_filter.mp hn
    simp only [create, List.map_map, List.mem_map] at hn
    obtain ⟨p, hp, rfl⟩ := hn
    have hs := hsorted p.1 (List.fst_mem_of_mem_zipIdx hp)
    rw [← ht p.1] at hs
    exact hs.sublist ((Cursor.remaining_sublist _).map _)
  · -- The indices are those of `zipIdx`, and the heap keeps some of them.
    have hidx : (create iterators).unusedIters.map (·.extraOrderInfo) =
        iterators.zipIdx.map Prod.snd := by
      simp [create, List.map_map, Function.comp_def]
    have hnodup : (iterators.zipIdx.map Prod.snd).Nodup := by
      rw [← List.unzip_snd, List.unzip_zipIdx_eq_prod]
      exact List.nodup_range'
    refine List.Nodup.sublist (List.Sublist.map _ List.filter_sublist) ?_
    simpa [List.map_map, Function.comp_def, ← hidx] using hnodup

include ht in
theorem heapEntries_startHeap_le :
    (startHeap iterators t).heapEntries ≤ (iterators.map fun c => c.entries.length).sum := by
  have hfst : iterators.zipIdx.map Prod.fst = iterators := by
    rw [← List.unzip_fst, List.unzip_zipIdx_eq_prod]
  calc (startHeap iterators t).heapEntries
      ≤ (iterators.zipIdx.map fun p => (t p.1).remaining.length).sum := by
        -- The heap keeps some of the nodes.
        simp only [heapEntries, startHeap, buildHeap, create, List.map_map]
        refine le_of_le_of_eq ((List.filter_sublist.map _).sum_le_sum fun _ _ => Nat.zero_le _) ?_
        rw [List.map_map]
        rfl
    _ ≤ (iterators.zipIdx.map fun p => p.1.entries.length).sum :=
        List.sum_le_sum fun p _ => by simpa [ht] using (Cursor.remaining_sublist (t p.1)).length_le
    _ = ((iterators.zipIdx.map Prod.fst).map fun c => c.entries.length).sum := by
        rw [List.map_map]
        rfl
    _ = (iterators.map fun c => c.entries.length).sum := by rw [hfst]

end Sorted

/-- Read from `rewind`, the merge iterator gives the merge of its inputs, each key
once with its value in the input of least index; read from `seek q`, the merge
of their entries from `q` on. -/
theorem orderedMergeIterator_reads_merge [DecidableEq V] (iterators : List (Cursor FullKey V))
    (hsorted : ∀ c ∈ iterators, (c.entries.map Prod.fst).Pairwise (· < ·)) (fuel : ℕ)
    (hfuel : (iterators.map fun c => c.entries.length).sum < fuel) :
    Merge.IsMerge (inputSources iterators) ((create iterators).rewind.drain fuel) ∧
      ∀ q, Merge.IsMerge
        ((inputSources iterators).map fun s => (s.1, s.2.filter fun e => q ≤ e.1))
        (((create iterators).seek q).drain fuel) := by
  constructor
  · have h := drain_isMerge fuel _ (heapInv_startHeap hsorted Cursor.rewind_entries)
      ((heapEntries_startHeap_le Cursor.rewind_entries).trans_lt hfuel)
    rw [heapSources_startHeap] at h
    rw [rewind_create]
    exact Merge.isMerge_filter_ne_nil.mp (by simpa [inputSources] using h)
  · intro q
    have ht : ∀ c : Cursor FullKey V, (c.seek q).entries = c.entries := fun _ => rfl
    have h := drain_isMerge fuel _ (heapInv_startHeap hsorted ht)
      ((heapEntries_startHeap_le ht).trans_lt hfuel)
    -- After `seek q` each input holds its entries from `q` on.
    have hsrc : (iterators.zipIdx.map fun p => (p.2, (p.1.seek q).remaining)) =
        (inputSources iterators).map fun s => (s.1, s.2.filter fun e => q ≤ e.1) := by
      rw [inputSources, List.map_map]
      exact List.map_congr_left fun p hp => by
        simp [Cursor.remaining_seek_of_sorted _ _ (hsorted p.1 (List.fst_mem_of_mem_zipIdx hp))]
    rw [heapSources_startHeap, hsrc] at h
    rw [seek_create]
    exact Merge.isMerge_filter_ne_nil.mp h

theorem orderedMergeIterator_reads_merge_two_inputs :
    Merge.IsMerge (inputSources [(⟨[(⟨⟨1, [1]⟩, 5⟩, 10), (⟨⟨1, [3]⟩, 5⟩, 11)], 1⟩ : Cursor FullKey ℕ),
        ⟨[(⟨⟨1, [1]⟩, 5⟩, 20), (⟨⟨1, [2]⟩, 4⟩, 21)], 0⟩])
      ((create [(⟨[(⟨⟨1, [1]⟩, 5⟩, 10), (⟨⟨1, [3]⟩, 5⟩, 11)], 1⟩ : Cursor FullKey ℕ),
        ⟨[(⟨⟨1, [1]⟩, 5⟩, 20), (⟨⟨1, [2]⟩, 4⟩, 21)], 0⟩]).rewind.drain 5) ∧
    ∀ q, Merge.IsMerge
      ((inputSources [(⟨[(⟨⟨1, [1]⟩, 5⟩, 10), (⟨⟨1, [3]⟩, 5⟩, 11)], 1⟩ : Cursor FullKey ℕ),
        ⟨[(⟨⟨1, [1]⟩, 5⟩, 20), (⟨⟨1, [2]⟩, 4⟩, 21)], 0⟩]).map
          fun s => (s.1, s.2.filter fun e => q ≤ e.1))
      (((create [(⟨[(⟨⟨1, [1]⟩, 5⟩, 10), (⟨⟨1, [3]⟩, 5⟩, 11)], 1⟩ : Cursor FullKey ℕ),
        ⟨[(⟨⟨1, [1]⟩, 5⟩, 20), (⟨⟨1, [2]⟩, 4⟩, 21)], 0⟩]).seek q).drain 5) :=
  orderedMergeIterator_reads_merge _ (by decide) 5 (by decide)

end Read

end OrderedMergeIteratorInner

example : (OrderedMergeIteratorInner.create
    [⟨[(⟨⟨1, [1]⟩, 5⟩, 10), (⟨⟨1, [3]⟩, 5⟩, 11)], 1⟩,
     ⟨[(⟨⟨1, [1]⟩, 5⟩, 20), (⟨⟨1, [2]⟩, 4⟩, 21), (⟨⟨1, [3]⟩, 6⟩, 22)], 0⟩]).rewind.drain 10 =
    [(⟨⟨1, [1]⟩, 5⟩, 10), (⟨⟨1, [2]⟩, 4⟩, 21), (⟨⟨1, [3]⟩, 6⟩, 22), (⟨⟨1, [3]⟩, 5⟩, 11)] := by
  decide

end RisingWave.Hummock
