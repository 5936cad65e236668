import Mathlib
import RisingWave.Common.Compress

/-!
# Vnode mappings

`hash/consistent_hash/mapping.rs`. A `VnodeMapping` maps each of the `VirtualNode::COUNT`
vnodes to an item, kept in the form of `compress_data`: the last index of each run of vnodes
mapped to one item, and the item. `get` finds a vnode's run by a partition point over the last
indices, and `iter` rebuilds the run lengths from the gaps between them. `to_bitmaps` gives
each item the bitmap of its vnodes, and `from_bitmaps` sets the vnodes of each bitmap.

The maps of `to_bitmaps` and `from_bitmaps` are `HashMap`s, here the lists of their entries;
`from_bitmaps` is taken over every order of the entries, since a `HashMap` iterates in none in
particular. A `Bitmap` is its list of bits, its packing into bytes is left out. A panic is
`none`. `zip_eq_debug` is a `zip`, as in a release build.
-/

namespace RisingWave.Common

open RunLength

/-- `VirtualNode::COUNT`: `1 << BITS`, with `BITS = 8`. -/
def VirtualNode.COUNT : ℕ := 1 <<< 8

/-- `VirtualNode`: its `u16`, below `COUNT` as every constructor debug-asserts. -/
structure VirtualNode where
  inner : UInt16
  lt_count : inner.toNat < VirtualNode.COUNT

/-- `VirtualNode::to_index`. -/
def VirtualNode.toIndex (v : VirtualNode) : ℕ := v.inner.toNat

theorem VirtualNode.toIndex_lt (v : VirtualNode) : v.toIndex < VirtualNode.COUNT := v.lt_count

/-- `Bitmap`, as its bits. -/
structure Bitmap where
  bits : List Bool
  deriving DecidableEq, Repr

/-- `Bitmap::len`. -/
def Bitmap.len (self : Bitmap) : ℕ := self.bits.length

/-- `Bitmap::iter_ones`: the indices of the set bits, ascending. -/
def Bitmap.iterOnes (self : Bitmap) : List ℕ :=
  (List.range self.bits.length).filter fun i => self.bits[i]?.getD false

/-- `BitmapBuilder`, as its bits. -/
structure BitmapBuilder where
  bits : List Bool
  deriving DecidableEq, Repr

/-- `BitmapBuilder::zeroed`. -/
def BitmapBuilder.zeroed (len : ℕ) : BitmapBuilder := ⟨List.replicate len false⟩

/-- `BitmapBuilder::set`; panics past the length. -/
def BitmapBuilder.set (self : BitmapBuilder) (n : ℕ) (val : Bool) : Option BitmapBuilder :=
  if n < self.bits.length then some ⟨self.bits.set n val⟩ else none

/-- `BitmapBuilder::finish`. -/
def BitmapBuilder.finish (self : BitmapBuilder) : Bitmap := ⟨self.bits⟩

/-- `VnodeMapping`, over its item type. -/
structure VnodeMapping (T : Type) where
  originalIndices : List UInt32
  data : List T
  deriving DecidableEq, Repr

namespace VnodeMapping

variable {T : Type}

/-- `len`: one past the last index. -/
def len (self : VnodeMapping T) : ℕ :=
  (self.originalIndices.getLast?.map fun i => i.toNat + 1).getD 0

/-- `get`, by `Index<VirtualNode>`: the item of the first run whose last index is not below the
vnode; indexing `data` past its end panics. -/
def get (self : VnodeMapping T) (vnode : VirtualNode) : Option T :=
  self.data[List.partitionPoint (fun i => decide (i < UInt32.ofNat vnode.toIndex))
    self.originalIndices]?

/-- The run lengths of `iter`: the gaps in `0`, then one past each last index. -/
def runLengths (originalIndices : List UInt32) : List ℕ :=
  let bounds := 0 :: originalIndices.map (· + 1)
  (bounds.zip bounds.tail).map fun p => (p.2 - p.1).toNat

/-- `iter`: each item repeated its run's length. -/
def iter (self : VnodeMapping T) : List T :=
  (self.data.zip (runLengths self.originalIndices)).flatMap fun p => List.replicate p.2 p.1

/-- `iter_with_vnode`, each vnode by its index. -/
def iterWithVnode (self : VnodeMapping T) : List (ℕ × T) :=
  self.iter.zipIdx.map fun p => (p.2, p.1)

/-- `to_expanded`. -/
def toExpanded (self : VnodeMapping T) : List T := self.iter

/-- `transform`: the items mapped, the runs kept. -/
def transform {T2 : Type} (self : VnodeMapping T) (toMap : T → T2) : VnodeMapping T2 :=
  ⟨self.originalIndices, self.data.map toMap⟩

/-- The loop state of `new_uniform`. -/
structure UniformState (T : Type) where
  originalIndices : List UInt32
  data : List T
  oneMoreCount : ℕ
  initBound : ℕ

/-- One round of the loop of `new_uniform`: the item takes one vnode more while
`one_more_count` lasts, and its last vnode is pushed as a `u32`. -/
def uniformStep (hashShardSize : ℕ) (s : UniformState T) (item : T) : UniformState T :=
  let (vnodeCount, oneMoreCount) :=
    if s.oneMoreCount > 0 then (hashShardSize + 1, s.oneMoreCount - 1)
    else (hashShardSize, s.oneMoreCount)
  let initBound := s.initBound + vnodeCount
  { originalIndices := s.originalIndices ++ [UInt32.ofNat initBound - 1]
    data := s.data ++ [item]
    oneMoreCount
    initBound }

/-- `new_uniform`: asserts there are at most `COUNT` items; with none, `COUNT / 0` panics. The
duplicate check is a `debug_assert`, left out as in a release build. -/
def newUniform (items : List T) : Option (VnodeMapping T) :=
  if VirtualNode.COUNT < items.length then none
  else if items.length = 0 then none
  else
    let s := items.foldl (uniformStep (VirtualNode.COUNT / items.length))
      ⟨[], [], VirtualNode.COUNT % items.length, 0⟩
    some ⟨s.originalIndices, s.data⟩

/-- `new_single`. -/
def newSingle (item : T) : Option (VnodeMapping T) := newUniform [item]

section Items

variable [DecidableEq T]

/-- `from_expanded`: asserts the length is `COUNT`, then `compress_data`. -/
def fromExpanded (items : List T) : Option (VnodeMapping T) :=
  if items.length ≠ VirtualNode.COUNT then none
  else
    let (originalIndices, data) := compressData items
    some ⟨originalIndices, data⟩

/-- In `to_bitmaps`, `vnode_bitmaps.entry(item).or_insert_with(|| BitmapBuilder::zeroed(COUNT))
.set(vnode, true)`, the map as the list of its entries. -/
def setVnode (item : T) (vnode : ℕ) :
    List (T × BitmapBuilder) → Option (List (T × BitmapBuilder))
  | [] => ((BitmapBuilder.zeroed VirtualNode.COUNT).set vnode true).map fun b => [(item, b)]
  | (k, b) :: m =>
    if k = item then (b.set vnode true).map fun b => (k, b) :: m
    else (setVnode item vnode m).map ((k, b) :: ·)

/-- `to_bitmaps`. -/
def toBitmaps (self : VnodeMapping T) : Option (List (T × Bitmap)) :=
  (self.iterWithVnode.foldlM (fun m p => setVnode p.2 p.1 m) []).map
    fun m => m.map fun e => (e.1, e.2.finish)

/-- The inner loop of `from_bitmaps`: each set bit maps its vnode to the item, and panics where
the vnode is mapped already. -/
def setOnes (item : T) : List (Option T) → List ℕ → Option (List (Option T))
  | items, [] => some items
  | items, idx :: idxs =>
    match items[idx]? with
    | some none => setOnes item (items.set idx (some item)) idxs
    | _ => none

/-- The outer loop of `from_bitmaps`, which asserts each bitmap has `COUNT` bits. -/
def fromBitmapsLoop : List (Option T) → List (T × Bitmap) → Option (List (Option T))
  | items, [] => some items
  | items, (item, bitmap) :: bitmaps =>
    if bitmap.len ≠ VirtualNode.COUNT then none
    else (setOnes item items bitmap.iterOnes).bind (fromBitmapsLoop · bitmaps)

/-- `from_bitmaps`: every vnode must be set, then `from_expanded`. -/
def fromBitmaps (bitmaps : List (T × Bitmap)) : Option (VnodeMapping T) := do
  let items ← fromBitmapsLoop (List.replicate VirtualNode.COUNT none) bitmaps
  let items ← items.mapM id
  fromExpanded items

end Items

/-! ## The mapping of a run-length code -/

/-- The gaps of ascending `u32`s are those of their values. -/
theorem gaps_map_ofNat (l : List ℕ) (hchain : List.IsChain (· ≤ ·) l)
    (hlt : ∀ e ∈ l, e < 2 ^ 32) :
    ((l.map UInt32.ofNat).zip (l.map UInt32.ofNat).tail).map (fun p => (p.2 - p.1).toNat) =
      gaps l := by
  induction l with
  | nil => rfl
  | cons a l ih =>
    cases l with
    | nil => rfl
    | cons b l =>
      obtain ⟨hab, hchain'⟩ := List.isChain_cons_cons.mp hchain
      have ha : (UInt32.ofNat a).toNat = a := Nat.mod_eq_of_lt (hlt a List.mem_cons_self)
      have hb : (UInt32.ofNat b).toNat = b :=
        Nat.mod_eq_of_lt (hlt b (List.mem_cons_of_mem a List.mem_cons_self))
      have hsub : (UInt32.ofNat b - UInt32.ofNat a).toNat = b - a := by
        rw [UInt32.toNat_sub_of_le _ _ (UInt32.le_iff_toNat_le.mpr (by omega)), ha, hb]
      have htail := ih hchain' fun e he => hlt e (List.mem_cons_of_mem a he)
      simp only [gaps, List.map_cons, List.tail_cons, List.zip_cons_cons] at htail ⊢
      rw [hsub, htail]

/-- `runLengths` of last indices that fit a `u32`: the gaps in `0`, then one past each. -/
theorem runLengths_map_ofNat (l : List ℕ) (hchain : List.IsChain (· ≤ ·) (0 :: l.map (· + 1)))
    (hlt : ∀ e ∈ l, e + 1 < 2 ^ 32) :
    runLengths (l.map UInt32.ofNat) = gaps (0 :: l.map (· + 1)) := by
  have hbounds : (0 : UInt32) :: (l.map UInt32.ofNat).map (· + 1) =
      (0 :: l.map (· + 1)).map UInt32.ofNat := by
    simp [UInt32.ofNat_add]
  rw [runLengths, hbounds, gaps_map_ofNat _ hchain]
  intro e he
  rcases List.mem_cons.mp he with rfl | he
  · exact Nat.two_pow_pos 32
  · obtain ⟨e', he', rfl⟩ := List.mem_map.mp he
    exact hlt e' he'

/-- The mapping of a run-length code: its last indices as `u32`s, and its items. -/
def ofRuns (rs : List (T × ℕ)) : VnodeMapping T :=
  ⟨(lastIndices 0 rs).map UInt32.ofNat, rs.map Prod.fst⟩

section OfRuns

variable {rs : List (T × ℕ)} (hpos : ∀ r ∈ rs, 0 < r.2) (hfit : (expand rs).length < 2 ^ 32)
include hpos hfit

attribute [local simp] ofRuns in
theorem runLengths_ofRuns : runLengths (ofRuns rs).originalIndices = rs.map Prod.snd := by
  rw [ofRuns, runLengths_map_ofNat _ (isChain_lastIndices hpos 0), gaps_lastIndices hpos]
  intro e he
  have := lt_of_mem_lastIndices hpos he
  omega

attribute [local simp] iter in
theorem iter_ofRuns : (ofRuns rs).iter = expand rs := by
  rw [iter, runLengths_ofRuns hpos hfit]
  show ((rs.map Prod.fst).zip (rs.map Prod.snd)).flatMap _ = _
  rw [List.zip_map', List.flatMap_map]
  rfl

attribute [local simp] len in
theorem len_ofRuns (hne : rs ≠ []) : (ofRuns rs).len = (expand rs).length := by
  have hlen : 0 < (expand rs).length := by
    obtain ⟨r, rs', rfl⟩ := List.exists_cons_of_ne_nil hne
    have := hpos r List.mem_cons_self
    simp; omega
  have htoNat : (UInt32.ofNat ((expand rs).length - 1)).toNat = (expand rs).length - 1 :=
    Nat.mod_eq_of_lt (by omega)
  simp only [len, ofRuns, List.getLast?_map, getLast?_lastIndices hpos 0 hne, Nat.zero_add,
    Option.map_some, Option.getD_some, htoNat]
  omega

attribute [local simp] VirtualNode.COUNT in
/-- `get` at a vnode is the vnode's item in the expansion. -/
theorem get_ofRuns (v : VirtualNode) : (ofRuns rs).get v = (expand rs)[v.toIndex]? := by
  have hv : v.toIndex < 2 ^ 32 := by
    have := v.toIndex_lt
    simp only [VirtualNode.COUNT] at this
    omega
  -- below `2 ^ 32` the `u32` comparison is that of the values
  have hcmp : ∀ e ∈ lastIndices 0 rs,
      ((fun i => decide (i < UInt32.ofNat v.toIndex)) ∘ UInt32.ofNat) e = decide (e < v.toIndex) := by
    intro e he
    have he' := lt_of_mem_lastIndices hpos he
    have h1 : (UInt32.ofNat e).toNat = e := Nat.mod_eq_of_lt (by omega)
    have h2 : (UInt32.ofNat v.toIndex).toNat = v.toIndex := Nat.mod_eq_of_lt hv
    simp only [Function.comp_apply, UInt32.lt_iff_toNat_lt, h1, h2]
  rw [get, ofRuns]
  rw [List.partitionPoint_map, List.partitionPoint_congr hcmp,
    getElem?_partitionPoint_lastIndices hpos, Nat.sub_zero]

end OfRuns

/-- `transform` maps the items of the expansion. -/
theorem iter_transform {T2 : Type} (m : VnodeMapping T) (f : T → T2) :
    (m.transform f).iter = m.iter.map f := by
  rw [iter, iter, transform]
  dsimp only
  rw [List.zip_map_left, List.flatMap_map, List.map_flatMap]
  congr 1
  funext p
  simp [List.map_replicate]

/-! ## Uniform mappings -/

/-- How many of `c` vnodes a balanced split gives the `i`-th of `n` items: the first `c % n`
items take one more than `c / n`. -/
def uniformCount (c n i : ℕ) : ℕ := c / n + if i < c % n then 1 else 0

/-- Where the `i`-th block of that split starts, the blocks laid out in item order. -/
def uniformStart (c n i : ℕ) : ℕ := i * (c / n) + min i (c % n)

attribute [local simp] uniformStart uniformCount in
theorem uniformStart_succ (c n i : ℕ) :
    uniformStart c n (i + 1) = uniformStart c n i + uniformCount c n i := by
  simp only [uniformStart, uniformCount, Nat.succ_mul]
  split <;> omega

/-- The blocks cover all `c` vnodes. -/
theorem uniformStart_self {c n : ℕ} (hn : 0 < n) : uniformStart c n n = c := by
  have hmod : c % n < n := Nat.mod_lt c hn
  calc uniformStart c n n = n * (c / n) + c % n := by
        rw [uniformStart, Nat.mul_comm, Nat.min_eq_right hmod.le]
    _ = c := Nat.div_add_mod c n

theorem uniformCount_pos {c n : ℕ} (hn : 0 < n) (hle : n ≤ c) (i : ℕ) : 0 < uniformCount c n i := by
  have := Nat.div_pos hle hn
  simp only [uniformCount]
  omega

/-- The runs of a uniform mapping: the items from index `i` on, each with its count. -/
def uniformRuns (c n : ℕ) (items : List T) (i : ℕ) : List (T × ℕ) :=
  (items.zipIdx i).map fun p => (p.1, uniformCount c n p.2)

@[simp] theorem uniformRuns_nil (c n i : ℕ) : uniformRuns c n ([] : List T) i = [] := rfl

attribute [local simp] uniformRuns in
theorem map_fst_uniformRuns (c n : ℕ) (items : List T) (i : ℕ) :
    (uniformRuns c n items i).map Prod.fst = items := by
  rw [uniformRuns, List.map_map]
  exact List.zipIdx_map_fst i items

@[simp] theorem uniformRuns_cons (c n : ℕ) (a : T) (items : List T) (i : ℕ) :
    uniformRuns c n (a :: items) i = (a, uniformCount c n i) :: uniformRuns c n items (i + 1) := by
  simp [uniformRuns, List.zipIdx_cons]

section Uniform

variable {c n : ℕ}

/-- One round of the loop, with `one_more_count` and `init_bound` what they are after `i` items:
the `i`-th item takes its block, and both move on to `i + 1`. -/
theorem uniformStep_eq {s : UniformState T} {i : ℕ} (hmore : s.oneMoreCount = c % n - i)
    (hbound : s.initBound = uniformStart c n i) (hpos : 0 < uniformCount c n i) (item : T) :
    uniformStep (c / n) s item =
      ⟨s.originalIndices ++ [UInt32.ofNat (uniformStart c n i + uniformCount c n i - 1)],
        s.data ++ [item], c % n - (i + 1), uniformStart c n (i + 1)⟩ := by
  have hcast : UInt32.ofNat (uniformStart c n i + uniformCount c n i) - 1 =
      UInt32.ofNat (uniformStart c n i + uniformCount c n i - 1) := by
    rw [UInt32.ofNat_sub (show 1 ≤ uniformStart c n i + uniformCount c n i by omega)]
    rfl
  rw [uniformStart_succ, ← hcast]
  simp only [uniformStep]
  by_cases hi : i < c % n
  · -- the remainder lasts: one vnode more, and one less left
    rw [if_pos (show s.oneMoreCount > 0 by omega)]
    simp only [hbound, hmore, uniformCount, if_pos hi, Nat.sub_sub]
  · rw [if_neg (show ¬s.oneMoreCount > 0 by omega)]
    simp only [hbound, hmore, uniformCount, if_neg hi, Nat.add_zero,
      Nat.sub_eq_zero_of_le (Nat.le_of_not_lt hi), Nat.sub_eq_zero_of_le (Nat.le_succ_of_le (Nat.le_of_not_lt hi))]

/-- The loop over the items from index `i` on lays out their blocks after those before. -/
theorem foldl_uniformStep (hn : 0 < n) (hle : n ≤ c) (l : List T) (i : ℕ) (s : UniformState T)
    (hmore : s.oneMoreCount = c % n - i) (hbound : s.initBound = uniformStart c n i) :
    l.foldl (uniformStep (c / n)) s =
      ⟨s.originalIndices ++ (lastIndices (uniformStart c n i) (uniformRuns c n l i)).map UInt32.ofNat,
        s.data ++ l, c % n - (i + l.length), uniformStart c n (i + l.length)⟩ := by
  induction l generalizing i s with
  | nil =>
    simp only [List.foldl_nil, uniformRuns_nil, lastIndices_nil, List.map_nil, List.append_nil,
      List.length_nil, Nat.add_zero, ← hmore, ← hbound]
  | cons a l ih =>
    rw [List.foldl_cons, uniformStep_eq hmore hbound (uniformCount_pos hn hle i) a,
      ih (i + 1) _ rfl rfl]
    simp [uniformStart_succ, Nat.add_assoc, Nat.add_comm 1]

/-- `new_uniform` of one to `COUNT` items is the mapping of their uniform runs. -/
theorem newUniform_eq {items : List T} (hne : items ≠ []) (hle : items.length ≤ VirtualNode.COUNT) :
    newUniform items = some (ofRuns (uniformRuns VirtualNode.COUNT items.length items 0)) := by
  have hn : 0 < items.length := List.length_pos_of_ne_nil hne
  rw [newUniform, if_neg (by omega), if_neg (by omega),
    foldl_uniformStep hn hle items 0 _ (Nat.sub_zero _).symm (by simp [uniformStart])]
  simp [ofRuns, map_fst_uniformRuns, uniformStart]

example : (newUniform [0, 1, 2]).map (fun m => (m.originalIndices, m.data)) =
    some ([85, 170, 255], [0, 1, 2]) := by
  decide

/-- The runs before the `j`-th end where its block starts. -/
theorem sum_take_uniformRuns (items : List T) (i : ℕ) {j : ℕ} (hj : j ≤ items.length) :
    (((uniformRuns c n items i).take j).map Prod.snd).sum + uniformStart c n i =
      uniformStart c n (i + j) := by
  induction items generalizing i j with
  | nil => simp_all
  | cons a items ih =>
    cases j with
    | zero => simp
    | succ j =>
      have hrest := ih (i + 1) (Nat.le_of_succ_le_succ hj)
      simp only [uniformRuns_cons, List.take_succ_cons, List.map_cons, List.sum_cons]
      rw [uniformStart_succ] at hrest
      rw [show i + (j + 1) = i + 1 + j by omega, ← hrest]
      omega

@[simp] theorem length_uniformRuns (items : List T) (i : ℕ) :
    (uniformRuns c n items i).length = items.length := by
  simp [uniformRuns]

theorem getElem_uniformRuns (items : List T) {j : ℕ} (hj : j < (uniformRuns c n items 0).length) :
    (uniformRuns c n items 0)[j] = (items.get ⟨j, by simpa using hj⟩, uniformCount c n j) := by
  simp [uniformRuns]


end Uniform

/-! ## Bitmaps -/

theorem mem_iterOnes {b : Bitmap} {i : ℕ} : i ∈ b.iterOnes ↔ b.bits[i]? = some true := by
  simp only [Bitmap.iterOnes, List.mem_filter, List.mem_range]
  constructor
  · rintro ⟨hi, hb⟩
    rw [List.getElem?_eq_getElem hi] at hb ⊢
    simpa using hb
  · intro hb
    obtain ⟨hi, -⟩ := List.getElem?_eq_some_iff.mp hb
    exact ⟨hi, by rw [hb]; rfl⟩

theorem nodup_iterOnes (b : Bitmap) : b.iterOnes.Nodup :=
  List.nodup_range.filter _

section Bitmaps

variable [DecidableEq T]

/-- The bits of the vnodes below `k` that `x` maps to `a`. -/
def bitsUpTo (x : List T) (k : ℕ) (a : T) : List Bool :=
  (List.range VirtualNode.COUNT).map fun v => decide (v < k ∧ x[v]? = some a)

attribute [local simp] bitsUpTo in
@[simp] theorem length_bitsUpTo (x : List T) (k : ℕ) (a : T) :
    (bitsUpTo x k a).length = VirtualNode.COUNT := by
  simp [bitsUpTo]

theorem bitsUpTo_of_not_mem {x : List T} {k : ℕ} {a : T} (ha : a ∉ x.take k) :
    bitsUpTo x k a = List.replicate VirtualNode.COUNT false := by
  have hnone : ∀ v, ¬ (v < k ∧ x[v]? = some a) := by
    rintro v ⟨hv, hx⟩
    exact ha (List.mem_of_getElem? (by rw [List.getElem?_take, if_pos hv]; exact hx))
  simp [bitsUpTo, hnone]

theorem getElem?_bitsUpTo (x : List T) (k : ℕ) (a : T) (i : ℕ) :
    (bitsUpTo x k a)[i]? =
      if i < VirtualNode.COUNT then some (decide (i < k ∧ x[i]? = some a)) else none := by
  by_cases hi : i < VirtualNode.COUNT <;> simp [bitsUpTo, hi]

/-- The next vnode sets its item's bit. -/
theorem bitsUpTo_succ {x : List T} {k : ℕ} {b : T} (hxk : x[k]? = some b) (a : T) :
    bitsUpTo x (k + 1) a = if a = b then (bitsUpTo x k a).set k true else bitsUpTo x k a := by
  apply List.ext_getElem?
  intro i
  by_cases hab : a = b
  · subst hab
    by_cases hik : k = i
    · subst hik
      simp [getElem?_bitsUpTo, List.getElem?_set, hxk]
    · have hlt : i < k + 1 ↔ i < k := by omega
      simp [getElem?_bitsUpTo, hik, hlt]
  · by_cases hik : i = k
    · subst hik
      simp [getElem?_bitsUpTo, hab, hxk, Ne.symm hab]
    · have hlt : i < k + 1 ↔ i < k := by omega
      simp [getElem?_bitsUpTo, hab, hlt]

theorem bitsUpTo_length_eq {x : List T} (hx : x.length = VirtualNode.COUNT) (a : T) :
    bitsUpTo x x.length a = x.map fun y => decide (y = a) := by
  apply List.ext_getElem?
  intro i
  by_cases hi : i < x.length
  · simp [bitsUpTo, hi, ← hx]
  · simp [bitsUpTo, ← hx, hi]

attribute [local simp] setVnode BitmapBuilder.set in
theorem setVnode_of_mem {item : T} {vnode : ℕ} {b : BitmapBuilder}
    {m₁ m₂ : List (T × BitmapBuilder)} (h₁ : item ∉ m₁.map Prod.fst)
    (hv : vnode < b.bits.length) :
    setVnode item vnode (m₁ ++ (item, b) :: m₂) =
      some (m₁ ++ (item, ⟨b.bits.set vnode true⟩) :: m₂) := by
  induction m₁ with
  | nil => simp [setVnode, BitmapBuilder.set, hv]
  | cons e m₁ ih =>
    have hne : e.1 ≠ item := fun h => h₁ (by simp [← h])
    rw [List.cons_append, setVnode, if_neg hne,
      ih fun h => h₁ (List.mem_cons_of_mem _ h)]
    rfl

theorem setVnode_of_not_mem {item : T} {vnode : ℕ} {m : List (T × BitmapBuilder)}
    (h : item ∉ m.map Prod.fst) (hv : vnode < VirtualNode.COUNT) :
    setVnode item vnode m =
      some (m ++ [(item, ⟨(List.replicate VirtualNode.COUNT false).set vnode true⟩)]) := by
  induction m with
  | nil => simp [setVnode, BitmapBuilder.set, BitmapBuilder.zeroed, hv]
  | cons e m ih =>
    have hne : e.1 ≠ item := fun he => h (by simp [← he])
    rw [setVnode, if_neg hne, ih fun h' => h (List.mem_cons_of_mem _ h')]
    rfl

/-- The map of `to_bitmaps` after the first `k` vnodes of `x`: one entry for each item among
them, with the bits of its vnodes. -/
structure BitmapsUpTo (x : List T) (k : ℕ) (m : List (T × BitmapBuilder)) : Prop where
  nodup : (m.map Prod.fst).Nodup
  keys : ∀ a, a ∈ m.map Prod.fst ↔ a ∈ x.take k
  bits : ∀ e ∈ m, e.2.bits = bitsUpTo x k e.1

theorem bitmapsUpTo_nil (x : List T) : BitmapsUpTo x 0 [] :=
  ⟨List.nodup_nil, by simp, by simp⟩

/-- The step of `to_bitmaps`: the vnode `k` is set in its item's bitmap, made if new. -/
theorem BitmapsUpTo.setVnode {x : List T} {k : ℕ} {m : List (T × BitmapBuilder)} {b : T}
    (h : BitmapsUpTo x k m) (hk : k < VirtualNode.COUNT) (hxk : x[k]? = some b) :
    ∃ m', VnodeMapping.setVnode b k m = some m' ∧ BitmapsUpTo x (k + 1) m' := by
  have htake : ∀ a, a ∈ x.take (k + 1) ↔ a ∈ x.take k ∨ a = b := by
    intro a
    rw [List.take_add_one, hxk]
    simp
  -- an entry of another item keeps its bits
  have hother : ∀ e : T × BitmapBuilder, e.1 ≠ b → e.2.bits = bitsUpTo x k e.1 →
      e.2.bits = bitsUpTo x (k + 1) e.1 := fun e hne he => by
    rw [bitsUpTo_succ hxk, if_neg hne, he]
  by_cases hb : b ∈ m.map Prod.fst
  · -- the item has its entry: its bit `k` is set
    obtain ⟨⟨c, bb⟩, he, hcb⟩ := List.mem_map.mp hb
    dsimp only at hcb
    subst hcb
    obtain ⟨m₁, m₂, rfl⟩ := List.append_of_mem he
    have hout := h.nodup
    simp only [List.map_append, List.map_cons] at hout
    rw [List.nodup_middle, List.nodup_cons, List.mem_append, not_or] at hout
    obtain ⟨⟨h₁, h₂⟩, -⟩ := hout
    have hbits : bb.bits = bitsUpTo x k c := h.bits _ he
    rw [setVnode_of_mem h₁ (by rw [hbits, length_bitsUpTo]; exact hk)]
    refine ⟨_, rfl, ⟨by simpa using h.nodup, fun a => ?_, fun e he' => ?_⟩⟩
    · have hkeys := h.keys a
      simp only [List.map_append, List.map_cons] at hkeys ⊢
      rw [hkeys, htake]
      constructor
      · exact Or.inl
      · rintro (ha | rfl)
        · exact ha
        · exact (h.keys _).mp hb
    · rcases List.mem_append.mp he' with he₁ | he₂
      · exact hother e (fun hc => h₁ (List.mem_map.mpr ⟨e, he₁, hc⟩))
          (h.bits e (List.mem_append_left _ he₁))
      · rcases List.mem_cons.mp he₂ with rfl | he₂
        · simp [bitsUpTo_succ hxk, hbits]
        · exact hother e (fun hc => h₂ (List.mem_map.mpr ⟨e, he₂, hc⟩))
            (h.bits e (List.mem_append_right _ (List.mem_cons_of_mem _ he₂)))
  · -- a new item: its bitmap is made with the one bit
    have hnew : b ∉ x.take k := fun hm => hb ((h.keys b).mpr hm)
    rw [setVnode_of_not_mem hb hk]
    refine ⟨_, rfl, ⟨?_, fun a => ?_, fun e he => ?_⟩⟩
    · have hfresh : ∀ a bb, (a, bb) ∈ m → ¬ a = b := fun a bb hm hab =>
        hb (List.mem_map.mpr ⟨(a, bb), hm, hab⟩)
      simpa [List.nodup_append] using ⟨h.nodup, hfresh⟩
    · simp only [List.map_append, List.map_cons, List.map_nil, List.mem_append,
        List.mem_singleton, h.keys a, htake]
    · rcases List.mem_append.mp he with he | he
      · exact hother e (fun hc => hb (List.mem_map.mpr ⟨e, he, hc⟩)) (h.bits e he)
      · rw [List.mem_singleton] at he
        subst he
        simp [bitsUpTo_succ hxk, bitsUpTo_of_not_mem hnew]

/-- The run of `to_bitmaps` over the vnodes from `k` on. -/
theorem BitmapsUpTo.foldlM {x : List T} (hx : x.length ≤ VirtualNode.COUNT) :
    ∀ (s : List T) (k : ℕ) (m : List (T × BitmapBuilder)), x.drop k = s → k ≤ x.length →
      BitmapsUpTo x k m →
      ∃ m', (s.zipIdx k).foldlM (fun m p => VnodeMapping.setVnode p.1 p.2 m) m = some m' ∧
        BitmapsUpTo x x.length m' := by
  intro s
  induction s with
  | nil =>
    intro k m hs hk h
    have hlen : k = x.length := by
      have := List.drop_eq_nil_iff.mp hs
      omega
    exact ⟨m, rfl, hlen ▸ h⟩
  | cons b s ih =>
    intro k m hs hk h
    have hlt : k < x.length := by
      by_contra hge
      rw [List.drop_eq_nil_of_le (by omega)] at hs
      exact List.cons_ne_nil _ _ hs.symm
    have hxk : x[k]? = some b := by
      rw [List.drop_eq_getElem_cons hlt, List.cons.injEq] at hs
      rw [List.getElem?_eq_getElem hlt, hs.1]
    have hrest : x.drop (k + 1) = s := by
      rw [List.drop_eq_getElem_cons hlt, List.cons.injEq] at hs
      exact hs.2
    obtain ⟨m₁, hm₁, h₁⟩ := h.setVnode (by omega) hxk
    obtain ⟨m', hm', h'⟩ := ih (k + 1) m₁ hrest hlt h₁
    refine ⟨m', ?_, h'⟩
    rw [List.zipIdx_cons, List.foldlM_cons, hm₁]
    exact hm'

/-- Bitmaps of the vnodes of each item of `x`: one for each item, for distinct items. -/
structure BitmapsOf (x : List T) (l : List (T × Bitmap)) : Prop where
  nodup : (l.map Prod.fst).Nodup
  keys : ∀ a, a ∈ l.map Prod.fst ↔ a ∈ x
  bits : ∀ e ∈ l, e.2.bits = x.map fun y => decide (y = e.1)

theorem BitmapsOf.perm {x : List T} {l l' : List (T × Bitmap)} (h : BitmapsOf x l)
    (hp : l'.Perm l) : BitmapsOf x l' where
  nodup := ((hp.map Prod.fst).nodup_iff).mpr h.nodup
  keys a := ((hp.map Prod.fst).mem_iff).trans (h.keys a)
  bits e he := h.bits e (hp.mem_iff.mp he)

/-- `to_bitmaps` of a mapping of `COUNT` vnodes gives each of its items the bitmap of its
vnodes. -/
theorem toBitmaps_bitmapsOf (m : VnodeMapping T) (hx : m.iter.length = VirtualNode.COUNT) :
    ∃ l, m.toBitmaps = some l ∧ BitmapsOf m.iter l := by
  obtain ⟨m', hm', h'⟩ := BitmapsUpTo.foldlM hx.le m.iter 0 [] rfl (Nat.zero_le _)
    (bitmapsUpTo_nil _)
  refine ⟨m'.map fun e => (e.1, e.2.finish), ?_, ⟨?_, fun a => ?_, fun e he => ?_⟩⟩
  · rw [toBitmaps, iterWithVnode, List.foldlM_map]
    exact congrArg (Option.map _) hm'
  · have hkeys : (m'.map fun e => (e.1, e.2.finish)).map Prod.fst = m'.map Prod.fst := by
      simp [Function.comp_def]
    rw [hkeys]
    exact h'.nodup
  · have hkeys : (m'.map fun e => (e.1, e.2.finish)).map Prod.fst = m'.map Prod.fst := by
      simp [Function.comp_def]
    rw [hkeys, h'.keys a, List.take_length]
  · obtain ⟨e', he', rfl⟩ := List.mem_map.mp he
    rw [← bitsUpTo_length_eq hx]
    exact h'.bits e' he'

/-- The vnodes of `x` mapped so far: those of the items in `done`. -/
def itemsOf (x : List T) (done : List T) : List (Option T) :=
  x.map fun y => if y ∈ done then some y else none

attribute [local simp] itemsOf in
theorem itemsOf_congr (x : List T) {d₁ d₂ : List T} (h : ∀ y, y ∈ d₁ ↔ y ∈ d₂) :
    itemsOf x d₁ = itemsOf x d₂ := by
  simp [itemsOf, h]

omit [DecidableEq T] in
/-- `setOnes` of distinct unset vnodes sets each of them. -/
theorem setOnes_spec (item : T) :
    ∀ (idxs : List ℕ) (items : List (Option T)), idxs.Nodup →
      (∀ i ∈ idxs, items[i]? = some none) →
      ∃ items', setOnes item items idxs = some items' ∧
        ∀ i, items'[i]? = if i ∈ idxs then some (some item) else items[i]? := by
  intro idxs
  induction idxs with
  | nil => exact fun items _ _ => ⟨items, rfl, fun i => by simp⟩
  | cons idx idxs ih =>
    intro items hnodup hnone
    obtain ⟨hidx, hnodup'⟩ := List.nodup_cons.mp hnodup
    have hat : items[idx]? = some none := hnone idx List.mem_cons_self
    have hlt : idx < items.length := (List.getElem?_eq_some_iff.mp hat).1
    obtain ⟨items', hset, hitems'⟩ := ih (items.set idx (some item)) hnodup' fun i hi => by
      rw [List.getElem?_set, if_neg (fun (h : idx = i) => hidx (h ▸ hi))]
      exact hnone i (List.mem_cons_of_mem _ hi)
    refine ⟨items', by rw [setOnes, hat]; exact hset, fun i => ?_⟩
    rw [hitems' i, List.getElem?_set]
    by_cases hi : i = idx
    · subst hi
      simp [hidx, hlt]
    · simp [hi, Ne.symm hi]

/-- One bitmap of `from_bitmaps`: the vnodes of its item are mapped to it. -/
theorem setOnes_itemsOf {x : List T} {done : List T} {a : T} (ha : a ∉ done) :
    setOnes a (itemsOf x done) (Bitmap.iterOnes ⟨x.map fun y => decide (y = a)⟩) =
      some (itemsOf x (a :: done)) := by
  have hones : ∀ i, i ∈ (Bitmap.iterOnes ⟨x.map fun y => decide (y = a)⟩) ↔ x[i]? = some a := by
    intro i
    rw [mem_iterOnes, List.getElem?_map]
    cases x[i]? <;> simp
  obtain ⟨items', hset, hitems'⟩ := setOnes_spec a _ (itemsOf x done) (nodup_iterOnes _)
    fun i hi => by simp [itemsOf, (hones i).mp hi, ha]
  rw [hset, Option.some.injEq]
  apply List.ext_getElem?
  intro i
  rw [hitems' i]
  by_cases hxi : x[i]? = some a
  · rw [if_pos ((hones i).mpr hxi)]
    simp [itemsOf, hxi]
  · rw [if_neg fun h => hxi ((hones i).mp h)]
    simp only [itemsOf, List.getElem?_map]
    cases hy : x[i]? with
    | none => rfl
    | some y =>
      have hya : y ≠ a := fun h => hxi (h ▸ hy)
      simp [hya]

/-- The loop of `from_bitmaps` over bitmaps of distinct new items. -/
theorem fromBitmapsLoop_itemsOf {x : List T} (hx : x.length = VirtualNode.COUNT) :
    ∀ (l : List (T × Bitmap)) (done : List T), (l.map Prod.fst).Nodup →
      (∀ e ∈ l, e.1 ∉ done) → (∀ e ∈ l, e.2.bits = x.map fun y => decide (y = e.1)) →
      fromBitmapsLoop (itemsOf x done) l = some (itemsOf x (done ++ l.map Prod.fst)) := by
  intro l
  induction l with
  | nil =>
    intro done _ _ _
    rw [List.map_nil, List.append_nil]
    rfl
  | cons e l ih =>
    intro done hnodup hnew hbits
    obtain ⟨a, bitmap⟩ := e
    obtain ⟨ha, hnodup'⟩ := List.nodup_cons.mp hnodup
    have hbitmap : bitmap = ⟨x.map fun y => decide (y = a)⟩ := by
      rw [← hbits (a, bitmap) List.mem_cons_self]
    subst hbitmap
    have hlen : (Bitmap.len ⟨x.map fun y => decide (y = a)⟩) = VirtualNode.COUNT := by
      simp [Bitmap.len, hx]
    rw [fromBitmapsLoop, if_neg (not_not.mpr hlen), setOnes_itemsOf (hnew _ List.mem_cons_self),
      Option.bind_some]
    rw [ih (a :: done) hnodup' (fun e he hmem => ?_) fun e he => hbits e (List.mem_cons_of_mem _ he)]
    · exact congrArg some (itemsOf_congr x fun y => by simp [or_left_comm])
    · rcases List.mem_cons.mp hmem with h | h
      · exact ha (h ▸ List.mem_map.mpr ⟨e, he, rfl⟩)
      · exact hnew e (List.mem_cons_of_mem _ he) h

/-- `from_bitmaps` of bitmaps of each item's vnodes is `from_expanded` of the items. -/
theorem fromBitmaps_bitmapsOf {x : List T} {l : List (T × Bitmap)}
    (hx : x.length = VirtualNode.COUNT) (h : BitmapsOf x l) :
    fromBitmaps l = fromExpanded x := by
  have hinit : List.replicate VirtualNode.COUNT (none : Option T) = itemsOf x [] := by
    simp [itemsOf, hx]
  have hall : itemsOf x ([] ++ l.map Prod.fst) = x.map some :=
    List.map_congr_left fun y hy => by simp [(h.keys y).mpr hy]
  have hloop := fromBitmapsLoop_itemsOf hx l [] h.nodup (fun _ _ => List.not_mem_nil)
    h.bits
  rw [hall] at hloop
  have hsome : (x.map some).mapM id = some x := by
    rw [List.mapM_map]
    have h := List.mapM_pure (m := Option) (l := x) (f := id)
    rw [List.map_id] at h
    exact h
  simp only [fromBitmaps, hinit, hloop, hsome, Option.bind_eq_bind, Option.bind_some]

/-- `from_expanded` of `COUNT` items is the mapping of their runs. -/
theorem fromExpanded_eq {x : List T} (hx : x.length = VirtualNode.COUNT) :
    fromExpanded x = some (ofRuns (runs x)) := by
  simp [fromExpanded, hx, compressData_eq, ofRuns]

end Bitmaps

theorem vnodeMapping_agrees_with_expansion [DecidableEq T] (x : List T)
    (hx : x.length = VirtualNode.COUNT) :
    ∃ m, fromExpanded x = some m ∧ m.toExpanded = x ∧ m.len = VirtualNode.COUNT ∧
      (∀ v : VirtualNode, m.get v = x[v.toIndex]?) ∧
      decompressData (compressData x).1 (compressData x).2 = some x ∧
      (∃ bitmaps, m.toBitmaps = some bitmaps ∧
        ∀ l : List (T × Bitmap), l.Perm bitmaps → fromBitmaps l = some m) ∧
      ∀ (T2 : Type) (f : T → T2), (m.transform f).toExpanded = m.toExpanded.map f := by
  have hpos := pos_of_mem_runs (l := x)
  have hfit : (expand (runs x)).length < 2 ^ 32 := by
    rw [expand_runs, hx]
    decide
  have hne : runs x ≠ [] := by
    intro h
    have hexp := expand_runs x
    rw [h, expand_nil] at hexp
    rw [← hexp] at hx
    simp [VirtualNode.COUNT] at hx
  have hiter : (ofRuns (runs x)).iter = x := by rw [iter_ofRuns hpos hfit, expand_runs]
  refine ⟨ofRuns (runs x), fromExpanded_eq hx, hiter, ?_, fun v => ?_,
    decompressData_compressData x (by rw [hx]; decide), ?_, fun T2 f => iter_transform _ f⟩
  · rw [len_ofRuns hpos hfit hne, expand_runs, hx]
  · rw [get_ofRuns hpos hfit, expand_runs]
  · -- the bitmaps are those of each item's vnodes, in whatever order they are read back
    obtain ⟨l, hl, hbitmaps⟩ := toBitmaps_bitmapsOf _ (by rw [hiter, hx])
    rw [hiter] at hbitmaps
    exact ⟨l, hl, fun l' hp => by rw [fromBitmaps_bitmapsOf hx (hbitmaps.perm hp), fromExpanded_eq hx]⟩

/-- Vnodes `0` to `255` in runs of `100`, `100` and `56`. -/
def threeRuns : List ℕ := (List.range VirtualNode.COUNT).map (· / 100)

theorem vnodeMapping_agrees_with_expansion_threeRuns :
    threeRuns.length = VirtualNode.COUNT ∧
      ∃ m, fromExpanded threeRuns = some m ∧ m.toExpanded = threeRuns ∧
        m.len = VirtualNode.COUNT ∧ (∀ v : VirtualNode, m.get v = threeRuns[v.toIndex]?) ∧
        decompressData (compressData threeRuns).1 (compressData threeRuns).2 = some threeRuns ∧
        (∃ bitmaps, m.toBitmaps = some bitmaps ∧
          ∀ l : List (ℕ × Bitmap), l.Perm bitmaps → fromBitmaps l = some m) ∧
        ∀ (T2 : Type) (f : ℕ → T2), (m.transform f).toExpanded = m.toExpanded.map f :=
  ⟨by simp [threeRuns], vnodeMapping_agrees_with_expansion threeRuns (by simp [threeRuns])⟩

/-- `new_uniform` of one to `COUNT` distinct items gives each item one block of vnodes, the
blocks laid out in item order over all `COUNT` vnodes, the first `COUNT % n` of them one vnode
longer than the others. -/
theorem newUniform_balanced [DecidableEq T] (items : List T) (hne : items ≠ [])
    (hle : items.length ≤ VirtualNode.COUNT) (hnodup : items.Nodup) :
    ∃ m, newUniform items = some m ∧ m.data = items ∧ m.len = VirtualNode.COUNT ∧
      m.toExpanded = items.zipIdx.flatMap (fun p =>
        List.replicate (uniformCount VirtualNode.COUNT items.length p.2) p.1) ∧
      (∀ i (hi : i < items.length) (v : VirtualNode), m.get v = some items[i] ↔
        uniformStart VirtualNode.COUNT items.length i ≤ v.toIndex ∧
          v.toIndex < uniformStart VirtualNode.COUNT items.length (i + 1)) ∧
      uniformStart VirtualNode.COUNT items.length items.length = VirtualNode.COUNT ∧
      (∀ i (hi : i < items.length), m.toExpanded.count items[i] =
        VirtualNode.COUNT / items.length + if i < VirtualNode.COUNT % items.length then 1 else 0) ∧
      ∀ i j (hi : i < items.length) (hj : j < items.length),
        m.toExpanded.count items[i] ≤ m.toExpanded.count items[j] + 1 := by
  have hn : 0 < items.length := List.length_pos_of_ne_nil hne
  set rs := uniformRuns VirtualNode.COUNT items.length items 0 with hrs
  have hrslen : rs.length = items.length := length_uniformRuns items 0
  have hpos : ∀ r ∈ rs, 0 < r.2 := by
    intro r hr
    obtain ⟨p, -, rfl⟩ := List.mem_map.mp hr
    exact uniformCount_pos hn hle p.2
  -- the runs before the `j`-th end where its block starts
  have hsum : ∀ j ≤ items.length,
      ((rs.take j).map Prod.snd).sum = uniformStart VirtualNode.COUNT items.length j := by
    intro j hj
    have := sum_take_uniformRuns (c := VirtualNode.COUNT) (n := items.length) items 0 hj
    simpa [uniformStart] using this
  have hlen : (expand rs).length = VirtualNode.COUNT := by
    have hall := hsum items.length le_rfl
    rw [List.take_of_length_le hrslen.le, uniformStart_self hn] at hall
    rw [length_expand, hall]
  have hfit : (expand rs).length < 2 ^ 32 := by
    rw [hlen]
    decide
  have hne' : rs ≠ [] := by
    intro h
    rw [h, List.length_nil] at hrslen
    omega
  have hgetElem : ∀ i (hi : i < rs.length), rs[i] = (items.get ⟨i, hrslen ▸ hi⟩,
      uniformCount VirtualNode.COUNT items.length i) := fun i hi => getElem_uniformRuns items hi
  have hcount : ∀ i (hi : i < items.length), (expand rs).count items[i] =
      uniformCount VirtualNode.COUNT items.length i := by
    intro i hi
    have hnodup' : (rs.map Prod.fst).Nodup := by rw [map_fst_uniformRuns]; exact hnodup
    have := count_expand_of_nodup hnodup' (j := i) (by omega)
    rwa [hgetElem] at this
  refine ⟨ofRuns rs, newUniform_eq hne hle, map_fst_uniformRuns _ _ items 0,
    by rw [len_ofRuns hpos hfit hne', hlen], ?_, fun i hi v => ?_, uniformStart_self hn,
    fun i hi => ?_, fun i j hi hj => ?_⟩
  · rw [toExpanded, iter_ofRuns hpos hfit, expand, hrs, uniformRuns, List.flatMap_map]
  · rw [get_ofRuns hpos hfit, uniformStart_succ, ← hsum i hi.le]
    constructor
    · -- the vnode lies in some run, whose item is the `i`-th only if the run is the `i`-th
      intro hv
      have hvlen : v.toIndex < (expand rs).length := by
        rw [hlen]
        exact v.toIndex_lt
      obtain ⟨j, hj, k, hk, hjk⟩ := exists_run_of_lt_length hvlen
      rw [hjk, getElem?_expand_of_lt hj hk, hgetElem j hj, Option.some.injEq] at hv
      have hji : j = i := (hnodup.getElem_inj_iff).mp hv
      subst hji
      rw [hgetElem j hj] at hk
      omega
    · rintro ⟨hlo, hhi⟩
      have hi' : i < rs.length := by omega
      have hk : v.toIndex - ((rs.take i).map Prod.snd).sum < rs[i].2 := by
        rw [hgetElem i hi']
        omega
      have hread := getElem?_expand_of_lt hi' hk
      rw [Nat.add_sub_cancel' hlo, hgetElem i hi'] at hread
      exact hread
  · rw [toExpanded, iter_ofRuns hpos hfit, hcount i hi, uniformCount]
  · rw [toExpanded, iter_ofRuns hpos hfit, hcount i hi, hcount j hj]
    simp only [uniformCount]
    split <;> split <;> omega

/-- Three items over the `256` vnodes: blocks of `86`, `85` and `85`. -/
def threeItems : List ℕ := [0, 1, 2]

theorem newUniform_balanced_threeItems :
    (threeItems ≠ [] ∧ threeItems.length ≤ VirtualNode.COUNT ∧ threeItems.Nodup) ∧
    ∃ m, newUniform threeItems = some m ∧ m.data = threeItems ∧ m.len = VirtualNode.COUNT ∧
      m.toExpanded = threeItems.zipIdx.flatMap (fun p =>
        List.replicate (uniformCount VirtualNode.COUNT threeItems.length p.2) p.1) ∧
      (∀ i (hi : i < threeItems.length) (v : VirtualNode), m.get v = some threeItems[i] ↔
        uniformStart VirtualNode.COUNT threeItems.length i ≤ v.toIndex ∧
          v.toIndex < uniformStart VirtualNode.COUNT threeItems.length (i + 1)) ∧
      uniformStart VirtualNode.COUNT threeItems.length threeItems.length = VirtualNode.COUNT ∧
      (∀ i (hi : i < threeItems.length), m.toExpanded.count threeItems[i] =
        VirtualNode.COUNT / threeItems.length +
          if i < VirtualNode.COUNT % threeItems.length then 1 else 0) ∧
      ∀ i j (hi : i < threeItems.length) (hj : j < threeItems.length),
        m.toExpanded.count threeItems[i] ≤ m.toExpanded.count threeItems[j] + 1 :=
  ⟨⟨by decide, by decide, by decide⟩,
    newUniform_balanced threeItems (by decide) (by decide) (by decide)⟩

end VnodeMapping

end RisingWave.Common
