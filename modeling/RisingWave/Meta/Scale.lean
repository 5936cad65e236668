import Mathlib
import RisingWave.Common.VnodeMapping
import RisingWave.Lib.BitFamily

/-!
# Rebalancing the vnodes of a fragment on scaling

`meta/src/stream/scale.rs`, `rebalance_actor_vnode`. When a fragment scales, the actors to
remove give up their vnodes and the actors to create take some. Each actor gets a balance: a
removed actor its number of vnodes, a retained one its number of vnodes less the new average
`expected`, a created one `-expected`; the remainder `COUNT % t` lowers some balances by one
more, first those of the last created actors and of the retained ones, then of the created ones
from the front. The balances, removed first and created last, form a deque; each round moves
the highest vnodes of the front actor to the back one until one of them is balanced, and a
balanced actor leaves the deque into the result, unless it is one to remove.

Actor ids are only compared, and are `ℕ`; a `BTreeSet` of ids is the list of its ids in
ascending order. A `HashMap` is the list of its entries in the order inserted. A panic is
`none`, and so is running out of rounds: the loop is given as many rounds as there are actors in
the deque, since each round takes one of them off.
-/

namespace RisingWave.Common

/-- `Bitmap::count_ones`. -/
def Bitmap.countOnes (self : Bitmap) : ℕ := self.bits.count true

/-- `BitmapBuilder::is_set`; panics past the length. -/
def BitmapBuilder.isSet (self : BitmapBuilder) (n : ℕ) : Option Bool := self.bits[n]?

@[simp] theorem BitmapBuilder.finish_bits (self : BitmapBuilder) : self.finish.bits = self.bits :=
  rfl

end RisingWave.Common

namespace RisingWave.Meta

open RisingWave.Common

/-- `ActorId`. -/
abbrev ActorId := ℕ

/-- What `rebalance_actor_vnode` reads of a `StreamActor`. -/
structure StreamActor where
  actorId : ActorId
  vnodeBitmap : Option Bitmap

/-- `BTreeSet<ActorId>`: its ids, ascending. -/
structure ActorSet where
  elems : List ActorId
  sorted : elems.Pairwise (· < ·)

/-- `BTreeSet::contains`. -/
def ActorSet.contains (self : ActorSet) (actorId : ActorId) : Bool := self.elems.contains actorId

/-- `BTreeSet::len`. -/
def ActorSet.len (self : ActorSet) : ℕ := self.elems.length

/-- The `Balance` of `rebalance_actor_vnode`. -/
structure Balance where
  actorId : ActorId
  balance : ℤ
  builder : BitmapBuilder

/-- The loops handing out the remainder: each balance in turn is lowered by one while some of
the remainder is left. -/
def giveRemainder : List Balance → ℕ → List Balance × ℕ
  | [], remain => ([], remain)
  | b :: bs, remain =>
    if remain > 0 then
      let (bs, remain) := giveRemainder bs (remain - 1)
      ({ b with balance := b.balance - 1 } :: bs, remain)
    else
      let (bs, remain) := giveRemainder bs remain
      (b :: bs, remain)

/-- The inner loop of a round: from the highest vnode down, until `n` have moved, each vnode of
`src` is moved to `dst`, which must not hold it. -/
def moveVnodes (n : ℤ) :
    List ℕ → BitmapBuilder × BitmapBuilder × ℤ → Option (BitmapBuilder × BitmapBuilder × ℤ)
  | [], acc => some acc
  | idx :: idxs, (src, dst, moved) =>
    if n ≤ moved then some (src, dst, moved)
    else do
      if ← src.isSet idx then
        let src ← src.set idx false
        -- `assert!(!dst.builder.is_set(idx))`
        if ← dst.isSet idx then none
        else
          let dst ← dst.set idx true
          moveVnodes n idxs (src, dst, moved + 1)
      else moveVnodes n idxs (src, dst, moved)

/-- `HashMap::insert` into the result. -/
def insertResult (result : List (ActorId × Bitmap)) (actorId : ActorId) (bitmap : Bitmap) :
    List (ActorId × Bitmap) :=
  result.filter (·.1 != actorId) ++ [(actorId, bitmap)]

/-- The `while` loop over the deque `v`, for at most `fuel` rounds. -/
def rebalanceLoop (actorsToRemove : ActorSet) :
    ℕ → List Balance → List (ActorId × Bitmap) → Option (List (ActorId × Bitmap))
  | _, [], result => some result
  | 0, _ :: _, _ => none
  | _ + 1, [single], result =>
    -- `assert_eq!(single.balance, 0)`
    if single.balance ≠ 0 then none
    else if actorsToRemove.contains single.actorId then some result
    else some (insertResult result single.actorId single.builder.finish)
  | fuel + 1, src :: w@(_ :: _), result => do
    let dst ← w.getLast?
    let v := w.dropLast
    let n : ℤ := min src.balance.natAbs dst.balance.natAbs
    let (srcBuilder, dstBuilder, _) ←
      moveVnodes n (List.range VirtualNode.COUNT).reverse (src.builder, dst.builder, 0)
    let src : Balance := { src with balance := src.balance - n, builder := srcBuilder }
    let dst : Balance := { dst with balance := dst.balance + n, builder := dstBuilder }
    let (v, result) :=
      if src.balance ≠ 0 then (src :: v, result)
      else if !actorsToRemove.contains src.actorId then
        (v, insertResult result src.actorId src.builder.finish)
      else (v, result)
    let (v, result) :=
      if dst.balance ≠ 0 then (v ++ [dst], result)
      else (v, insertResult result dst.actorId dst.builder.finish)
    rebalanceLoop actorsToRemove fuel v result

/-- The two loops handing out the remainder `remain`: first to the last `prev_remain` created
actors, from the back, and to the retained ones in order; then to the created ones from the
front. Returns the retained and created balances and what is left of the remainder. -/
def handOutRemainder (prevRemain : ℕ) (restBalances createdBalances : List Balance)
    (remain : ℕ) : List Balance × List Balance × ℕ :=
  let createdRev := createdBalances.reverse
  let taken := min prevRemain createdRev.length
  let (handed, remain) := giveRemainder (createdRev.take prevRemain ++ restBalances) remain
  let createdBalances := (handed.take taken ++ createdRev.drop prevRemain).reverse
  let restBalances := handed.drop taken
  let (createdBalances, remain) := giveRemainder createdBalances remain
  (restBalances, createdBalances, remain)

/-- `sort_by(order_by_bitmap_desc)`: a stable sort, most vnodes first. -/
def sortByCountDesc (l : List (ActorId × Bitmap)) : List (ActorId × Bitmap) :=
  l.insertionSort fun a b => b.2.countOnes ≤ a.2.countOnes

/-- The balance of an actor to remove: all its vnodes, to give. Its builder is
`builder_from_bitmap`, the bitmap's bits. -/
def removedBalance (entry : ActorId × Bitmap) : Balance :=
  ⟨entry.1, entry.2.countOnes, ⟨entry.2.bits⟩⟩

/-- The balance of a retained actor: its vnodes beyond `expected`. -/
def restBalance (expected : ℕ) (entry : ActorId × Bitmap) : Balance :=
  ⟨entry.1, (entry.2.countOnes : ℤ) - expected, ⟨entry.2.bits⟩⟩

/-- The balance of an actor to create: `expected` vnodes to take, with none held. -/
def createdBalance (expected : ℕ) (actorId : ActorId) : Balance :=
  ⟨actorId, -(expected : ℤ), BitmapBuilder.zeroed VirtualNode.COUNT⟩

/-- The first half of `rebalance_actor_vnode`: its checks, and the deque of balances, removed
actors first and created ones last. -/
def initialBalances (actors : List StreamActor) (actorsToRemove actorsToCreate : ActorSet) :
    Option (List Balance) := do
  if actors.length < actorsToRemove.len then none
  let targetActorCount := actors.length - actorsToRemove.len + actorsToCreate.len
  if targetActorCount = 0 then none
  let expected := VirtualNode.COUNT / targetActorCount
  let remain := VirtualNode.COUNT % targetActorCount
  let (removed, rest) :=
    (actors.filterMap fun actor => actor.vnodeBitmap.map fun buffer => (actor.actorId, buffer)).partition
      fun (actorId, _) => actorsToRemove.contains actorId
  -- `div_rem` by no actors panics
  if actors.length = 0 then none
  let prevExpected := VirtualNode.COUNT / actors.length
  -- `assert!(bitmap.count_ones() >= prev_expected)`
  if removed.any fun (_, bitmap) => bitmap.countOnes < prevExpected then none
  let prevRemain := (removed.map fun (_, bitmap) => bitmap.countOnes - prevExpected).sum
  let removedBalances := (sortByCountDesc removed).map removedBalance
  let restBalances := (sortByCountDesc rest).map (restBalance expected)
  let createdBalances := actorsToCreate.elems.map (createdBalance expected)
  let (restBalances, createdBalances, remain) :=
    handOutRemainder prevRemain restBalances createdBalances remain
  -- `assert_eq!(remain, 0)`
  if remain ≠ 0 then none
  pure (removedBalances ++ restBalances ++ createdBalances)

/-- `rebalance_actor_vnode`. -/
def rebalanceActorVnode (actors : List StreamActor) (actorsToRemove actorsToCreate : ActorSet) :
    Option (List (ActorId × Bitmap)) := do
  let v ← initialBalances actors actorsToRemove actorsToCreate
  rebalanceLoop actorsToRemove v.length v []

/-! ## Handing out the remainder -/

theorem sortByCountDesc_perm (l : List (ActorId × Bitmap)) : (sortByCountDesc l).Perm l :=
  List.perm_insertionSort _ l

/-- The sort puts the actors with most vnodes first. -/
theorem sortByCountDesc_pairwise (l : List (ActorId × Bitmap)) :
    (sortByCountDesc l).Pairwise fun a b => b.2.countOnes ≤ a.2.countOnes := by
  have htotal : Std.Total fun a b : ActorId × Bitmap => b.2.countOnes ≤ a.2.countOnes :=
    ⟨fun a b => le_total b.2.countOnes a.2.countOnes⟩
  have htrans : IsTrans (ActorId × Bitmap) fun a b => b.2.countOnes ≤ a.2.countOnes :=
    ⟨fun _ _ _ hab hbc => le_trans hbc hab⟩
  exact List.pairwise_insertionSort _ l

/-- A balance lowered by one: its actor is to take one more vnode. -/
def Balance.lower (b : Balance) : Balance := { b with balance := b.balance - 1 }

@[simp] theorem Balance.lower_actorId (b : Balance) : b.lower.actorId = b.actorId := rfl

@[simp] theorem Balance.lower_balance (b : Balance) : b.lower.balance = b.balance - 1 := rfl

@[simp] theorem Balance.lower_builder (b : Balance) : b.lower.builder = b.builder := rfl

/-- The first `k` balances of `l`, lowered. -/
def lowerFirst (k : ℕ) (l : List Balance) : List Balance :=
  (l.take k).map Balance.lower ++ l.drop k

attribute [local simp] lowerFirst in
/-- The remainder loops lower the first `remain` balances and keep what they could not give. -/
theorem giveRemainder_eq (l : List Balance) (remain : ℕ) :
    giveRemainder l remain = (lowerFirst remain l, remain - l.length) := by
  induction l generalizing remain with
  | nil => simp [giveRemainder, lowerFirst]
  | cons b bs ih =>
    cases remain with
    | zero => simp [giveRemainder, lowerFirst, ih]
    | succ remain =>
      simp only [giveRemainder, ih, gt_iff_lt, Nat.succ_pos, if_true, Nat.add_sub_cancel]
      simp [lowerFirst, Balance.lower, Nat.add_sub_add_right]

section LowerFirst

variable (k : ℕ) (l : List Balance)

@[simp] theorem lowerFirst_zero : lowerFirst 0 l = l := by simp [lowerFirst]

@[simp] theorem length_lowerFirst : (lowerFirst k l).length = l.length := by
  simp only [lowerFirst, List.length_append, List.length_map, List.length_take, List.length_drop]
  omega

theorem lowerFirst_of_length_le (h : l.length ≤ k) : lowerFirst k l = l.map Balance.lower := by
  simp [lowerFirst, List.take_of_length_le h, List.drop_eq_nil_of_le h]

@[simp] theorem lowerFirst_nil : lowerFirst k [] = [] := by simp [lowerFirst]

theorem lowerFirst_succ_cons (b : Balance) :
    lowerFirst (k + 1) (b :: l) = b.lower :: lowerFirst k l := by
  simp [lowerFirst]

theorem lowerFirst_append (l' : List Balance) :
    lowerFirst k (l ++ l') = lowerFirst k l ++ lowerFirst (k - l.length) l' := by
  induction l generalizing k with
  | nil => simp
  | cons b bs ih =>
    cases k with
    | zero => simp
    | succ k => simp [lowerFirst_succ_cons, ih, Nat.add_sub_add_right]

/-- Lowering changes no actor and no bitmap. -/
theorem map_lowerFirst {β : Type} (f : Balance → β) (hf : ∀ b, f b.lower = f b) :
    (lowerFirst k l).map f = l.map f := by
  conv_rhs => rw [← List.take_append_drop k l]
  simp [lowerFirst, Function.comp_def, hf]

/-- Lowering the first `k` balances takes `min k l.length` off their sum. -/
theorem sum_lowerFirst :
    ((lowerFirst k l).map Balance.balance).sum = (l.map Balance.balance).sum - min k l.length := by
  induction l generalizing k with
  | nil => simp
  | cons b bs ih =>
    cases k with
    | zero => simp
    | succ k =>
      simp only [lowerFirst_succ_cons, List.map_cons, List.sum_cons, ih, Balance.lower_balance,
        List.length_cons]
      omega

/-- An entry of `lowerFirst k l` is an entry of `l`, lowered or not, and lowered only when
`k > 0`. -/
theorem mem_lowerFirst {x : Balance} (hx : x ∈ lowerFirst k l) :
    ∃ b ∈ l, x = b ∨ (x = b.lower ∧ 0 < k) := by
  rcases List.mem_append.mp hx with hx | hx
  · obtain ⟨b, hb, rfl⟩ := List.mem_map.mp hx
    have hk : 0 < k := by
      by_contra hk
      simp [Nat.eq_zero_of_not_pos hk] at hb
    exact ⟨b, List.mem_of_mem_take hb, .inr ⟨rfl, hk⟩⟩
  · exact ⟨x, List.mem_of_mem_drop hx, .inl rfl⟩

/-- The remainder loops in closed form: the retained balances lowered from the front by what
the last `prevRemain` created ones left over, then the created ones lowered from the back by the
first loop and from the front by the second. -/
theorem handOutRemainder_eq (prevRemain : ℕ) (restBalances createdBalances : List Balance)
    (remain : ℕ) :
    handOutRemainder prevRemain restBalances createdBalances remain =
      let taken := (createdBalances.reverse.take prevRemain).length
      let remain' := remain - (taken + restBalances.length)
      (lowerFirst (remain - taken) restBalances,
        lowerFirst remain'
          (lowerFirst remain (createdBalances.reverse.take prevRemain) ++
            createdBalances.reverse.drop prevRemain).reverse,
        remain' - createdBalances.length) := by
  have htaken : min prevRemain createdBalances.length =
      (createdBalances.reverse.take prevRemain).length := by simp
  simp only [handOutRemainder, giveRemainder_eq, lowerFirst_append, List.length_append,
    List.length_reverse]
  rw [htaken, List.take_left' (length_lowerFirst _ _), List.drop_left' (length_lowerFirst _ _)]
  simp only [length_lowerFirst, List.length_drop, List.length_reverse, Prod.mk.injEq, true_and]
  omega

end LowerFirst

section HandOut

variable (prevRemain : ℕ) (restBalances createdBalances : List Balance) (remain : ℕ)

/-- Below the number of retained and created actors, the whole remainder is handed out. -/
theorem handOutRemainder_remain (h : remain < restBalances.length + createdBalances.length) :
    (handOutRemainder prevRemain restBalances createdBalances remain).2.2 = 0 := by
  rw [handOutRemainder_eq]
  dsimp only
  have htaken : (createdBalances.reverse.take prevRemain).length ≤ createdBalances.length := by
    simp
  omega

/-- The retained balances are lowered from the front. -/
theorem handOutRemainder_rest :
    ∃ k ≤ remain, (handOutRemainder prevRemain restBalances createdBalances remain).1 =
      lowerFirst k restBalances :=
  ⟨_, Nat.sub_le _ _, by rw [handOutRemainder_eq]⟩

/-- The created balances are those of the created actors, in order. -/
theorem map_handOutRemainder_created {β : Type} (f : Balance → β) (hf : ∀ b, f b.lower = f b) :
    (handOutRemainder prevRemain restBalances createdBalances remain).2.1.map f =
      createdBalances.map f := by
  rw [handOutRemainder_eq]
  dsimp only
  rw [map_lowerFirst _ _ f hf, List.map_reverse, List.map_append, map_lowerFirst _ _ f hf,
    ← List.map_append, List.take_append_drop, List.map_reverse, List.reverse_reverse]

/-- Handing out the whole remainder lowers the balances by that much in all. -/
theorem sum_handOutRemainder (h : remain < restBalances.length + createdBalances.length) :
    let out := handOutRemainder prevRemain restBalances createdBalances remain
    (out.1.map Balance.balance).sum + (out.2.1.map Balance.balance).sum =
      (restBalances.map Balance.balance).sum + (createdBalances.map Balance.balance).sum -
        remain := by
  have hsplit : (createdBalances.map Balance.balance).sum =
      ((createdBalances.reverse.take prevRemain).map Balance.balance).sum +
        ((createdBalances.reverse.drop prevRemain).map Balance.balance).sum := by
    rw [← List.sum_append, ← List.map_append, List.take_append_drop, List.map_reverse,
      List.sum_reverse]
  have hlen : (createdBalances.reverse.take prevRemain).length +
      (createdBalances.reverse.drop prevRemain).length = createdBalances.length := by
    rw [← List.length_append, List.take_append_drop, List.length_reverse]
  rw [handOutRemainder_eq]
  simp only [sum_lowerFirst, List.map_reverse, List.sum_reverse, List.map_append, List.sum_append,
    List.length_reverse, List.length_append, length_lowerFirst, hlen]
  omega

/-- A created balance is lowered at most once, and only when there is a remainder. -/
theorem mem_handOutRemainder_created (h : remain < restBalances.length + createdBalances.length)
    {x : Balance} (hx : x ∈ (handOutRemainder prevRemain restBalances createdBalances remain).2.1) :
    ∃ b ∈ createdBalances, x = b ∨ (x = b.lower ∧ 0 < remain) := by
  rw [handOutRemainder_eq] at hx
  dsimp only at hx
  set front := createdBalances.reverse.take prevRemain with hfront
  set back := createdBalances.reverse.drop prevRemain with hback
  have hfront_mem : ∀ b ∈ front, b ∈ createdBalances := fun b hb =>
    List.mem_reverse.mp (List.mem_of_mem_take hb)
  have hback_mem : ∀ b ∈ back, b ∈ createdBalances := fun b hb =>
    List.mem_reverse.mp (List.mem_of_mem_drop hb)
  have hlen : front.length + back.length = createdBalances.length := by
    rw [← List.length_append, List.take_append_drop, List.length_reverse]
  by_cases hsecond : remain - (front.length + restBalances.length) = 0
  · -- the second loop has nothing left: each was lowered by the first one at most
    rw [hsecond, lowerFirst_zero, List.mem_reverse] at hx
    rcases List.mem_append.mp hx with hx | hx
    · obtain ⟨b, hb, hxb⟩ := mem_lowerFirst _ _ hx
      exact ⟨b, hfront_mem b hb, hxb⟩
    · exact ⟨x, hback_mem x hx, .inl rfl⟩
  · -- the first loop lowered all of `front`, and the second stays within `back`
    have hall : lowerFirst remain front = front.map Balance.lower :=
      lowerFirst_of_length_le _ _ (by omega)
    have hwithin : remain - (front.length + restBalances.length) ≤ back.reverse.length := by
      rw [List.length_reverse]
      omega
    rw [hall, List.reverse_append, lowerFirst_append, Nat.sub_eq_zero_of_le hwithin,
      lowerFirst_zero] at hx
    rcases List.mem_append.mp hx with hx | hx
    · obtain ⟨b, hb, hxb⟩ := mem_lowerFirst _ _ hx
      refine ⟨b, hback_mem b (List.mem_reverse.mp hb), ?_⟩
      rcases hxb with hxb | ⟨hxb, _⟩
      · exact .inl hxb
      · exact .inr ⟨hxb, by omega⟩
    · obtain ⟨b, hb, rfl⟩ := List.mem_map.mp (List.mem_reverse.mp hx)
      exact ⟨b, hfront_mem b hb, .inr ⟨rfl, by omega⟩⟩

end HandOut

/-! ## The inner loop of a round -/

open BitFamily

/-- What a run of the inner loop did, from `(src, dst, moved)` to `(src', dst', moved')`: it
moved `moved' - moved` vnodes of `src` to `dst`, never going past `n` in all; when it moved
nothing both are unchanged, and when it stopped short of `n`, `src` has none left at the indices
it visited. -/
structure MovedVnodes (n : ℤ) (idxs : List ℕ) (src dst : BitmapBuilder) (moved : ℤ)
    (src' dst' : BitmapBuilder) (moved' : ℤ) : Prop where
  length_src : src'.bits.length = src.bits.length
  length_dst : dst'.bits.length = dst.bits.length
  owners_eq : ∀ i, owners [src'.bits, dst'.bits] i = owners [src.bits, dst.bits] i
  sub_src : Subbits src'.bits src.bits
  sub_dst : Subbits dst.bits dst'.bits
  count_src : (src'.bits.count true : ℤ) = src.bits.count true - (moved' - moved)
  count_dst : (dst'.bits.count true : ℤ) = dst.bits.count true + (moved' - moved)
  le_moved : moved ≤ moved'
  moved_le : moved ≤ n → moved' ≤ n
  unchanged : moved' = moved → src' = src ∧ dst' = dst
  exhausted : moved' < n → ∀ i ∈ idxs, src'.bits[i]? ≠ some true

theorem MovedVnodes.refl (n : ℤ) (idxs : List ℕ) (src dst : BitmapBuilder) (moved : ℤ)
    (hstop : idxs = [] ∨ n ≤ moved) : MovedVnodes n idxs src dst moved src dst moved where
  length_src := rfl
  length_dst := rfl
  owners_eq _ := rfl
  sub_src := Subbits.refl _
  sub_dst := Subbits.refl _
  count_src := by simp
  count_dst := by simp
  le_moved := le_rfl
  moved_le := id
  unchanged _ := ⟨rfl, rfl⟩
  exhausted hlt := by
    rcases hstop with rfl | hle
    · simp
    · exact absurd hlt (not_lt.mpr hle)

/-- A visited index whose vnode `src` does not hold. -/
theorem MovedVnodes.skip {n : ℤ} {idx : ℕ} {idxs : List ℕ} {src dst src' dst' : BitmapBuilder}
    {moved moved' : ℤ} (hskip : src.bits[idx]? ≠ some true)
    (h : MovedVnodes n idxs src dst moved src' dst' moved') :
    MovedVnodes n (idx :: idxs) src dst moved src' dst' moved' :=
  { h with
    exhausted := fun hlt i hi => by
      rcases List.mem_cons.mp hi with rfl | hi
      · exact fun hs => hskip (h.sub_src i hs)
      · exact h.exhausted hlt i hi }

/-- A visited index whose vnode moves from `src` to `dst`. -/
theorem MovedVnodes.move {n : ℤ} {idx : ℕ} {idxs : List ℕ} {src dst src' dst' : BitmapBuilder}
    {moved moved' : ℤ} (hlt : moved < n) (hsrc : src.bits[idx]? = some true)
    (hdst : dst.bits[idx]? = some false)
    (h : MovedVnodes n idxs ⟨src.bits.set idx false⟩ ⟨dst.bits.set idx true⟩ (moved + 1)
      src' dst' moved') :
    MovedVnodes n (idx :: idxs) src dst moved src' dst' moved' where
  length_src := by rw [h.length_src, List.length_set]
  length_dst := by rw [h.length_dst, List.length_set]
  owners_eq i := (h.owners_eq i).trans (owners_pair_move hsrc hdst i)
  sub_src := h.sub_src.trans (subbits_set_false _ _)
  sub_dst := (subbits_set_true _ _).trans h.sub_dst
  count_src := by
    have := count_set_false hsrc
    have := h.count_src
    push_cast at *
    omega
  count_dst := by
    have := count_set_true hdst
    have := h.count_dst
    push_cast at *
    omega
  le_moved := by have := h.le_moved; omega
  moved_le _ := h.moved_le (by omega)
  unchanged heq := by have := h.le_moved; omega
  exhausted hlt' i hi := by
    rcases List.mem_cons.mp hi with rfl | hi
    · intro hs
      have := h.sub_src i hs
      simp [List.getElem?_set] at this
    · exact h.exhausted hlt' i hi

/-- The inner loop runs to its end without panicking while `src` and `dst` are long enough and
hold no vnode in common, and does what `MovedVnodes` says. -/
theorem moveVnodes_spec (n : ℤ) (idxs : List ℕ) (src dst : BitmapBuilder) (moved : ℤ)
    (hlen : ∀ i ∈ idxs, i < src.bits.length ∧ i < dst.bits.length)
    (hdisj : ∀ i, owners [src.bits, dst.bits] i ≤ 1) :
    ∃ src' dst' moved', moveVnodes n idxs (src, dst, moved) = some (src', dst', moved') ∧
      MovedVnodes n idxs src dst moved src' dst' moved' := by
  induction idxs generalizing src dst moved with
  | nil => exact ⟨src, dst, moved, rfl, .refl n [] src dst moved (.inl rfl)⟩
  | cons idx idxs ih =>
    obtain ⟨hsrc_len, hdst_len⟩ := hlen idx List.mem_cons_self
    have hlen' := fun i hi => hlen i (List.mem_cons_of_mem idx hi)
    by_cases hstop : n ≤ moved
    · exact ⟨src, dst, moved, by simp [moveVnodes, hstop],
        .refl n _ src dst moved (.inr hstop)⟩
    -- the vnode at `idx` is in `src` or not; when it is, `dst` cannot hold it
    cases hs : src.bits[idx] with
    | false =>
      have hskip : src.bits[idx]? ≠ some true := by simp [hsrc_len, hs]
      obtain ⟨src', dst', moved', hrun, hmv⟩ := ih src dst moved hlen' hdisj
      refine ⟨src', dst', moved', ?_, hmv.skip hskip⟩
      simp [moveVnodes, hstop, BitmapBuilder.isSet, hsrc_len, hs, hrun]
    | true =>
      have hsrc : src.bits[idx]? = some true := by simp [hsrc_len, hs]
      have hdi : dst.bits[idx] = false := by
        have hone := hdisj idx
        simp only [owners, List.countP_cons, List.countP_nil, hsrc] at hone
        simpa [hdst_len] using hone
      have hdst : dst.bits[idx]? = some false := by simp [hdst_len, hdi]
      have hlen_set : ∀ i ∈ idxs, i < (src.bits.set idx false).length ∧
          i < (dst.bits.set idx true).length := by
        simpa only [List.length_set] using hlen'
      have hdisj_set : ∀ i, owners [src.bits.set idx false, dst.bits.set idx true] i ≤ 1 :=
        fun i => (owners_pair_move hsrc hdst i).trans_le (hdisj i)
      obtain ⟨src', dst', moved', hrun, hmv⟩ := ih _ _ (moved + 1) hlen_set hdisj_set
      refine ⟨src', dst', moved', ?_, hmv.move (not_le.mp hstop) hsrc hdst⟩
      simp [moveVnodes, hstop, BitmapBuilder.isSet, BitmapBuilder.set, hsrc_len, hdst_len, hs,
        hdi, hrun]

/-- Over every vnode, from nothing moved, the loop moves exactly `n` vnodes when `src` holds at
least `n`. -/
theorem MovedVnodes.moved_eq {n : ℤ} {src dst src' dst' : BitmapBuilder} {moved' : ℤ}
    (h : MovedVnodes n (List.range VirtualNode.COUNT).reverse src dst 0 src' dst' moved')
    (hlen : src.bits.length = VirtualNode.COUNT) (hn : 0 ≤ n)
    (hcount : n ≤ src.bits.count true) : moved' = n := by
  have hle : moved' ≤ n := h.moved_le hn
  by_contra hne
  have hlt : moved' < n := lt_of_le_of_ne hle hne
  -- stopping short, the loop has emptied `src`, which then held only what moved
  have hnone : true ∉ src'.bits := by
    intro hmem
    obtain ⟨i, hi⟩ := List.mem_iff_getElem?.mp hmem
    have hilt : i < VirtualNode.COUNT := by
      rw [← hlen, ← h.length_src]
      exact (List.getElem?_eq_some_iff.mp hi).1
    exact h.exhausted hlt i (by simpa using hilt) hi
  have hzero : src'.bits.count true = 0 := List.count_eq_zero.mpr hnone
  have hcount_src := h.count_src
  omega

end RisingWave.Meta
