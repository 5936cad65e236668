import RisingWave.Meta.RebalanceLoop
import Mathlib.Tactic.Ring
import Mathlib.Tactic.LinearCombination

/-!
# `rebalance_actor_vnode` balances the vnodes

The deque that `rebalance_actor_vnode` builds satisfies the loop's invariant (`loopInv_initial`):
removed actors have vnodes to give, retained actors give or take the difference to the new
average, sorted so that givers come first, and created actors take; the remainder handed out
raises some targets by one and leaves the balances summing to zero. The loop then ends with each
kept actor at its target, holding a subset or a superset of what it held.
-/

namespace RisingWave.Meta

open RisingWave.Common BitFamily

/-! ## The deque as built -/

/-- Lowering the first balances of a deque sorted by balance keeps the signs ordered. -/
theorem signsOrdered_lowerFirst {l : List Balance}
    (h : l.Pairwise fun a b => b.balance ≤ a.balance) (k : ℕ) :
    SignsOrdered ((lowerFirst k l).map Balance.balance) := by
  have hsplit := List.pairwise_append.mp ((List.take_append_drop k l).symm ▸ h)
  simp only [SignsOrdered, lowerFirst, List.map_append, List.map_map, List.pairwise_append,
    List.pairwise_map, Function.comp_def, Balance.lower_balance]
  refine ⟨hsplit.1.imp fun hab => by omega, hsplit.2.1.imp fun hab => by omega, ?_⟩
  intro x hx y hy
  obtain ⟨a, ha, rfl⟩ := List.mem_map.mp hx
  obtain ⟨b, hb, rfl⟩ := List.mem_map.mp hy
  have := hsplit.2.2 a ha b hb
  omega

attribute [local simp] removedBalance in
theorem sum_removedBalance (l : List (ActorId × Bitmap)) :
    ((l.map removedBalance).map Balance.balance).sum = (((l.map (·.2.countOnes)).sum : ℕ) : ℤ) := by
  induction l with
  | nil => simp
  | cons p l ih =>
    simp only [List.map_cons, List.sum_cons, ih, removedBalance]
    push_cast
    ring

attribute [local simp] restBalance in
theorem sum_restBalance (expected : ℕ) (l : List (ActorId × Bitmap)) :
    ((l.map (restBalance expected)).map Balance.balance).sum =
      (((l.map (·.2.countOnes)).sum : ℕ) : ℤ) - l.length * expected := by
  induction l with
  | nil => simp
  | cons p l ih =>
    simp only [List.map_cons, List.sum_cons, ih, List.length_cons, restBalance]
    push_cast
    ring

attribute [local simp] createdBalance in
theorem sum_createdBalance (expected : ℕ) (l : List ActorId) :
    ((l.map (createdBalance expected)).map Balance.balance).sum = -(l.length * expected : ℤ) := by
  induction l with
  | nil => simp
  | cons a l ih =>
    simp only [List.map_cons, List.sum_cons, ih, List.length_cons, createdBalance]
    push_cast
    ring

section Initial

variable {actorsToRemove : ActorSet} {keep : List ActorId} {lo hi : ℕ}
  {orig : ActorId → List Bool}

/-- An actor holding what it held, with its target plus its balance, is in order. -/
theorem balanceOk_of_original {b : Balance} {k : ℕ}
    (hlen : b.builder.bits.length = VirtualNode.COUNT) (horig : orig b.actorId = b.builder.bits)
    (hk : TargetCount actorsToRemove lo hi b.actorId k)
    (hcount : (b.builder.bits.count true : ℤ) = k + b.balance)
    (hpos : actorsToRemove.contains b.actorId = true → 0 < b.balance) :
    BalanceOk actorsToRemove lo hi orig b where
  length := hlen
  count := ⟨k, hk, hcount⟩
  removed_pos := hpos
  gives _ := horig ▸ Subbits.refl _
  takes _ := horig ▸ Subbits.refl _
  balanced _ := .inl (horig ▸ Subbits.refl _)

attribute [local simp] TargetCount in
/-- A retained or created actor, lowered once at most, and only when targets may be one more. -/
theorem balanceOk_of_kept (b₀ : Balance) {b : Balance} (hlen : b₀.builder.bits.length = VirtualNode.COUNT)
    (horig : orig b₀.actorId = b₀.builder.bits) (hR : actorsToRemove.contains b₀.actorId = false)
    (hcount : (b₀.builder.bits.count true : ℤ) = lo + b₀.balance)
    (hb : b = b₀ ∨ (b = b₀.lower ∧ hi = lo + 1)) :
    BalanceOk actorsToRemove lo hi orig b := by
  rcases hb with rfl | ⟨rfl, hhi⟩
  · exact balanceOk_of_original hlen horig (by simp [TargetCount, hR]) hcount (by simp [hR])
  · refine balanceOk_of_original (k := lo + 1) hlen horig (by simp [TargetCount, hR, hhi]) ?_
      (by simp [hR])
    simp only [Balance.lower_builder, Balance.lower_balance]
    push_cast
    omega

attribute [local simp] loopEntries Bitmap.countOnes in
/-- The deque as `rebalance_actor_vnode` builds it satisfies the loop's invariant, when the
actors' bitmaps hold `expected` vnodes each for the retained and created actors plus a
remainder below their number, and the remainder raises targets from `lo` to `hi`. -/
theorem loopInv_initial {removed rest : List (ActorId × Bitmap)} {created : List ActorId}
    {expected remain : ℕ} (prevRemain : ℕ)
    (hfam : FamilyOk actorsToRemove keep ((removed ++ rest).map (fun p => (p.1, p.2.bits)) ++
      created.map fun a => (a, List.replicate VirtualNode.COUNT false)))
    (hremoved : ∀ p ∈ removed, actorsToRemove.contains p.1 = true ∧ 0 < p.2.countOnes)
    (hrest : ∀ p ∈ rest, actorsToRemove.contains p.1 = false)
    (hcreated : ∀ a ∈ created, actorsToRemove.contains a = false)
    (hlen : ∀ p ∈ removed ++ rest, p.2.bits.length = VirtualNode.COUNT)
    (horig : ∀ p ∈ removed ++ rest, orig p.1 = p.2.bits)
    (horig_created : ∀ a ∈ created, orig a = List.replicate VirtualNode.COUNT false)
    (hsum : ((removed ++ rest).map (·.2.countOnes)).sum =
      (rest.length + created.length) * expected + remain)
    (hremain : remain < rest.length + created.length)
    (hlo : lo = expected) (hhi : 0 < remain → hi = expected + 1) :
    LoopInv actorsToRemove keep lo hi orig
      ((sortByCountDesc removed).map removedBalance ++
        (handOutRemainder prevRemain ((sortByCountDesc rest).map (restBalance expected))
          (created.map (createdBalance expected)) remain).1 ++
        (handOutRemainder prevRemain ((sortByCountDesc rest).map (restBalance expected))
          (created.map (createdBalance expected)) remain).2.1) [] := by
  set restB := (sortByCountDesc rest).map (restBalance expected)
  set createdB := created.map (createdBalance expected)
  have hremain' : remain < restB.length + createdB.length := by
    simpa [restB, createdB, (sortByCountDesc_perm rest).length_eq] using hremain
  obtain ⟨k, hk, hrest_eq⟩ := handOutRemainder_rest prevRemain restB createdB remain
  have hhi' : 0 < remain → hi = lo + 1 := fun h => (hhi h).trans (by rw [hlo])
  refine ⟨hfam.perm ?_, ?_, fun _ h => absurd h List.not_mem_nil, ?_, ?_⟩
  · -- the deque holds the actors, in another order
    have hview : ∀ b : Balance, (b.lower.actorId, b.lower.builder.bits) = (b.actorId, b.builder.bits) :=
      fun _ => rfl
    simp only [loopEntries, List.map_nil, List.append_nil, List.map_append]
    rw [hrest_eq, map_lowerFirst _ _ _ hview,
      map_handOutRemainder_created _ _ _ _ _ hview]
    simp only [restB, createdB, List.map_map, Function.comp_def, removedBalance, restBalance,
      createdBalance, BitmapBuilder.zeroed]
    exact (((sortByCountDesc_perm removed).map _).append ((sortByCountDesc_perm rest).map _)).symm.append_right _
  · intro b hb
    rcases List.mem_append.mp hb with hb | hb
    rcases List.mem_append.mp hb with hb | hb
    · -- an actor to remove gives all it holds
      obtain ⟨p, hp, rfl⟩ := List.mem_map.mp hb
      have hp' : p ∈ removed ++ rest :=
        List.mem_append_left _ ((sortByCountDesc_perm removed).subset hp)
      have hR := (hremoved p ((sortByCountDesc_perm removed).subset hp)).1
      refine balanceOk_of_original (k := 0) (hlen p hp') (horig p hp')
        (by simp [TargetCount, removedBalance, hR])
        (by simp [removedBalance, Bitmap.countOnes]) fun _ => ?_
      simpa [removedBalance] using (hremoved p ((sortByCountDesc_perm removed).subset hp)).2
    · -- a retained actor gives or takes the difference to `expected`
      rw [hrest_eq] at hb
      obtain ⟨b₀, hb₀, hbb₀⟩ := mem_lowerFirst _ _ hb
      obtain ⟨p, hp, rfl⟩ := List.mem_map.mp hb₀
      have hp' : p ∈ rest := (sortByCountDesc_perm rest).subset hp
      refine balanceOk_of_kept (restBalance expected p) (hlen p (List.mem_append_right _ hp'))
        (horig p (List.mem_append_right _ hp')) (hrest p hp') ?_ ?_
      · simp [restBalance, Bitmap.countOnes, hlo]
      · exact hbb₀.imp_right fun h => ⟨h.1, hhi' (by omega)⟩
    · -- a created actor takes `expected`
      obtain ⟨b₀, hb₀, hbb₀⟩ := mem_handOutRemainder_created _ _ _ _ hremain' hb
      obtain ⟨a, ha, rfl⟩ := List.mem_map.mp hb₀
      refine balanceOk_of_kept _ (by simp [createdBalance, BitmapBuilder.zeroed])
        (by simpa [createdBalance, BitmapBuilder.zeroed] using horig_created a ha) (hcreated a ha)
        ?_ (hbb₀.imp_right fun h => ⟨h.1, hhi' h.2⟩)
      simp [createdBalance, BitmapBuilder.zeroed, List.count_replicate, hlo]
  · -- givers first: removed actors, then retained ones by count, then created ones
    have hgive : ∀ a ∈ ((sortByCountDesc removed).map removedBalance).map Balance.balance,
        0 ≤ a := by
      simp only [List.map_map, List.mem_map, Function.comp_apply, removedBalance]
      rintro _ ⟨p, -, rfl⟩
      omega
    have htake : ∀ a ∈ (handOutRemainder prevRemain restB createdB remain).2.1.map
        Balance.balance, a ≤ 0 := by
      intro x hx
      obtain ⟨b, hb, rfl⟩ := List.mem_map.mp hx
      obtain ⟨b₀, hb₀, hbb₀⟩ := mem_handOutRemainder_created _ _ _ _ hremain' hb
      obtain ⟨a, -, rfl⟩ := List.mem_map.mp hb₀
      rcases hbb₀ with rfl | ⟨rfl, -⟩ <;> simp [createdBalance]
    have hsorted : restB.Pairwise fun a b => b.balance ≤ a.balance :=
      List.pairwise_map.mpr ((sortByCountDesc_pairwise rest).imp fun h => by
        simp only [restBalance]
        omega)
    have hrest_signs := signsOrdered_lowerFirst hsorted k
    rw [← hrest_eq] at hrest_signs
    simp only [List.map_append]
    refine List.pairwise_append.mpr ⟨List.pairwise_append.mpr ⟨signsOrdered_of_nonneg hgive,
      hrest_signs, fun a ha _ _ => ?_⟩, signsOrdered_of_nonpos htake, fun _ _ b hb => ?_⟩
    · have := hgive a ha
      omega
    · have := htake b hb
      omega
  · -- the remainder handed out makes the balances sum to zero
    have hout := sum_handOutRemainder prevRemain restB createdB remain hremain'
    have hremoved_sum := sum_removedBalance (sortByCountDesc removed)
    have hrest_sum := sum_restBalance expected (sortByCountDesc rest)
    have hcreated_sum := sum_createdBalance expected created
    have hperm_removed : ((((sortByCountDesc removed).map (·.2.countOnes)).sum : ℕ) : ℤ) =
        ((removed.map (·.2.countOnes)).sum : ℕ) := by
      rw [((sortByCountDesc_perm removed).map _).sum_eq]
    have hperm_rest : ((((sortByCountDesc rest).map (·.2.countOnes)).sum : ℕ) : ℤ) =
        ((rest.map (·.2.countOnes)).sum : ℕ) := by
      rw [((sortByCountDesc_perm rest).map _).sum_eq]
    have hsum' : (((removed.map (·.2.countOnes)).sum : ℕ) : ℤ) +
        ((rest.map (·.2.countOnes)).sum : ℕ) =
        ((rest.length : ℤ) + created.length) * expected + remain := by
      rw [List.map_append, List.sum_append] at hsum
      exact_mod_cast hsum
    rw [(sortByCountDesc_perm rest).length_eq] at hrest_sum
    dsimp only at hout
    simp only [List.map_append, List.sum_append]
    linear_combination hout + hremoved_sum + hrest_sum + hcreated_sum + hperm_removed +
      hperm_rest + hsum'

end Initial

/-! ## The actors as given -/

section Actors

variable {actors : List StreamActor}

/-- The vnodes an actor held before the rebalance: its bitmap's, and none for an actor that
did not exist. -/
def originalBits (actors : List StreamActor) (actorId : ActorId) : List Bool :=
  match (actors.find? (·.actorId == actorId)).bind (·.vnodeBitmap) with
  | some bitmap => bitmap.bits
  | none => List.replicate VirtualNode.COUNT false

attribute [local simp] originalBits in
theorem originalBits_of_mem (hnodup : (actors.map (·.actorId)).Nodup) {actor : StreamActor}
    (ha : actor ∈ actors) {bitmap : Bitmap} (hb : actor.vnodeBitmap = some bitmap) :
    originalBits actors actor.actorId = bitmap.bits := by
  obtain ⟨found, hfound⟩ : ∃ found, actors.find? (·.actorId == actor.actorId) = some found :=
    Option.isSome_iff_exists.mp (List.find?_isSome.mpr ⟨actor, ha, by simp⟩)
  have hid : found.actorId = actor.actorId := by simpa using List.find?_some hfound
  have heq : found = actor :=
    List.inj_on_of_nodup_map hnodup (List.mem_of_find?_eq_some hfound) ha hid
  simp [originalBits, hfound, heq, hb]

theorem originalBits_of_not_mem {actorId : ActorId} (h : actorId ∉ actors.map (·.actorId)) :
    originalBits actors actorId = List.replicate VirtualNode.COUNT false := by
  have hnone : actors.find? (·.actorId == actorId) = none :=
    List.find?_eq_none.mpr fun actor ha heq => h (List.mem_map.mpr ⟨actor, ha, by simpa using heq⟩)
  simp [originalBits, hnone]

/-- The `(id, bitmap)` entries `rebalance_actor_vnode` reads off the actors. -/
theorem mem_filterMap_bitmap {p : ActorId × Bitmap}
    (hp : p ∈ actors.filterMap fun actor =>
      actor.vnodeBitmap.map fun buffer => (actor.actorId, buffer)) :
    ∃ actor ∈ actors, actor.actorId = p.1 ∧ actor.vnodeBitmap = some p.2 := by
  obtain ⟨actor, ha, hmap⟩ := List.mem_filterMap.mp hp
  obtain ⟨bitmap, hb, rfl⟩ := Option.map_eq_some_iff.mp hmap
  exact ⟨actor, ha, rfl, hb⟩

theorem map_fst_filterMap_bitmap (hbitmap : ∀ actor ∈ actors, actor.vnodeBitmap.isSome) :
    (actors.filterMap fun actor =>
      actor.vnodeBitmap.map fun buffer => (actor.actorId, buffer)).map Prod.fst =
        actors.map (·.actorId) := by
  induction actors with
  | nil => rfl
  | cons actor actors ih =>
    obtain ⟨bitmap, hb⟩ := Option.isSome_iff_exists.mp (hbitmap actor List.mem_cons_self)
    simp [hb, ih fun a ha => hbitmap a (List.mem_cons_of_mem actor ha)]

theorem map_bits_filterMap_bitmap :
    (actors.filterMap fun actor =>
      actor.vnodeBitmap.map fun buffer => (actor.actorId, buffer)).map (·.2.bits) =
        actors.filterMap fun actor => actor.vnodeBitmap.map (·.bits) := by
  induction actors with
  | nil => rfl
  | cons actor actors ih => cases hb : actor.vnodeBitmap <;> simp [hb, ih]

/-- With a remainder, rounding the division up adds one. -/
theorem add_sub_one_div_eq_div_add_one {n t : ℕ} (ht : 0 < t) (h : 0 < n % t) :
    (n + t - 1) / t = n / t + 1 := by
  have hdiv := Nat.div_add_mod n t
  have hlt := Nat.mod_lt n ht
  apply Nat.div_eq_of_lt_le
  · rw [Nat.add_mul, Nat.one_mul, Nat.mul_comm]
    omega
  · rw [Nat.add_mul, Nat.add_mul, Nat.one_mul, Nat.mul_comm]
    omega

attribute [local simp] ActorSet.contains ActorSet.len in
/-- The entries for the actors to remove are as many as those actors. -/
theorem length_filter_contains {pairs : List (ActorId × Bitmap)} {ids : List ActorId}
    (actorsToRemove : ActorSet) (hfst : pairs.map Prod.fst = ids) (hnodup : ids.Nodup)
    (hsub : actorsToRemove.elems ⊆ ids) :
    (pairs.filter fun x => actorsToRemove.contains x.1).length = actorsToRemove.len := by
  have hnodup_filter : ((pairs.filter fun x => actorsToRemove.contains x.1).map Prod.fst).Nodup :=
    (List.filter_sublist.map Prod.fst).nodup (hfst ▸ hnodup)
  have hperm : ((pairs.filter fun x => actorsToRemove.contains x.1).map Prod.fst).Perm
      actorsToRemove.elems := by
    refine (List.perm_ext_iff_of_nodup hnodup_filter (actorsToRemove.sorted.nodup)).mpr fun a => ?_
    constructor
    · intro ha
      obtain ⟨p, hp, rfl⟩ := List.mem_map.mp ha
      simpa [ActorSet.contains] using (List.mem_filter.mp hp).2
    · intro ha
      obtain ⟨p, hp, rfl⟩ := List.mem_map.mp (hfst ▸ hsub ha)
      exact List.mem_map_of_mem (List.mem_filter.mpr ⟨hp, by simpa [ActorSet.contains] using ha⟩)
  simpa [ActorSet.len] using hperm.length_eq

end Actors

/-! ## The deque as built -/

section Entries

variable {actors : List StreamActor} {actorsToRemove actorsToCreate : ActorSet}
  {pairs removed rest : List (ActorId × Bitmap)}

/-- A created actor is new, so it is not one to remove. -/
theorem contains_eq_false_of_fresh
    (hremove : ∀ actorId ∈ actorsToRemove.elems, actorId ∈ actors.map (·.actorId))
    (hfresh : ∀ actorId ∈ actorsToCreate.elems, actorId ∉ actors.map (·.actorId))
    {actorId : ActorId} (ha : actorId ∈ actorsToCreate.elems) :
    actorsToRemove.contains actorId = false := by
  cases hR : actorsToRemove.contains actorId
  · rfl
  · exact absurd (hremove actorId (by simpa [ActorSet.contains] using hR)) (hfresh actorId ha)

/-- Bitmaps of `COUNT` bits in which every vnode has one owner hold `COUNT` vnodes between
them, in any order. -/
theorem sum_countOnes_of_owners (hperm : (removed ++ rest).Perm pairs)
    (hlen : ∀ p ∈ pairs, p.2.len = VirtualNode.COUNT)
    (hown : ∀ i < VirtualNode.COUNT, owners (pairs.map (·.2.bits)) i = 1) :
    ((removed ++ rest).map (·.2.countOnes)).sum = VirtualNode.COUNT := by
  have hlen_bits : ∀ bits ∈ pairs.map (·.2.bits), bits.length = VirtualNode.COUNT := by
    intro bits hb
    obtain ⟨p, hp, rfl⟩ := List.mem_map.mp hb
    exact hlen p hp
  have hsum := sum_count_eq_of_owners hlen_bits hown
  rw [List.map_map] at hsum
  rw [(hperm.map _).sum_eq]
  simpa [Function.comp_def, Bitmap.countOnes] using hsum

attribute [local simp] owners in
/-- The actors' entries and the created actors with no vnode form a family in order: distinct
ids, the ones not to remove being the retained and the created, one owner per vnode. -/
theorem familyOk_entries (hnodup : (actors.map (·.actorId)).Nodup)
    (hremove : ∀ actorId ∈ actorsToRemove.elems, actorId ∈ actors.map (·.actorId))
    (hfresh : ∀ actorId ∈ actorsToCreate.elems, actorId ∉ actors.map (·.actorId))
    (hfst : pairs.map Prod.fst = actors.map (·.actorId))
    (hown : ∀ i < VirtualNode.COUNT, owners (pairs.map (·.2.bits)) i = 1)
    (hperm : (removed ++ rest).Perm pairs) :
    FamilyOk actorsToRemove
      ((actors.map (·.actorId)).filter (fun actorId => !actorsToRemove.contains actorId) ++
        actorsToCreate.elems)
      ((removed ++ rest).map (fun p => (p.1, p.2.bits)) ++
        actorsToCreate.elems.map fun a => (a, List.replicate VirtualNode.COUNT false)) := by
  have hids : (((removed ++ rest).map (fun p => (p.1, p.2.bits)) ++
      actorsToCreate.elems.map fun a => (a, List.replicate VirtualNode.COUNT false)).map
        Prod.fst).Perm (actors.map (·.actorId) ++ actorsToCreate.elems) := by
    have hfst_perm : ((removed ++ rest).map Prod.fst).Perm (actors.map (·.actorId)) :=
      hfst ▸ hperm.map Prod.fst
    rw [List.map_append, List.map_map, List.map_map]
    exact hfst_perm.append (by simp [Function.comp_def])
  refine ⟨hids.nodup_iff.mpr (List.nodup_append.mpr
    ⟨hnodup, actorsToCreate.sorted.nodup, ?_⟩), ?_, ?_⟩
  · rintro a ha b hb rfl
    exact hfresh a hb ha
  · refine (hids.filter _).trans ?_
    rw [List.filter_append, (List.filter_eq_self (l := actorsToCreate.elems)).mpr
      fun a ha => by simp [contains_eq_false_of_fresh hremove hfresh ha]]
  · intro i hi
    -- the created actors hold nothing, the others what the actors held
    have hzero : owners ((actorsToCreate.elems.map fun a =>
        (a, List.replicate VirtualNode.COUNT false)).map Prod.snd) i = 0 := by
      simp [owners, List.countP_eq_zero, List.getElem?_replicate]
    have hheld :
        owners (((removed ++ rest).map fun p => (p.1, p.2.bits)).map Prod.snd) i = 1 := by
      rw [List.map_map]
      exact (owners_perm (hperm.map (·.2.bits)) i).trans (hown i hi)
    rw [List.map_append, owners_append, hheld, hzero]

/-- When there are not fewer actors than ones to remove, some actors before and after, each one
to remove holding its old share, and fewer vnodes left over than retained and created actors,
the checks of `rebalance_actor_vnode` pass and it builds the deque of the removed actors by
count, the retained ones by count and the created ones, with the remainder handed out. -/
theorem initialBalances_eq
    (hsplit : (actors.filterMap fun actor =>
      actor.vnodeBitmap.map fun buffer => (actor.actorId, buffer)).partition
        (fun x => actorsToRemove.contains x.1) = (removed, rest))
    (hR_le : actorsToRemove.len ≤ actors.length) (hactors : 0 < actors.length)
    (htarget : 0 < actors.length - actorsToRemove.len + actorsToCreate.len)
    (hge : ∀ p ∈ removed, VirtualNode.COUNT / actors.length ≤ p.2.countOnes)
    (hremain : VirtualNode.COUNT % (actors.length - actorsToRemove.len + actorsToCreate.len) <
      rest.length + actorsToCreate.len) :
    initialBalances actors actorsToRemove actorsToCreate = some
      ((sortByCountDesc removed).map removedBalance ++
        (handOutRemainder
          ((removed.map fun x => x.2.countOnes - VirtualNode.COUNT / actors.length).sum)
          ((sortByCountDesc rest).map (restBalance
            (VirtualNode.COUNT / (actors.length - actorsToRemove.len + actorsToCreate.len))))
          (actorsToCreate.elems.map (createdBalance
            (VirtualNode.COUNT / (actors.length - actorsToRemove.len + actorsToCreate.len))))
          (VirtualNode.COUNT % (actors.length - actorsToRemove.len + actorsToCreate.len))).1 ++
        (handOutRemainder
          ((removed.map fun x => x.2.countOnes - VirtualNode.COUNT / actors.length).sum)
          ((sortByCountDesc rest).map (restBalance
            (VirtualNode.COUNT / (actors.length - actorsToRemove.len + actorsToCreate.len))))
          (actorsToCreate.elems.map (createdBalance
            (VirtualNode.COUNT / (actors.length - actorsToRemove.len + actorsToCreate.len))))
          (VirtualNode.COUNT % (actors.length - actorsToRemove.len + actorsToCreate.len))).2.1) := by
  -- the assertion on the removed actors' counts holds
  have hany : (removed.any fun x => decide (x.2.countOnes < VirtualNode.COUNT / actors.length)) =
      false := by
    rw [List.any_eq_false]
    intro p hp
    simpa using hge p hp
  -- and the remainder is handed out entirely
  have hhand := handOutRemainder_remain
    ((removed.map fun x => x.2.countOnes - VirtualNode.COUNT / actors.length).sum)
    ((sortByCountDesc rest).map (restBalance
      (VirtualNode.COUNT / (actors.length - actorsToRemove.len + actorsToCreate.len))))
    (actorsToCreate.elems.map (createdBalance
      (VirtualNode.COUNT / (actors.length - actorsToRemove.len + actorsToCreate.len))))
    (VirtualNode.COUNT % (actors.length - actorsToRemove.len + actorsToCreate.len))
    (by simpa [(sortByCountDesc_perm rest).length_eq, ActorSet.len] using hremain)
  have hR_le' : ¬ actors.length < actorsToRemove.len := Nat.not_lt.mpr hR_le
  have ht0 : ¬ actors.length - actorsToRemove.len + actorsToCreate.len = 0 := htarget.ne'
  have hactors0 : ¬ actors.length = 0 := hactors.ne'
  simp only [initialBalances]
  simp only [hR_le', ht0, hactors0, hsplit, hany, hhand, if_false]
  rfl

end Entries

/-! ## The rebalance -/

/-- `rebalance_actor_vnode`, on at most `COUNT` actors with distinct ids whose bitmaps partition
the vnodes and hold at least `COUNT / |actors|` each, returns a map from exactly the retained and
created actors to bitmaps that partition the vnodes, `COUNT / t` or `⌈COUNT / t⌉` each, where a
retained actor's new bitmap is a subset or a superset of its old one. -/
theorem rebalanceActorVnode_balanced (actors : List StreamActor)
    (actorsToRemove actorsToCreate : ActorSet)
    (hcount : actors.length ≤ VirtualNode.COUNT)
    (hnodup : (actors.map (·.actorId)).Nodup)
    (hbitmap : ∀ actor ∈ actors, ∃ bitmap, actor.vnodeBitmap = some bitmap ∧
      bitmap.len = VirtualNode.COUNT ∧ VirtualNode.COUNT / actors.length ≤ bitmap.countOnes)
    (hcover : ∀ i < VirtualNode.COUNT,
      owners (actors.filterMap fun actor => actor.vnodeBitmap.map (·.bits)) i = 1)
    (hremove : ∀ actorId ∈ actorsToRemove.elems, actorId ∈ actors.map (·.actorId))
    (hfresh : ∀ actorId ∈ actorsToCreate.elems, actorId ∉ actors.map (·.actorId))
    (htarget : 0 < actors.length - actorsToRemove.len + actorsToCreate.len) :
    ∃ result, rebalanceActorVnode actors actorsToRemove actorsToCreate = some result ∧
      (result.map Prod.fst).Perm
        ((actors.map (·.actorId)).filter (fun actorId => !actorsToRemove.contains actorId) ++
          actorsToCreate.elems) ∧
      (∀ p ∈ result, p.2.len = VirtualNode.COUNT) ∧
      (∀ i < VirtualNode.COUNT, owners (result.map (·.2.bits)) i = 1) ∧
      (∀ p ∈ result,
        p.2.countOnes =
          VirtualNode.COUNT / (actors.length - actorsToRemove.len + actorsToCreate.len) ∨
        p.2.countOnes =
          (VirtualNode.COUNT + (actors.length - actorsToRemove.len + actorsToCreate.len) - 1) /
            (actors.length - actorsToRemove.len + actorsToCreate.len)) ∧
      (∀ actor ∈ actors, ∀ bitmap, actor.vnodeBitmap = some bitmap → ∀ p ∈ result,
        p.1 = actor.actorId → Subbits p.2.bits bitmap.bits ∨ Subbits bitmap.bits p.2.bits) := by
  set t := actors.length - actorsToRemove.len + actorsToCreate.len with ht
  set pairs := actors.filterMap fun actor =>
    actor.vnodeBitmap.map fun buffer => (actor.actorId, buffer) with hpairs
  obtain ⟨removed, rest, hsplit⟩ : ∃ removed rest,
      pairs.partition (fun x => actorsToRemove.contains x.1) = (removed, rest) := ⟨_, _, rfl⟩
  have hsplit' := hsplit
  rw [List.partition_eq_filter_filter, Prod.mk.injEq] at hsplit'
  obtain ⟨hremoved_eq, hrest_eq⟩ := hsplit'
  -- every actor has its bitmap, so the entries are the actors
  have hsome : ∀ actor ∈ actors, actor.vnodeBitmap.isSome := fun actor ha => by
    obtain ⟨bitmap, hb, -⟩ := hbitmap actor ha
    simp [hb]
  have hfst : pairs.map Prod.fst = actors.map (·.actorId) := map_fst_filterMap_bitmap hsome
  have hpair : ∀ p ∈ pairs, p.2.len = VirtualNode.COUNT ∧
      VirtualNode.COUNT / actors.length ≤ p.2.countOnes ∧
      ∃ actor ∈ actors, actor.actorId = p.1 ∧ actor.vnodeBitmap = some p.2 := by
    intro p hp
    obtain ⟨actor, ha, hid, hb⟩ := mem_filterMap_bitmap hp
    obtain ⟨bitmap, hb', hlen, hge⟩ := hbitmap actor ha
    obtain rfl : bitmap = p.2 := Option.some_injective _ (hb'.symm.trans hb)
    exact ⟨hlen, hge, actor, ha, hid, hb⟩
  have hperm : (removed ++ rest).Perm pairs := by
    rw [← hremoved_eq, ← hrest_eq]
    simpa [Function.comp_def] using
      List.filter_append_perm (fun x : ActorId × Bitmap => actorsToRemove.contains x.1) pairs
  have hown : ∀ i < VirtualNode.COUNT, owners (pairs.map (·.2.bits)) i = 1 := by
    rw [map_bits_filterMap_bitmap]
    exact hcover
  -- someone holds vnode 0, so there are actors, at most `COUNT` of them
  have hactors : 0 < actors.length := by
    rcases Nat.eq_zero_or_pos actors.length with h0 | h0
    · have hzero := hcover 0 (by decide)
      simp [List.length_eq_zero_iff.mp h0, owners] at hzero
    · exact h0
  have hprev : 0 < VirtualNode.COUNT / actors.length := Nat.div_pos hcount hactors
  have hremoved_len : removed.length = actorsToRemove.len := by
    rw [← hremoved_eq]
    exact length_filter_contains actorsToRemove hfst hnodup hremove
  have hsplit_len : actorsToRemove.len + rest.length = actors.length := by
    rw [← hremoved_len, ← List.length_append, hperm.length_eq, ← List.length_map (f := Prod.fst),
      hfst, List.length_map]
  have hrest_len : rest.length + actorsToCreate.elems.length = t := by
    change rest.length + actorsToCreate.len = t
    rw [ht]
    omega
  have hmem_removed : ∀ p ∈ removed, p ∈ pairs ∧ actorsToRemove.contains p.1 = true := by
    intro p hp
    rw [← hremoved_eq] at hp
    exact List.mem_filter.mp hp
  have hmem_rest : ∀ p ∈ rest, actorsToRemove.contains p.1 = false := by
    intro p hp
    rw [← hrest_eq] at hp
    simpa using (List.mem_filter.mp hp).2
  have hremain : VirtualNode.COUNT % t < rest.length + actorsToCreate.elems.length := by
    rw [hrest_len]
    exact Nat.mod_lt _ htarget
  -- the deque as built satisfies the loop's invariant, which the run keeps to its end
  have hinit := loopInv_initial
    ((removed.map fun x => x.2.countOnes - VirtualNode.COUNT / actors.length).sum)
    (familyOk_entries hnodup hremove hfresh hfst hown hperm)
    (fun p hp => ⟨(hmem_removed p hp).2,
      lt_of_lt_of_le hprev (hpair p (hmem_removed p hp).1).2.1⟩)
    hmem_rest (fun _ ha => contains_eq_false_of_fresh hremove hfresh ha)
    (fun p hp => (hpair p (hperm.subset hp)).1)
    (fun p hp => by
      obtain ⟨-, -, actor, ha, hid, hb⟩ := hpair p (hperm.subset hp)
      rw [← hid]
      exact originalBits_of_mem hnodup ha hb)
    (fun a ha => originalBits_of_not_mem (hfresh a ha))
    (by
      rw [sum_countOnes_of_owners hperm (fun p hp => (hpair p hp).1) hown, hrest_len]
      exact (Nat.div_add_mod VirtualNode.COUNT t).symm)
    hremain rfl (fun h => add_sub_one_div_eq_div_add_one htarget h)
  obtain ⟨result, hrun, hinv⟩ := hinit.run _ le_rfl
  refine ⟨result, ?_, ?_, fun p hp => (hinv.result_ok p hp).length, ?_, ?_, ?_⟩
  · rw [rebalanceActorVnode, initialBalances_eq hsplit (by omega) hactors htarget
      (fun p hp => (hpair p (hmem_removed p hp).1).2.1) hremain]
    exact hrun
  · -- the kept actors, none of which is to remove
    have hkept : ∀ a ∈ result.map Prod.fst, (!actorsToRemove.contains a) = true := by
      intro a ha
      obtain ⟨p, hp, rfl⟩ := List.mem_map.mp ha
      simp [(hinv.result_ok p hp).retained]
    have hkeys := hinv.family.keep_perm
    simp only [loopEntries, List.map_nil, List.nil_append, List.map_map, Function.comp_def] at hkeys
    rwa [List.filter_eq_self.mpr hkept] at hkeys
  · intro i hi
    simpa [loopEntries, Function.comp_def] using hinv.family.owners_eq i hi
  · intro p hp
    have hcount := (hinv.result_ok p hp).count
    simpa [TargetCount, (hinv.result_ok p hp).retained, Bitmap.countOnes] using hcount
  · intro actor ha bitmap hb p hp hid
    have haff := (hinv.result_ok p hp).affinity
    rwa [hid, originalBits_of_mem hnodup ha hb] at haff


/-- One actor holding every vnode, scaled out to two. -/
theorem rebalanceActorVnode_one_to_two :
    ∃ result, rebalanceActorVnode [⟨0, some ⟨List.replicate VirtualNode.COUNT true⟩⟩]
        ⟨[], .nil⟩ ⟨[1], by simp⟩ = some result ∧
      (result.map Prod.fst).Perm ([0] ++ [1]) ∧
      (∀ p ∈ result, p.2.len = VirtualNode.COUNT) ∧
      (∀ i < VirtualNode.COUNT, owners (result.map (·.2.bits)) i = 1) ∧
      (∀ p ∈ result, p.2.countOnes = VirtualNode.COUNT / 2 ∨
        p.2.countOnes = (VirtualNode.COUNT + 2 - 1) / 2) ∧
      (∀ actor ∈ [(⟨0, some ⟨List.replicate VirtualNode.COUNT true⟩⟩ : StreamActor)], ∀ bitmap,
        actor.vnodeBitmap = some bitmap → ∀ p ∈ result,
          p.1 = actor.actorId → Subbits p.2.bits bitmap.bits ∨ Subbits bitmap.bits p.2.bits) :=
  rebalanceActorVnode_balanced _ _ _ (by decide) (by decide)
    (fun actor ha => by
      rw [List.mem_singleton.mp ha]
      exact ⟨_, rfl, by simp [Bitmap.len], by simp [Bitmap.countOnes]⟩)
    (fun i hi => by simp [owners, hi]) (by simp) (by decide) (by decide)

/-- More actors than vnodes: 255 empty actors to remove and two holding half the vnodes each.
Every bitmap holds at least `COUNT / 257 = 0` vnodes, and yet a removed actor ends in the result:
it reaches the back of the deque balanced, and the back is put in the result unchecked. -/
def overfullActors : List StreamActor :=
  (List.range 255).map (fun k => ⟨k, some ⟨List.replicate 256 false⟩⟩) ++
    [⟨255, some ⟨List.replicate 128 true ++ List.replicate 128 false⟩⟩,
      ⟨256, some ⟨List.replicate 128 false ++ List.replicate 128 true⟩⟩]

set_option maxRecDepth 100000 in
theorem rebalanceActorVnode_keeps_removed_actor :
    (rebalanceActorVnode overfullActors ⟨List.range 255, List.pairwise_lt_range⟩ ⟨[], .nil⟩).map
      (fun result => result.any (·.1 == 254)) = some true := by
  decide +kernel

end RisingWave.Meta
