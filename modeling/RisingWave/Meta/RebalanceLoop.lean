import Mathlib
import RisingWave.Meta.Scale

/-!
# The loop of `rebalance_actor_vnode`

The `while` loop keeps a deque of balances and a result map. Its invariant `LoopInv` has three
parts. The family of all actors, in the deque or in the result, has distinct ids, keeps the
actors it must keep and gives each vnode exactly one owner (`FamilyOk`). Every actor in the
deque holds its target count plus its balance, and has only given vnodes away or only taken
some, as the sign of its balance says (`BalanceOk`); every actor in the result holds its target
(`ResultOk`). The balances sum to zero and no negative one comes before a positive one.

From the last two, the front of the deque gives and the back takes, and each round balances one
of them, so that the deque shrinks by at least one actor a round (`LoopInv.round`) and the loop
ends with the invariant over the result alone (`LoopInv.run`).
-/

namespace RisingWave.Meta

open RisingWave.Common BitFamily

/-! ## Deques of balances -/

/-- No balance below zero comes before one above zero. -/
def SignsOrdered (v : List ℤ) : Prop := v.Pairwise fun a b => ¬ (a < 0 ∧ 0 < b)

/-- With balances ordered by sign and summing to zero, the front one is not below zero. -/
theorem head_nonneg_of_signsOrdered {x : ℤ} {l : List ℤ} (hs : SignsOrdered (x :: l))
    (hsum : (x :: l).sum = 0) : 0 ≤ x := by
  by_contra hx
  have hl : ∀ b ∈ l, b ≤ 0 := fun b hb => by
    have := (List.pairwise_cons.mp hs).1 b hb
    omega
  have hnonpos : l.sum ≤ 0 := by simpa using List.sum_le_card_nsmul l 0 hl
  rw [List.sum_cons] at hsum
  omega

/-- With balances ordered by sign and summing to zero, the back one is not above zero. -/
theorem last_nonpos_of_signsOrdered {l : List ℤ} {y : ℤ} (hs : SignsOrdered (l ++ [y]))
    (hsum : (l ++ [y]).sum = 0) : y ≤ 0 := by
  by_contra hy
  have hl : ∀ a ∈ l, 0 ≤ a := fun a ha => by
    have := (List.pairwise_append.mp hs).2.2 a ha y (List.mem_singleton_self y)
    omega
  have hnonneg : 0 ≤ l.sum := List.sum_nonneg hl
  rw [List.sum_append, List.sum_singleton] at hsum
  omega

theorem signsOrdered_of_nonneg {l : List ℤ} (h : ∀ a ∈ l, 0 ≤ a) : SignsOrdered l := by
  induction l with
  | nil => exact .nil
  | cons a l ih =>
    have ha := h a List.mem_cons_self
    exact .cons (fun _ _ => by omega) (ih fun b hb => h b (List.mem_cons_of_mem a hb))

theorem signsOrdered_of_nonpos {l : List ℤ} (h : ∀ b ∈ l, b ≤ 0) : SignsOrdered l := by
  induction l with
  | nil => exact .nil
  | cons a l ih =>
    have hl : ∀ b ∈ l, b ≤ 0 := fun b hb => h b (List.mem_cons_of_mem a hb)
    exact .cons (fun b hb => by have := hl b hb; omega) (ih hl)

/-- A front balance not below zero and a back one not above zero may replace the ends. -/
theorem signsOrdered_round {x y : ℤ} {mid : List ℤ} (hs : SignsOrdered (x :: (mid ++ [y])))
    {x' y' : ℤ} (hx' : 0 ≤ x') (hy' : y' ≤ 0) :
    SignsOrdered (x' :: (mid ++ [y'])) := by
  have hmid : SignsOrdered mid :=
    (List.pairwise_append.mp (List.pairwise_cons.mp hs).2).1
  refine List.pairwise_cons.mpr ⟨fun b _ => by omega, ?_⟩
  refine List.pairwise_append.mpr ⟨hmid, List.pairwise_singleton _ _, ?_⟩
  intro a _ b hb
  rw [List.mem_singleton.mp hb]
  omega

/-! ## The invariant -/

section Invariant

variable (actorsToRemove : ActorSet) (keep : List ActorId) (lo hi : ℕ)
  (orig : ActorId → List Bool)

/-- The vnode counts an actor may end with: none for an actor to remove, else `lo` or `hi`. -/
def TargetCount (actorId : ActorId) (k : ℕ) : Prop :=
  if actorsToRemove.contains actorId then k = 0 else k = lo ∨ k = hi

/-- An actor of the deque holds its target plus its balance; an actor with vnodes to give has
only given, one with vnodes to take has only taken, and a balanced one has done one or the
other. An actor to remove has vnodes left to give. -/
structure BalanceOk (b : Balance) : Prop where
  length : b.builder.bits.length = VirtualNode.COUNT
  count : ∃ k, TargetCount actorsToRemove lo hi b.actorId k ∧
    (b.builder.bits.count true : ℤ) = k + b.balance
  removed_pos : actorsToRemove.contains b.actorId = true → 0 < b.balance
  gives : 0 < b.balance → Subbits b.builder.bits (orig b.actorId)
  takes : b.balance < 0 → Subbits (orig b.actorId) b.builder.bits
  balanced : b.balance = 0 →
    Subbits b.builder.bits (orig b.actorId) ∨ Subbits (orig b.actorId) b.builder.bits

/-- An actor of the result is one to keep, holds its target, and has only given or only
taken. -/
structure ResultOk (p : ActorId × Bitmap) : Prop where
  length : p.2.bits.length = VirtualNode.COUNT
  retained : actorsToRemove.contains p.1 = false
  count : TargetCount actorsToRemove lo hi p.1 (p.2.bits.count true)
  affinity : Subbits p.2.bits (orig p.1) ∨ Subbits (orig p.1) p.2.bits

/-- The actors of the deque and of the result, as ids and bits. -/
def loopEntries (v : List Balance) (result : List (ActorId × Bitmap)) :
    List (ActorId × List Bool) :=
  v.map (fun b => (b.actorId, b.builder.bits)) ++ result.map fun p => (p.1, p.2.bits)

/-- A family of actors with distinct ids, whose ids not to remove are those to keep, and in
which every vnode has one owner. -/
structure FamilyOk (E : List (ActorId × List Bool)) : Prop where
  nodup : (E.map Prod.fst).Nodup
  keep_perm : ((E.map Prod.fst).filter fun a => !actorsToRemove.contains a).Perm keep
  owners_eq : ∀ i < VirtualNode.COUNT, owners (E.map Prod.snd) i = 1

/-- The invariant of the `while` loop. -/
structure LoopInv (v : List Balance) (result : List (ActorId × Bitmap)) : Prop where
  family : FamilyOk actorsToRemove keep (loopEntries v result)
  balance_ok : ∀ b ∈ v, BalanceOk actorsToRemove lo hi orig b
  result_ok : ∀ p ∈ result, ResultOk actorsToRemove lo hi orig p
  signs : SignsOrdered (v.map (·.balance))
  sum_eq : (v.map (·.balance)).sum = 0

variable {actorsToRemove keep}

theorem FamilyOk.perm {E E' : List (ActorId × List Bool)} (h : FamilyOk actorsToRemove keep E)
    (hp : E.Perm E') : FamilyOk actorsToRemove keep E' where
  nodup := ((hp.map Prod.fst).nodup_iff).mp h.nodup
  keep_perm := ((hp.map Prod.fst).filter _).symm.trans h.keep_perm
  owners_eq i hi := (owners_perm (hp.map Prod.snd) i).symm.trans (h.owners_eq i hi)

/-- Two actors trading vnodes so that each vnode keeps its number of owners. -/
theorem FamilyOk.trade {a b : ActorId} {x y x' y' : List Bool} {E : List (ActorId × List Bool)}
    (h : FamilyOk actorsToRemove keep ((a, x) :: (b, y) :: E))
    (hxy : ∀ i, owners [x', y'] i = owners [x, y] i) :
    FamilyOk actorsToRemove keep ((a, x') :: (b, y') :: E) where
  nodup := by simpa using h.nodup
  keep_perm := by simpa using h.keep_perm
  owners_eq i hi := by
    have hown := h.owners_eq i hi
    have htrade := hxy i
    simp only [List.map_cons, owners_cons] at hown htrade ⊢
    omega

/-- An actor to remove that holds no vnode leaves the family. -/
theorem FamilyOk.drop {a : ActorId} {x : List Bool} {E : List (ActorId × List Bool)}
    (h : FamilyOk actorsToRemove keep ((a, x) :: E)) (ha : actorsToRemove.contains a = true)
    (hx : x.count true = 0) : FamilyOk actorsToRemove keep E where
  nodup := (List.nodup_cons.mp (by simpa using h.nodup)).2
  keep_perm := by simpa [ha] using h.keep_perm
  owners_eq i hi := by
    have hown := h.owners_eq i hi
    have hxi : x[i]? ≠ some true := fun hxi =>
      List.count_eq_zero.mp hx (List.mem_of_getElem? hxi)
    simpa [owners_cons, hxi] using hown

/-- Two actors of a family in which every vnode has one owner share no vnode. -/
theorem FamilyOk.owners_pair_le_one {a b : ActorId} {x y : List Bool}
    {E : List (ActorId × List Bool)} (h : FamilyOk actorsToRemove keep ((a, x) :: (b, y) :: E))
    (hx : x.length = VirtualNode.COUNT) (hy : y.length = VirtualNode.COUNT) (i : ℕ) :
    owners [x, y] i ≤ 1 := by
  by_cases hi : i < VirtualNode.COUNT
  · have hown := h.owners_eq i hi
    simp only [List.map_cons, owners_cons, owners_nil] at hown ⊢
    omega
  · -- past the bits, nobody owns the vnode
    have hxi : x[i]? = none := List.getElem?_eq_none (by omega)
    have hyi : y[i]? = none := List.getElem?_eq_none (by omega)
    simp [owners, hxi, hyi]

end Invariant

/-! ## One round -/

section Round

variable {actorsToRemove : ActorSet} {lo hi : ℕ} {orig : ActorId → List Bool}
  {n : ℤ} {src dst : Balance} {sb db : BitmapBuilder}

/-- A balanced actor of the deque, not to remove, is a result. -/
theorem BalanceOk.toResultOk {b : Balance} (h : BalanceOk actorsToRemove lo hi orig b)
    (hb : b.balance = 0) (hR : actorsToRemove.contains b.actorId = false) :
    ResultOk actorsToRemove lo hi orig (b.actorId, b.builder.finish) where
  length := h.length
  retained := hR
  count := by
    obtain ⟨k, hk, hcnt⟩ := h.count
    have hk' : b.builder.bits.count true = k := by omega
    simpa [hk'] using hk
  affinity := h.balanced hb

/-- An actor of the deque with nothing to give is not to remove. -/
theorem BalanceOk.not_removed {b : Balance} (h : BalanceOk actorsToRemove lo hi orig b)
    (hb : b.balance ≤ 0) : actorsToRemove.contains b.actorId = false := by
  by_contra hR
  have := h.removed_pos (by simpa using hR)
  omega

/-- The front actor after giving `n` vnodes, unless it is to remove and balanced. -/
theorem BalanceOk.give (h : BalanceOk actorsToRemove lo hi orig src) (hn0 : 0 ≤ n)
    (hn : n ≤ src.balance)
    (hsub : Subbits sb.bits src.builder.bits) (hlen : sb.bits.length = src.builder.bits.length)
    (hcount : (sb.bits.count true : ℤ) = src.builder.bits.count true - n)
    (hunchanged : n = 0 → sb = src.builder)
    (hkeep : src.balance - n ≠ 0 ∨ actorsToRemove.contains src.actorId = false) :
    BalanceOk actorsToRemove lo hi orig { src with balance := src.balance - n, builder := sb } where
  length := hlen.trans h.length
  count := by
    obtain ⟨k, hk, hcnt⟩ := h.count
    refine ⟨k, hk, ?_⟩
    dsimp only
    omega
  removed_pos hR := by
    dsimp only at hR ⊢
    rcases hkeep with hne | hR'
    · omega
    · simp [hR'] at hR
  gives hpos := hsub.trans (h.gives (by dsimp only at hpos; omega))
  takes hneg := by
    dsimp only at hneg
    omega
  balanced hzero := by
    dsimp only at hzero ⊢
    rcases lt_or_eq_of_le (show 0 ≤ src.balance by omega) with hpos | hzero'
    · exact .inl (hsub.trans (h.gives hpos))
    · rw [hunchanged (by omega)]
      exact h.balanced hzero'.symm

/-- The front actor, to remove and balanced after giving, holds no vnode left. -/
theorem BalanceOk.give_empty (h : BalanceOk actorsToRemove lo hi orig src)
    (hcount : (sb.bits.count true : ℤ) = src.builder.bits.count true - n)
    (hbal : src.balance - n = 0) (hR : actorsToRemove.contains src.actorId = true) :
    sb.bits.count true = 0 := by
  obtain ⟨k, hk, hcnt⟩ := h.count
  have hk0 : k = 0 := by simpa [TargetCount, hR] using hk
  omega

/-- The back actor after taking `n` vnodes. -/
theorem BalanceOk.take (h : BalanceOk actorsToRemove lo hi orig dst) (hn0 : 0 ≤ n)
    (hn : n ≤ -dst.balance)
    (hsub : Subbits dst.builder.bits db.bits) (hlen : db.bits.length = dst.builder.bits.length)
    (hcount : (db.bits.count true : ℤ) = dst.builder.bits.count true + n)
    (hunchanged : n = 0 → db = dst.builder) :
    BalanceOk actorsToRemove lo hi orig { dst with balance := dst.balance + n, builder := db } where
  length := hlen.trans h.length
  count := by
    obtain ⟨k, hk, hcnt⟩ := h.count
    refine ⟨k, hk, ?_⟩
    dsimp only
    omega
  removed_pos hR := by
    have := h.removed_pos hR
    omega
  gives hpos := by
    dsimp only at hpos
    omega
  takes hneg := (h.takes (by dsimp only at hneg; omega)).trans hsub
  balanced hzero := by
    dsimp only at hzero ⊢
    rcases lt_or_eq_of_le (show dst.balance ≤ 0 by omega) with hneg | hzero'
    · exact .inr ((h.takes hneg).trans hsub)
    · rw [hunchanged (by omega)]
      exact h.balanced hzero'

end Round

/-! ## Retiring a balanced actor -/

theorem insertResult_of_not_mem {result : List (ActorId × Bitmap)} {actorId : ActorId}
    (h : actorId ∉ result.map Prod.fst) (bitmap : Bitmap) :
    insertResult result actorId bitmap = result ++ [(actorId, bitmap)] := by
  rw [insertResult, List.filter_eq_self.mpr]
  intro p hp
  have hne : p.1 ≠ actorId := fun heq => h (heq ▸ List.mem_map_of_mem hp)
  simpa using hne

section Retire

variable {actorsToRemove : ActorSet} {keep : List ActorId} {lo hi : ℕ}
  {orig : ActorId → List Bool} {b : Balance} {v : List Balance}
  {result : List (ActorId × Bitmap)}

attribute [local simp] loopEntries in
/-- An actor of the deque is not yet in the result. -/
theorem LoopInv.not_mem_result (h : LoopInv actorsToRemove keep lo hi orig v result)
    (hb : b ∈ v) : b.actorId ∉ result.map Prod.fst := by
  have hnodup := h.family.nodup
  simp only [loopEntries, List.map_append, List.map_map] at hnodup
  intro hmem
  exact (List.nodup_append.mp hnodup).2.2 b.actorId (by simpa using ⟨b, hb, rfl⟩) b.actorId
    (by simpa [Function.comp_def] using hmem) rfl

/-- A balanced actor at the front, not to remove, moves to the result. -/
theorem LoopInv.retire_front (h : LoopInv actorsToRemove keep lo hi orig (b :: v) result)
    (hb : b.balance = 0) (hR : actorsToRemove.contains b.actorId = false) :
    LoopInv actorsToRemove keep lo hi orig v (insertResult result b.actorId b.builder.finish) := by
  rw [insertResult_of_not_mem (h.not_mem_result List.mem_cons_self)]
  refine ⟨h.family.perm ?_, fun x hx => h.balance_ok x (List.mem_cons_of_mem b hx), ?_,
    (List.pairwise_cons.mp h.signs).2, by simpa [hb] using h.sum_eq⟩
  · simp only [loopEntries, List.map_cons, List.map_append, List.cons_append]
    exact List.perm_iff_count.mpr fun x => by simp [List.count_cons]; omega
  · intro p hp
    rcases List.mem_append.mp hp with hp | hp
    · exact h.result_ok p hp
    · rw [List.mem_singleton.mp hp]
      exact (h.balance_ok b List.mem_cons_self).toResultOk hb hR

/-- A balanced actor at the back moves to the result: it is never one to remove. -/
theorem LoopInv.retire_back (h : LoopInv actorsToRemove keep lo hi orig (v ++ [b]) result)
    (hb : b.balance = 0) :
    LoopInv actorsToRemove keep lo hi orig v (insertResult result b.actorId b.builder.finish) := by
  have hbok := h.balance_ok b (by simp)
  rw [insertResult_of_not_mem (h.not_mem_result (by simp))]
  have hsum := h.sum_eq
  simp only [List.map_append, List.map_singleton, List.sum_append, List.sum_singleton, hb,
    add_zero] at hsum
  refine ⟨h.family.perm ?_, fun x hx => h.balance_ok x (List.mem_append_left _ hx), ?_,
    List.Pairwise.sublist ((List.sublist_append_left _ _).map _) h.signs, hsum⟩
  · simp only [loopEntries, List.map_append, List.map_singleton]
    exact List.perm_iff_count.mpr fun x => by simp [List.count_cons]
  · intro p hp
    rcases List.mem_append.mp hp with hp | hp
    · exact h.result_ok p hp
    · rw [List.mem_singleton.mp hp]
      exact hbok.toResultOk hb (hbok.not_removed hb.le)

end Retire

/-! ## Rounds -/

/-- The end of a round of the loop's body: the front goes back into the deque unless it is
balanced, else into the result unless it is to remove; then the back goes back unless it is
balanced, else into the result. -/
def retireEnds (actorsToRemove : ActorSet) (src dst : Balance) (mid : List Balance)
    (result : List (ActorId × Bitmap)) : List Balance × List (ActorId × Bitmap) :=
  let (v, result) :=
    if src.balance ≠ 0 then (src :: mid, result)
    else if !actorsToRemove.contains src.actorId then
      (mid, insertResult result src.actorId src.builder.finish)
    else (mid, result)
  if dst.balance ≠ 0 then (v ++ [dst], result)
  else (v, insertResult result dst.actorId dst.builder.finish)

attribute [local simp] rebalanceLoop retireEnds in
/-- A round of the loop, once its inner loop has moved the vnodes. -/
theorem rebalanceLoop_round (actorsToRemove : ActorSet) {src dst : Balance} {mid : List Balance}
    {result : List (ActorId × Bitmap)} {n : ℤ} {sb db : BitmapBuilder} {m : ℤ}
    (hn : n = min (src.balance.natAbs : ℤ) dst.balance.natAbs)
    (hmove : moveVnodes n (List.range VirtualNode.COUNT).reverse (src.builder, dst.builder, 0) =
      some (sb, db, m)) (fuel : ℕ) :
    rebalanceLoop actorsToRemove (fuel + 1) (src :: (mid ++ [dst])) result =
      let ends := retireEnds actorsToRemove
        { src with balance := src.balance - n, builder := sb }
        { dst with balance := dst.balance + n, builder := db } mid result
      rebalanceLoop actorsToRemove fuel ends.1 ends.2 := by
  subst hn
  obtain ⟨x, xs, hx⟩ : ∃ x xs, mid ++ [dst] = x :: xs := List.exists_cons_of_ne_nil (by simp)
  have hlast : (x :: xs).getLast? = some dst := by rw [← hx]; simp
  have hdrop : (x :: xs).dropLast = mid := by rw [← hx]; simp
  rw [hx]
  conv_lhs => rw [rebalanceLoop]
  simp only [hlast, hdrop, Option.bind_eq_bind, Option.bind_some, hmove, retireEnds]

section RoundInv

variable {actorsToRemove : ActorSet} {keep : List ActorId} {lo hi : ℕ}
  {orig : ActorId → List Bool} {src dst : Balance} {mid : List Balance}
  {result : List (ActorId × Bitmap)}

/-- Retiring the ends after the trade keeps the invariant and shortens the deque by one actor at
least, whichever of the five ways the ends go. -/
theorem LoopInv.retire_ends (hzero : src.balance = 0 ∨ dst.balance = 0)
    (hkept : src.balance ≠ 0 ∨ actorsToRemove.contains src.actorId = false →
      LoopInv actorsToRemove keep lo hi orig (src :: (mid ++ [dst])) result)
    (hdropped : src.balance = 0 → actorsToRemove.contains src.actorId = true →
      LoopInv actorsToRemove keep lo hi orig (mid ++ [dst]) result) :
    (retireEnds actorsToRemove src dst mid result).1.length ≤ mid.length + 1 ∧
      LoopInv actorsToRemove keep lo hi orig (retireEnds actorsToRemove src dst mid result).1
        (retireEnds actorsToRemove src dst mid result).2 := by
  by_cases hs : src.balance = 0
  · cases hR : actorsToRemove.contains src.actorId
    · have hfront := (hkept (.inr hR)).retire_front hs hR
      by_cases hd : dst.balance = 0
      · simpa [retireEnds, hs, hd, hR] using hfront.retire_back hd
      · simpa [retireEnds, hs, hd, hR] using hfront
    · by_cases hd : dst.balance = 0
      · simpa [retireEnds, hs, hd, hR] using (hdropped hs hR).retire_back hd
      · simpa [retireEnds, hs, hd, hR] using hdropped hs hR
  · have hd : dst.balance = 0 := hzero.resolve_left hs
    have hback : LoopInv actorsToRemove keep lo hi orig ((src :: mid) ++ [dst]) result :=
      hkept (.inl hs)
    simpa [retireEnds, hs, hd] using hback.retire_back hd

/-- The ends of the deque, taken out of its family. -/
theorem loopEntries_ends (src dst : Balance) (mid : List Balance)
    (result : List (ActorId × Bitmap)) :
    (loopEntries (src :: (mid ++ [dst])) result).Perm
      ((src.actorId, src.builder.bits) :: (dst.actorId, dst.builder.bits) ::
        loopEntries mid result) := by
  simp only [loopEntries, List.map_cons, List.map_append, List.cons_append, List.append_assoc]
  exact List.perm_middle.cons _

/-- The invariant over the deque with new ends, the middle and the result as they were. -/
theorem LoopInv.of_ends {src' dst' : Balance}
    (h : LoopInv actorsToRemove keep lo hi orig (src :: (mid ++ [dst])) result)
    (hfam : FamilyOk actorsToRemove keep ((src'.actorId, src'.builder.bits) ::
      (dst'.actorId, dst'.builder.bits) :: loopEntries mid result))
    (hsrc : BalanceOk actorsToRemove lo hi orig src')
    (hdst : BalanceOk actorsToRemove lo hi orig dst')
    (hsigns : SignsOrdered (src'.balance :: (mid.map (·.balance) ++ [dst'.balance])))
    (hsum : (src'.balance :: (mid.map (·.balance) ++ [dst'.balance])).sum = 0) :
    LoopInv actorsToRemove keep lo hi orig (src' :: (mid ++ [dst'])) result := by
  refine ⟨hfam.perm (loopEntries_ends src' dst' mid result).symm, ?_, h.result_ok,
    by simpa using hsigns, by simpa using hsum⟩
  intro b hb
  simp only [List.mem_cons, List.mem_append, List.not_mem_nil, or_false] at hb
  rcases hb with rfl | hb | rfl
  · exact hsrc
  · exact h.balance_ok b (by simp [hb])
  · exact hdst

/-- The invariant over the deque without its front and with a new back. -/
theorem LoopInv.of_back {dst' : Balance}
    (h : LoopInv actorsToRemove keep lo hi orig (src :: (mid ++ [dst])) result)
    (hfam : FamilyOk actorsToRemove keep
      ((dst'.actorId, dst'.builder.bits) :: loopEntries mid result))
    (hdst : BalanceOk actorsToRemove lo hi orig dst')
    (hsigns : SignsOrdered (mid.map (·.balance) ++ [dst'.balance]))
    (hsum : (mid.map (·.balance) ++ [dst'.balance]).sum = 0) :
    LoopInv actorsToRemove keep lo hi orig (mid ++ [dst']) result := by
  refine ⟨hfam.perm ?_, ?_, h.result_ok, by simpa using hsigns, by simpa using hsum⟩
  · simp only [loopEntries, List.map_append, List.map_singleton, List.append_assoc,
      List.singleton_append]
    exact List.perm_middle.symm
  · intro b hb
    simp only [List.mem_append, List.mem_singleton] at hb
    rcases hb with hb | rfl
    · exact h.balance_ok b (by simp [hb])
    · exact hdst

/-- One round of the loop: the front gives the back as many vnodes as balance one of them,
which leaves the deque; the invariant holds again. -/
theorem LoopInv.round (h : LoopInv actorsToRemove keep lo hi orig (src :: (mid ++ [dst])) result) :
    ∃ v' result', v'.length ≤ mid.length + 1 ∧ LoopInv actorsToRemove keep lo hi orig v' result' ∧
      ∀ fuel, rebalanceLoop actorsToRemove (fuel + 1) (src :: (mid ++ [dst])) result =
        rebalanceLoop actorsToRemove fuel v' result' := by
  have hsrc := h.balance_ok src List.mem_cons_self
  have hdst := h.balance_ok dst (by simp)
  have hsigns : SignsOrdered (src.balance :: (mid.map (·.balance) ++ [dst.balance])) := by
    simpa using h.signs
  have hsum : (src.balance :: (mid.map (·.balance) ++ [dst.balance])).sum = 0 := by
    simpa using h.sum_eq
  -- the front gives and the back takes
  have hs0 : 0 ≤ src.balance := head_nonneg_of_signsOrdered hsigns hsum
  have hd0 : dst.balance ≤ 0 :=
    last_nonpos_of_signsOrdered (l := src.balance :: mid.map Balance.balance) hsigns hsum
  obtain ⟨n, hn_def⟩ : ∃ n, n = min (src.balance.natAbs : ℤ) dst.balance.natAbs := ⟨_, rfl⟩
  have hn : n = min src.balance (-dst.balance) := by omega
  have hfam := h.family.perm (loopEntries_ends src dst mid result)
  -- the inner loop moves `n` vnodes from the front to the back
  obtain ⟨sb, db, m, hmove, hmv⟩ := moveVnodes_spec n (List.range VirtualNode.COUNT).reverse
    src.builder dst.builder 0 (by simp [hsrc.length, hdst.length])
    (hfam.owners_pair_le_one hsrc.length hdst.length)
  have hm : m = n := hmv.moved_eq hsrc.length (by omega) (by
    obtain ⟨k, -, hk⟩ := hsrc.count
    omega)
  subst hm
  have hcs : (sb.bits.count true : ℤ) = src.builder.bits.count true - m := by
    simpa using hmv.count_src
  have hcd : (db.bits.count true : ℤ) = dst.builder.bits.count true + m := by
    simpa using hmv.count_dst
  have hunch : m = 0 → sb = src.builder ∧ db = dst.builder := fun h0 => hmv.unchanged (by omega)
  -- the invariant after the trade, with the front kept or dropped
  have hdst' := hdst.take (by omega) (by omega) hmv.sub_dst hmv.length_dst hcd
    (fun h0 => (hunch h0).2)
  have hfam' := hfam.trade hmv.owners_eq
  have hsigns' : SignsOrdered ((src.balance - m) :: (mid.map (·.balance) ++ [dst.balance + m])) :=
    signsOrdered_round hsigns (by omega) (by omega)
  have hsum' : ((src.balance - m) :: (mid.map (·.balance) ++ [dst.balance + m])).sum = 0 := by
    simp only [List.sum_cons, List.sum_append] at hsum ⊢
    omega
  have hkept : src.balance - m ≠ 0 ∨ actorsToRemove.contains src.actorId = false →
      LoopInv actorsToRemove keep lo hi orig
        ({ src with balance := src.balance - m, builder := sb } ::
          (mid ++ [{ dst with balance := dst.balance + m, builder := db }])) result :=
    fun hkeep => h.of_ends hfam'
      (hsrc.give (by omega) (by omega) hmv.sub_src hmv.length_src hcs (fun h0 => (hunch h0).1)
        hkeep) hdst' hsigns' hsum'
  have hdropped : src.balance - m = 0 → actorsToRemove.contains src.actorId = true →
      LoopInv actorsToRemove keep lo hi orig
        (mid ++ [{ dst with balance := dst.balance + m, builder := db }]) result := by
    intro hzero hR
    refine h.of_back (hfam'.drop hR (hsrc.give_empty hcs hzero hR)) hdst'
      (List.pairwise_cons.mp hsigns').2 ?_
    simp only [List.sum_cons] at hsum'
    dsimp only
    omega
  have hzero : ({ src with balance := src.balance - m, builder := sb } : Balance).balance = 0 ∨
      ({ dst with balance := dst.balance + m, builder := db } : Balance).balance = 0 := by
    dsimp only
    omega
  obtain ⟨hlen, hinv⟩ := LoopInv.retire_ends hzero hkept hdropped
  exact ⟨_, _, hlen, hinv, rebalanceLoop_round actorsToRemove hn_def hmove⟩

/-- Given as many rounds as there are actors in the deque, the loop ends without panicking, with
the invariant over the result alone. -/
theorem LoopInv.run (fuel : ℕ) {v : List Balance} (hfuel : v.length ≤ fuel)
    (h : LoopInv actorsToRemove keep lo hi orig v result) :
    ∃ result', rebalanceLoop actorsToRemove fuel v result = some result' ∧
      LoopInv actorsToRemove keep lo hi orig [] result' := by
  induction fuel generalizing v result with
  | zero =>
    obtain rfl := List.length_eq_zero_iff.mp (Nat.le_zero.mp hfuel)
    exact ⟨result, rfl, h⟩
  | succ fuel ih =>
    match v, hfuel, h with
    | [], _, h => exact ⟨result, rfl, h⟩
    | [single], _, h =>
      -- the last actor is balanced, and so not one to remove
      have hb : single.balance = 0 := by simpa using h.sum_eq
      have hR := (h.balance_ok single List.mem_cons_self).not_removed hb.le
      exact ⟨_, by simp [rebalanceLoop, hb, hR], h.retire_front hb hR⟩
    | src :: x :: xs, hfuel, h =>
      obtain ⟨mid, dst, hw⟩ : ∃ mid dst, x :: xs = mid ++ [dst] :=
        ⟨_, _, (List.dropLast_append_getLast (List.cons_ne_nil x xs)).symm⟩
      rw [hw] at hfuel h ⊢
      obtain ⟨v', result', hlen, h', hround⟩ := h.round
      obtain ⟨result'', hrun, hinv⟩ := ih (by simp at hfuel; omega) h'
      exact ⟨result'', (hround fuel).trans hrun, hinv⟩

end RoundInv

end RisingWave.Meta
