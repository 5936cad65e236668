import RisingWave.Lib.Wildcard

/-!
# LIKE

`like_impl` and `like_default` (`expr/src/vector_op/like.rs`). The loop walks the pattern and
the string byte by byte and, where they disagree, goes back to the last `%` it passed, one byte
further into the string. It computes `wildMatch` of the pattern as `tokenize` reads it, on bytes
(`likeImpl_eq_wildMatch`): `LikeInv` says what is still to be decided in each state, each round
keeps it, and `likePotential`, which each round lowers, bounds the rounds.

`like_default` runs it on the UTF-8 bytes of its arguments, so `_` stands for one byte, not one
character (`likeDefault_matches_bytes`).
-/

namespace RisingWave.Expr

open Wildcard

/-- The loop's variables `px`, `sx`, `next_px` and `next_sx`. -/
structure LikeState where
  px : ℕ
  sx : ℕ
  nextPx : ℕ
  nextSx : ℕ
  deriving DecidableEq

section Impl

variable (ESCAPE : UInt8) (pbytes sbytes : List UInt8)

/-- The rounds that end in a `continue` without going back: past a `_` while the string has a
byte left, past a `%`, which becomes the one to go back to, and past a literal, escaped or not,
that the string has next. `none` where the round falls through to going back; the step over an
escape is not kept there, since the source then sets `px` again or returns. -/
def likeAdvance (st : LikeState) : Option LikeState :=
  match pbytes[st.px]? with
  | none => none
  | some c =>
    if c = '_'.toUInt8 then
      if st.sx < sbytes.length then some { st with px := st.px + 1, sx := st.sx + 1 } else none
    else if c = '%'.toUInt8 then
      some { st with px := st.px + 1, nextPx := st.px, nextSx := st.sx + 1 }
    else
      let (px, pc) :=
        match pbytes[st.px + 1]? with
        | some c' => if c = ESCAPE then (st.px + 1, c') else (st.px, c)
        | none => (st.px, c)
      if sbytes[st.sx]? = some pc then some { st with px := px + 1, sx := st.sx + 1 } else none

/-- The `while` loop, for at most `fuel` rounds. -/
def likeLoop : ℕ → LikeState → Bool
  | 0, _ => false
  | fuel + 1, st =>
    if st.px < pbytes.length ∨ st.sx < sbytes.length then
      match likeAdvance ESCAPE pbytes sbytes st with
      | some st' => likeLoop fuel st'
      | none =>
        if 0 < st.nextSx ∧ st.nextSx ≤ sbytes.length then
          likeLoop fuel { st with px := st.nextPx, sx := st.nextSx }
        else false
    else true

/-- More rounds than the loop takes (`likeLoop_eq_wildMatch`). -/
def likeFuel : ℕ := (sbytes.length + 2) * (pbytes.length + sbytes.length + 3)

end Impl

/-- `like_impl::<ESCAPE>(s, p)`, on the bytes of `s` and `p`. -/
def likeImpl (ESCAPE : UInt8) (s p : List UInt8) : Bool :=
  likeLoop ESCAPE p s (likeFuel p s) ⟨0, 0, 0, 0⟩

/-- `like_default`: the escape is a backslash, and each string is read as its UTF-8 bytes. -/
def likeDefault (s p : List Char) : Bool :=
  likeImpl '\\'.toUInt8 (s.flatMap String.utf8EncodeChar) (p.flatMap String.utf8EncodeChar)

/-! ## What the loop computes -/

/-- The pattern from byte `px` on. -/
def tokensFrom (ESCAPE : UInt8) (p : List UInt8) (px : ℕ) : List (Tok UInt8) :=
  tokenize ESCAPE '%'.toUInt8 '_'.toUInt8 (p.drop px)

/-- The state just after going back to the last `%`. -/
def JustBack (st : LikeState) : Prop := 0 < st.nextSx ∧ st.px = st.nextPx ∧ st.sx = st.nextSx

instance : DecidablePred JustBack := fun _ => inferInstanceAs (Decidable (_ ∧ _ ∧ _))

section Invariant

variable (ESCAPE : UInt8) (p s : List UInt8)

/-- Before any `%`: the match is the rest of the pattern on the rest of the string. -/
structure NoStar (st : LikeState) : Prop where
  nextSx_eq : st.nextSx = 0
  target : wildMatch (tokensFrom ESCAPE p 0) s = wildMatch (tokensFrom ESCAPE p st.px) (s.drop st.sx)

/-- After a `%`: the match is the rest of the pattern on the rest of the string, or the last `%`
tried from one byte further on. Since that `%`, the loop has just gone back to it, or it has
gone past it over a run `q` without `%`, one string byte for each token. -/
structure AfterStar (st : LikeState) : Prop where
  nextSx_pos : 0 < st.nextSx
  nextSx_le : st.nextSx ≤ s.length + 1
  star : p[st.nextPx]? = some '%'.toUInt8
  target : wildMatch (tokensFrom ESCAPE p 0) s =
    (wildMatch (tokensFrom ESCAPE p st.px) (s.drop st.sx) ||
      wildMatch (.any :: tokensFrom ESCAPE p (st.nextPx + 1)) (s.drop st.nextSx))
  progress : JustBack st ∨ st.nextPx < st.px ∧ ∃ q, StarFree q ∧
    tokensFrom ESCAPE p (st.nextPx + 1) = q ++ tokensFrom ESCAPE p st.px ∧
    q.length + st.nextSx = st.sx + 1

/-- The loop's invariant. -/
structure LikeInv (st : LikeState) : Prop where
  sx_le : st.sx ≤ s.length
  px_le : st.px ≤ p.length
  mode : NoStar ESCAPE p s st ∨ AfterStar ESCAPE p s st

/-- Each round lowers it: going back to a `%` lowers the first part, which counts the places
left to try it from, and every other round the second, unless it moves the `%` on. -/
def likePotential (st : LikeState) : ℕ :=
  (s.length + 1 - st.nextSx) * (p.length + s.length + 3) +
    if JustBack st then 0 else p.length + s.length + 2 - st.px - st.sx

end Invariant

section Rounds

variable {ESCAPE : UInt8} {p s : List UInt8} {st : LikeState}

theorem tokensFrom_of_star {i : ℕ} (h : p[i]? = some '%'.toUInt8) :
    tokensFrom ESCAPE p i = .any :: tokensFrom ESCAPE p (i + 1) :=
  tokenize_drop_of_any h (by decide)

attribute [local simp] likeAdvance in
theorem likeAdvance_of_star (h : p[st.px]? = some '%'.toUInt8) :
    likeAdvance ESCAPE p s st = some ⟨st.px + 1, st.sx, st.px, st.sx + 1⟩ := by
  have hne : '%'.toUInt8 ≠ '_'.toUInt8 := by decide
  simp [likeAdvance, h, hne]

theorem px_lt_of_likeAdvance_eq_some {st' : LikeState}
    (h : likeAdvance ESCAPE p s st = some st') : st.px < p.length := by
  by_contra hpx
  simp [likeAdvance, List.getElem?_eq_none_iff.mpr (Nat.le_of_not_gt hpx)] at h

variable (hesc1 : ESCAPE ≠ '_'.toUInt8) (hesc2 : ESCAPE ≠ '%'.toUInt8)
include hesc1 hesc2

/-- A round that does not go back reads one token of the pattern: a `_`, a `%`, or a literal
that ends at `k`. -/
theorem likeAdvance_cases (hpx : st.px < p.length) :
    (tokensFrom ESCAPE p st.px = .one :: tokensFrom ESCAPE p (st.px + 1) ∧
      likeAdvance ESCAPE p s st =
        if st.sx < s.length then some ⟨st.px + 1, st.sx + 1, st.nextPx, st.nextSx⟩ else none) ∨
    (p[st.px]? = some '%'.toUInt8 ∧
      tokensFrom ESCAPE p st.px = .any :: tokensFrom ESCAPE p (st.px + 1)) ∨
    ∃ c k, st.px < k ∧ k ≤ p.length ∧
      tokensFrom ESCAPE p st.px = .lit c :: tokensFrom ESCAPE p k ∧
      likeAdvance ESCAPE p s st =
        if s[st.sx]? = some c then some ⟨k, st.sx + 1, st.nextPx, st.nextSx⟩ else none := by
  obtain ⟨c, hc⟩ : ∃ c, p[st.px]? = some c := ⟨_, List.getElem?_eq_getElem hpx⟩
  by_cases h1 : c = '_'.toUInt8
  · rw [h1] at hc
    exact .inl ⟨tokenize_drop_of_one hc, by simp [likeAdvance, hc]⟩
  by_cases h2 : c = '%'.toUInt8
  · rw [h2] at hc
    exact .inr (.inl ⟨hc, tokensFrom_of_star hc⟩)
  refine .inr (.inr ?_)
  -- an escape with a byte after it is a literal of that byte; any other byte, of itself
  cases hnext : p[st.px + 1]? with
  | some c' =>
    by_cases h3 : c = ESCAPE
    · rw [h3] at hc
      have hlt : st.px + 1 < p.length := (List.getElem?_eq_some_iff.mp hnext).1
      refine ⟨c', st.px + 2, by omega, hlt, tokenize_drop_of_esc hc hesc1 hesc2 hnext, ?_⟩
      simp [likeAdvance, hc, hnext, hesc1, hesc2]
    · refine ⟨c, st.px + 1, by omega, hpx, tokenize_drop_of_lit hc h1 h2 (.inl h3), ?_⟩
      simp [likeAdvance, hc, hnext, h1, h2, h3]
  | none =>
    refine ⟨c, st.px + 1, by omega, hpx, tokenize_drop_of_lit hc h1 h2 (.inr hnext), ?_⟩
    simp [likeAdvance, hc, hnext, h1, h2]

/-- A round that cannot go on: the rest of the pattern does not match the rest of the string. -/
theorem rest_eq_false_of_likeAdvance_eq_none (hrun : st.px < p.length ∨ st.sx < s.length)
    (hadv : likeAdvance ESCAPE p s st = none) :
    wildMatch (tokensFrom ESCAPE p st.px) (s.drop st.sx) = false := by
  by_cases hpx : st.px < p.length
  · rcases likeAdvance_cases hesc1 hesc2 hpx with
      ⟨htok, hadv'⟩ | ⟨hstar, -⟩ | ⟨c, k, -, -, htok, hadv'⟩
    · have hsx : ¬st.sx < s.length := fun hsx => by
        rw [hadv, if_pos hsx] at hadv'
        cases hadv'
      simp [htok, wildMatch_one_drop, hsx]
    · rw [likeAdvance_of_star hstar] at hadv
      cases hadv
    · have hc : ¬s[st.sx]? = some c := fun hc => by
        rw [hadv, if_pos hc] at hadv'
        cases hadv'
      simp [htok, wildMatch_lit_drop, hc]
  · -- the pattern is used up and the string is not
    have hsx : st.sx < s.length := hrun.resolve_left hpx
    rw [tokensFrom, List.drop_eq_nil_of_le (by omega), tokenize_nil, wildMatch_nil]
    simpa using hsx

end Rounds

section Steps

variable {ESCAPE : UInt8} {p s : List UInt8} {st : LikeState}

theorem LikeInv.star_of_justBack (hinv : LikeInv ESCAPE p s st) (hjb : JustBack st) :
    p[st.px]? = some '%'.toUInt8 := by
  rcases hinv.mode with hno | haft
  · exact absurd hno.nextSx_eq (Nat.pos_iff_ne_zero.mp hjb.1)
  · rw [hjb.2.1]
    exact haft.star

/-- Just after going back the pattern is at a `%`, so no other token is read there. -/
theorem LikeInv.not_justBack {t : Tok UInt8} {r : List (Tok UInt8)}
    (hinv : LikeInv ESCAPE p s st) (htok : tokensFrom ESCAPE p st.px = t :: r) (ht : t ≠ .any) :
    ¬JustBack st := fun hjb => by
  rw [tokensFrom_of_star (hinv.star_of_justBack hjb)] at htok
  exact ht (List.cons.inj htok).1.symm

theorem LikeInv.nextSx_le_succ (hinv : LikeInv ESCAPE p s st) : st.nextSx ≤ st.sx + 1 := by
  rcases hinv.mode with hno | haft
  · rw [hno.nextSx_eq]
    exact Nat.zero_le _
  · rcases haft.progress with ⟨-, -, hsx⟩ | ⟨-, q, -, -, hq⟩ <;> omega

/-- Past a token other than `%` that takes the string's next byte. -/
theorem LikeInv.consume {t : Tok UInt8} {k : ℕ} (hinv : LikeInv ESCAPE p s st)
    (hjb : ¬JustBack st) (ht : t ≠ .any) (hk : st.px < k) (hkp : k ≤ p.length)
    (hsx : st.sx < s.length) (htok : tokensFrom ESCAPE p st.px = t :: tokensFrom ESCAPE p k)
    (hmatch : wildMatch (t :: tokensFrom ESCAPE p k) (s.drop st.sx) =
      wildMatch (tokensFrom ESCAPE p k) (s.drop (st.sx + 1))) :
    LikeInv ESCAPE p s ⟨k, st.sx + 1, st.nextPx, st.nextSx⟩ := by
  refine ⟨hsx, hkp, ?_⟩
  rcases hinv.mode with hno | haft
  · exact .inl ⟨hno.nextSx_eq, by rw [hno.target, htok, hmatch]⟩
  · refine .inr ⟨haft.nextSx_pos, haft.nextSx_le, haft.star, by rw [haft.target, htok, hmatch], ?_⟩
    -- the run since the last `%` grows by `t`
    obtain ⟨hlt, q, hq, hqtok, hqlen⟩ := haft.progress.resolve_left hjb
    have ht' : StarFree [t] := by simpa [StarFree] using ht.symm
    refine .inr ⟨show st.nextPx < k by omega, q ++ [t], hq.append ht', ?_, ?_⟩
    · rw [hqtok, htok, List.append_assoc, List.singleton_append]
    · simp only [List.length_append, List.length_singleton]
      omega

/-- Past a `%`, which becomes the last one. -/
theorem LikeInv.star (hinv : LikeInv ESCAPE p s st) (hstar : p[st.px]? = some '%'.toUInt8) :
    LikeInv ESCAPE p s ⟨st.px + 1, st.sx, st.px, st.sx + 1⟩ := by
  have hpx : st.px < p.length := (List.getElem?_eq_some_iff.mp hstar).1
  have htok : tokensFrom ESCAPE p st.px = _ := tokensFrom_of_star hstar
  -- the `%` takes no byte, or one byte more
  have hany : wildMatch (tokensFrom ESCAPE p st.px) (s.drop st.sx) =
      (wildMatch (tokensFrom ESCAPE p (st.px + 1)) (s.drop st.sx) ||
        wildMatch (.any :: tokensFrom ESCAPE p (st.px + 1)) (s.drop (st.sx + 1))) := by
    rw [htok, wildMatch_any, List.drop_drop]
  refine ⟨hinv.sx_le, hpx, .inr ⟨Nat.succ_pos _, Nat.succ_le_succ hinv.sx_le, hstar, ?_, ?_⟩⟩
  · dsimp only
    rw [← hany]
    rcases hinv.mode with hno | haft
    · exact hno.target
    · -- the last `%` adds nothing that this one does not
      rw [haft.target]
      refine (Bool.eq_self_or.mpr fun h => ?_).symm
      rcases haft.progress with ⟨-, hpx', hsx'⟩ | ⟨-, q, hq, hqtok, hqlen⟩
      · rwa [htok, hpx', hsx']
      · rw [hqtok, htok] at h
        have h' := wildMatch_any_exchange hq h
        rw [List.drop_drop, show st.nextSx + q.length = st.sx + 1 by omega] at h'
        rw [htok]
        exact wildMatch_any_of_drop_le (Nat.le_succ _) h'
  · exact .inr ⟨Nat.lt_succ_self _, [], List.not_mem_nil, rfl, Nat.zero_add _⟩

/-- Back to the last `%`, one byte further on than it last started. -/
theorem LikeInv.backtrack (hinv : LikeInv ESCAPE p s st)
    (hrest : wildMatch (tokensFrom ESCAPE p st.px) (s.drop st.sx) = false)
    (hback : 0 < st.nextSx ∧ st.nextSx ≤ s.length) :
    LikeInv ESCAPE p s ⟨st.nextPx, st.nextSx, st.nextPx, st.nextSx⟩ := by
  rcases hinv.mode with hno | haft
  · exact absurd hno.nextSx_eq (Nat.pos_iff_ne_zero.mp hback.1)
  · have hlt : st.nextPx < p.length := (List.getElem?_eq_some_iff.mp haft.star).1
    refine ⟨hback.2, Nat.le_of_lt hlt, .inr ⟨hback.1, haft.nextSx_le, haft.star, ?_, .inl ⟨hback.1, rfl, rfl⟩⟩⟩
    dsimp only
    rw [haft.target, hrest, Bool.false_or, tokensFrom_of_star haft.star, Bool.or_self]

/-- Nowhere left to go back to: the match fails. -/
theorem LikeInv.stuck (hinv : LikeInv ESCAPE p s st)
    (hrest : wildMatch (tokensFrom ESCAPE p st.px) (s.drop st.sx) = false)
    (hback : ¬(0 < st.nextSx ∧ st.nextSx ≤ s.length)) :
    wildMatch (tokensFrom ESCAPE p 0) s = false := by
  rcases hinv.mode with hno | haft
  · rw [hno.target, hrest]
  · -- the last `%` was last tried at the end of the string, where the rest was just tried
    have hsx := hinv.sx_le
    have hend : st.nextSx = s.length + 1 := by
      have := haft.nextSx_pos
      have := haft.nextSx_le
      omega
    obtain ⟨-, q, -, hqtok, hqlen⟩ := haft.progress.resolve_left fun hjb => by
      have := hjb.2.2
      omega
    have hq : q = [] := List.eq_nil_of_length_eq_zero (by omega)
    rw [haft.target, hrest, Bool.false_or, hqtok, hq, List.nil_append,
      List.drop_eq_nil_of_le (by omega : s.length ≤ st.nextSx), wildMatch_any_nil]
    rwa [List.drop_eq_nil_of_le (by omega : s.length ≤ st.sx)] at hrest

/-- Both ends reached: the match holds. -/
theorem LikeInv.done (hinv : LikeInv ESCAPE p s st)
    (hrun : ¬(st.px < p.length ∨ st.sx < s.length)) :
    wildMatch (tokensFrom ESCAPE p 0) s = true := by
  have hrest : wildMatch (tokensFrom ESCAPE p st.px) (s.drop st.sx) = true := by
    rw [tokensFrom, List.drop_eq_nil_of_le (by omega), List.drop_eq_nil_of_le (by omega)]
    rfl
  rcases hinv.mode with hno | haft
  · rw [hno.target, hrest]
  · rw [haft.target, hrest, Bool.true_or]

theorem mul_add_lt_mul_add {a a' x x' m : ℕ} (hx' : x' < m) (h : a' < a ∨ a' = a ∧ x' < x) :
    a' * m + x' < a * m + x := by
  rcases h with h | ⟨rfl, h⟩
  · calc a' * m + x' < (a' + 1) * m := by rw [Nat.succ_mul]; omega
      _ ≤ a * m := Nat.mul_le_mul_right m h
      _ ≤ a * m + x := Nat.le_add_right _ _
  · omega

attribute [local simp] likePotential in
theorem likePotential_consume {k : ℕ} (hinv : LikeInv ESCAPE p s st) (hjb : ¬JustBack st)
    (hk : st.px < k) (hkp : k ≤ p.length) (hsx : st.sx < s.length) :
    likePotential p s ⟨k, st.sx + 1, st.nextPx, st.nextSx⟩ < likePotential p s st := by
  -- nor is the state after just after going back
  have hjb' : ¬JustBack ⟨k, st.sx + 1, st.nextPx, st.nextSx⟩ := by
    rintro ⟨hpos, hpx, -⟩
    rcases hinv.mode with hno | haft
    · exact absurd hno.nextSx_eq (Nat.pos_iff_ne_zero.mp hpos)
    · obtain ⟨hlt, -⟩ := haft.progress.resolve_left hjb
      dsimp only at hpx
      omega
  simp only [likePotential, if_neg hjb, if_neg hjb']
  omega

theorem likePotential_star (hinv : LikeInv ESCAPE p s st) (hpx : st.px < p.length) :
    likePotential p s ⟨st.px + 1, st.sx, st.px, st.sx + 1⟩ < likePotential p s st := by
  have hjb' : ¬JustBack ⟨st.px + 1, st.sx, st.px, st.sx + 1⟩ := fun h => by
    have := h.2.1
    dsimp only at this
    omega
  have hle := hinv.nextSx_le_succ
  have hsx := hinv.sx_le
  simp only [likePotential, if_neg hjb']
  split_ifs with hjb
  · -- just gone back: the `%` now starts one byte further on
    have := hjb.2.2
    exact mul_add_lt_mul_add (by omega) (.inl (by omega))
  · by_cases heq : st.nextSx = st.sx + 1
    · exact mul_add_lt_mul_add (by omega) (.inr ⟨by omega, by omega⟩)
    · exact mul_add_lt_mul_add (by omega) (.inl (by omega))

theorem likePotential_backtrack (hinv : LikeInv ESCAPE p s st) (hjb : ¬JustBack st)
    (hpos : 0 < st.nextSx) :
    likePotential p s ⟨st.nextPx, st.nextSx, st.nextPx, st.nextSx⟩ < likePotential p s st := by
  have hjb' : JustBack ⟨st.nextPx, st.nextSx, st.nextPx, st.nextSx⟩ := ⟨hpos, rfl, rfl⟩
  have := hinv.sx_le
  have := hinv.px_le
  simp only [likePotential, if_pos hjb', if_neg hjb]
  omega

end Steps

section Run

variable {ESCAPE : UInt8} {p s : List UInt8}
variable (hesc1 : ESCAPE ≠ '_'.toUInt8) (hesc2 : ESCAPE ≠ '%'.toUInt8)
include hesc1 hesc2

/-- A round that does not go back keeps the invariant and lowers the potential. -/
theorem LikeInv.advance {st st' : LikeState} (hinv : LikeInv ESCAPE p s st)
    (h : likeAdvance ESCAPE p s st = some st') :
    LikeInv ESCAPE p s st' ∧ likePotential p s st' < likePotential p s st := by
  have hpx := px_lt_of_likeAdvance_eq_some h
  rcases likeAdvance_cases hesc1 hesc2 hpx with
    ⟨htok, hadv⟩ | ⟨hstar, -⟩ | ⟨c, k, hk, hkp, htok, hadv⟩
  · -- `_`
    obtain ⟨hsx, rfl⟩ := Option.ite_some_none_eq_some.mp (hadv ▸ h)
    have hjb := hinv.not_justBack htok (by decide)
    have hmatch : wildMatch (.one :: tokensFrom ESCAPE p (st.px + 1)) (s.drop st.sx) =
        wildMatch (tokensFrom ESCAPE p (st.px + 1)) (s.drop (st.sx + 1)) := by
      rw [wildMatch_one_drop, decide_eq_true hsx, Bool.true_and]
    exact ⟨hinv.consume hjb (by decide) (Nat.lt_succ_self _) hpx hsx htok hmatch,
      likePotential_consume hinv hjb (Nat.lt_succ_self _) hpx hsx⟩
  · -- `%`
    rw [likeAdvance_of_star hstar] at h
    cases h
    exact ⟨hinv.star hstar, likePotential_star hinv hpx⟩
  · -- a literal
    obtain ⟨hc, rfl⟩ := Option.ite_some_none_eq_some.mp (hadv ▸ h)
    have hsx : st.sx < s.length := (List.getElem?_eq_some_iff.mp hc).1
    have hjb := hinv.not_justBack htok (by simp)
    have hmatch : wildMatch (.lit c :: tokensFrom ESCAPE p k) (s.drop st.sx) =
        wildMatch (tokensFrom ESCAPE p k) (s.drop (st.sx + 1)) := by
      rw [wildMatch_lit_drop, decide_eq_true hc, Bool.true_and]
    exact ⟨hinv.consume hjb (by simp) hk hkp hsx htok hmatch,
      likePotential_consume hinv hjb hk hkp hsx⟩

/-- The run: from a state that keeps the invariant, with more rounds than its potential, the loop
returns whether the whole pattern matches the whole string. The induction is on the rounds; each
round is one of the step lemmas. -/
theorem likeLoop_eq_wildMatch (fuel : ℕ) (st : LikeState) (hinv : LikeInv ESCAPE p s st)
    (hfuel : likePotential p s st < fuel) :
    likeLoop ESCAPE p s fuel st = wildMatch (tokensFrom ESCAPE p 0) s := by
  induction fuel generalizing st with
  | zero => exact absurd hfuel (Nat.not_lt_zero _)
  | succ fuel ih =>
    rw [likeLoop]
    by_cases hrun : st.px < p.length ∨ st.sx < s.length
    · rw [if_pos hrun]
      cases hadv : likeAdvance ESCAPE p s st with
      | some st' =>
        obtain ⟨hinv', hlt⟩ := hinv.advance hesc1 hesc2 hadv
        exact ih st' hinv' (by omega)
      | none =>
        dsimp only
        have hrest := rest_eq_false_of_likeAdvance_eq_none hesc1 hesc2 hrun hadv
        by_cases hback : 0 < st.nextSx ∧ st.nextSx ≤ s.length
        · rw [if_pos hback]
          -- just after going back the round reads the `%`, so it does not end here
          have hjb : ¬JustBack st := fun hjb => by
            rw [likeAdvance_of_star (hinv.star_of_justBack hjb)] at hadv
            cases hadv
          have hlt := likePotential_backtrack hinv hjb hback.1
          exact ih _ (hinv.backtrack hrest hback) (by omega)
        · rw [if_neg hback]
          exact (hinv.stuck hrest hback).symm
    · rw [if_neg hrun]
      exact (hinv.done hrun).symm

/-- `like_impl` decides the pattern, read with its escape, on bytes. -/
theorem likeImpl_eq_wildMatch (s p : List UInt8) :
    likeImpl ESCAPE s p = wildMatch (tokenize ESCAPE '%'.toUInt8 '_'.toUInt8 p) s := by
  have hinit : LikeInv ESCAPE p s ⟨0, 0, 0, 0⟩ :=
    ⟨Nat.zero_le _, Nat.zero_le _, .inl ⟨rfl, rfl⟩⟩
  have hjb : ¬JustBack ⟨0, 0, 0, 0⟩ := fun h => Nat.lt_irrefl 0 h.1
  have hfuel : likePotential p s ⟨0, 0, 0, 0⟩ < likeFuel p s := by
    simp only [likePotential, likeFuel, if_neg hjb]
    exact Nat.add_zero ((s.length + 2) * _) ▸ mul_add_lt_mul_add (by omega) (.inl (by omega))
  exact likeLoop_eq_wildMatch hesc1 hesc2 _ _ hinit hfuel

end Run

/-- `like_default` decides the pattern on the UTF-8 bytes of the string. -/
theorem likeDefault_eq_wildMatch (s p : List Char) :
    likeDefault s p = wildMatch (tokenize '\\'.toUInt8 '%'.toUInt8 '_'.toUInt8
      (p.flatMap String.utf8EncodeChar)) (s.flatMap String.utf8EncodeChar) :=
  likeImpl_eq_wildMatch (by decide) (by decide) _ _

/-! ## Bytes and characters -/

/-- An ASCII character is one byte, itself. -/
theorem utf8EncodeChar_of_lt {c : Char} (h : c.toNat < 128) :
    String.utf8EncodeChar c = [c.toUInt8] := by
  rw [String.utf8EncodeChar, if_pos (show c.val.toNat ≤ 127 from Nat.le_of_lt_succ h)]
  rfl

theorem flatMap_utf8EncodeChar_of_ascii {s : List Char} (h : ∀ c ∈ s, c.toNat < 128) :
    s.flatMap String.utf8EncodeChar = s.map Char.toUInt8 := by
  induction s with
  | nil => rfl
  | cons c s ih =>
    rw [List.flatMap_cons, utf8EncodeChar_of_lt (h c List.mem_cons_self),
      ih fun d hd => h d (List.mem_cons_of_mem c hd)]
    rfl

theorem toUInt8_injOn_ascii : Set.InjOn Char.toUInt8 {c | c.toNat < 128} := by
  intro c hc d hd h
  have hval := congrArg UInt8.toNat h
  simp only [Char.toUInt8, UInt32.toNat_toUInt8] at hval
  change c.val.toNat < 128 at hc
  change d.val.toNat < 128 at hd
  rw [← Char.toNat_inj]
  change c.val.toNat = d.val.toNat
  omega

/-- On ASCII text a byte is a character, and `like_default` is the match of the pattern on the
characters. -/
theorem likeDefault_of_ascii (s p : List Char) (hs : ∀ c ∈ s, c.toNat < 128)
    (hp : ∀ c ∈ p, c.toNat < 128) :
    likeDefault s p = wildMatch (tokenize '\\' '%' '_' p) s := by
  rw [likeDefault_eq_wildMatch, flatMap_utf8EncodeChar_of_ascii hs,
    flatMap_utf8EncodeChar_of_ascii hp,
    tokenize_map toUInt8_injOn_ascii (by decide) (by decide) (by decide) p hp,
    wildMatch_map toUInt8_injOn_ascii _ _ (fun a ha => hp a (mem_of_lit_mem_tokenize ha)) hs]

theorem likeDefault_matches_bytes :
    likeDefault ['é'] ['_'] = false ∧ wildMatch (tokenize '\\' '%' '_' ['_']) ['é'] = true ∧
      likeDefault ['é'] ['_', '_'] = true ∧
      wildMatch (tokenize '\\' '%' '_' ['_', '_']) ['é'] = false := by
  decide

end RisingWave.Expr
