import Mathlib

/-!
# Iterators by the items they have left

An iterator is a state and a `next` that gives an item, or none at the end, with the state
after it. `collect next fuel s` runs it for at most `fuel` items. An iterator is described by
`rem`, the items a state has still to give: `Simulates next rem P` says that from a state of
`P`, `next` gives the head of `rem` and a state of `P` holding its tail, or nothing when `rem` is
empty. A run then collects a prefix of `rem` (`Simulates.collect_eq_take`), all of it with
enough fuel, and two iterators with the same `rem` collect the same items.
-/

namespace Iter

variable {σ α : Type*}

/-- The first `fuel` items of the iterator from `s`, fewer if it ends before. -/
def collect (next : σ → Option α × σ) : ℕ → σ → List α
  | 0, _ => []
  | fuel + 1, s =>
    match next s with
    | (some a, s') => a :: collect next fuel s'
    | (none, _) => []

/-- From a state of `P`, `next` gives the items of `rem` one after the other. -/
structure Simulates (next : σ → Option α × σ) (rem : σ → List α) (P : σ → Prop) : Prop where
  nil : ∀ s, P s → rem s = [] → (next s).1 = none
  cons : ∀ s a l, P s → rem s = a :: l →
    (next s).1 = some a ∧ rem (next s).2 = l ∧ P (next s).2

variable {next : σ → Option α × σ} {rem : σ → List α} {P : σ → Prop}

theorem collect_of_next_none {s : σ} (h : (next s).1 = none) (fuel : ℕ) :
    collect next fuel s = [] := by
  cases fuel with
  | zero => rfl
  | succ fuel =>
    rw [collect]
    rcases hn : next s with ⟨o, s'⟩
    rw [hn] at h
    subst h
    rfl

theorem collect_of_next_some {s s' : σ} {a : α} (h : next s = (some a, s')) (fuel : ℕ) :
    collect next (fuel + 1) s = a :: collect next fuel s' := by
  rw [collect, h]

/-- The iterator run for `fuel` items gives the first `fuel` of its items. -/
theorem Simulates.collect_eq_take (h : Simulates next rem P) (fuel : ℕ) :
    ∀ s, P s → collect next fuel s = (rem s).take fuel := by
  induction fuel with
  | zero => exact fun _ _ => rfl
  | succ fuel ih =>
    intro s hs
    cases hr : rem s with
    | nil => exact collect_of_next_none (h.nil s hs hr) _
    | cons a l =>
      -- one item, then the tail from the next state
      obtain ⟨hnext, hrem, hP⟩ := h.cons s a l hs hr
      rw [collect_of_next_some (Prod.ext hnext rfl), ih _ hP, hrem, List.take_succ_cons]

/-- With as much fuel as items left, the iterator gives exactly its items. -/
theorem Simulates.collect_eq (h : Simulates next rem P) (fuel : ℕ) (s : σ) (hs : P s)
    (hlen : (rem s).length ≤ fuel) : collect next fuel s = rem s := by
  rw [h.collect_eq_take fuel s hs, List.take_of_length_le hlen]

/-- Two iterators with the same items left collect the same items. -/
theorem Simulates.collect_congr {next' : σ → Option α × σ} {P' : σ → Prop}
    (h : Simulates next rem P) (h' : Simulates next' rem P') (fuel : ℕ) {s : σ} (hs : P s)
    (hs' : P' s) : collect next fuel s = collect next' fuel s := by
  rw [h.collect_eq_take fuel s hs, h'.collect_eq_take fuel s hs']

end Iter
