import Mathlib.Data.Finset.Basic
import Mathlib.Data.Finset.Lattice.Lemmas
import Mathlib.Data.List.Pairwise
import Mathlib.Data.Prod.Lex

/-!
# Sweeping labelled half-open intervals

A set of labelled intervals `[lo, hi)` is turned into events: the label joins
the active set at `lo` and leaves it at `hi`. Applying the events in key order,
exits before entries at one key, to a *set* of labels gives, after all events at
keys `≤ x`, exactly the labels of the intervals containing `x`, provided every
interval is non-empty and intervals with one label never share a key.

A set keeps one copy of a label, so the second hypothesis cannot be dropped: two
overlapping intervals with one label would leave the set when the first of them
ends. The proof is an invariant over every prefix of the sorted events: the set
holds the labels of the intervals whose entry has been applied and whose exit
has not (`foldl_apply_eq_openLabels`).
-/

namespace Sweep

variable {κ ε : Type*} [LinearOrder κ] [DecidableEq ε]

/-- A half-open interval `[lo, hi)` of keys carrying a label. -/
structure Interval (κ ε : Type*) where
  lo : κ
  hi : κ
  label : ε

/-- `x` lies in `[lo, hi)`. -/
def Interval.Contains (t : Interval κ ε) (x : κ) : Prop := t.lo ≤ x ∧ x < t.hi

/-- At `key`, the label joins the active set (`enter`) or leaves it. -/
structure Event (κ ε : Type*) where
  key : κ
  enter : Bool
  label : ε
  deriving DecidableEq

/-- The processing order: keys ascending, at one key exits (`false`) first. -/
def Event.pos (e : Event κ ε) : κ ×ₗ Bool := toLex (e.key, e.enter)

/-- Apply one event to the set of active labels. -/
def Event.apply (s : Finset ε) (e : Event κ ε) : Finset ε :=
  if e.enter then insert e.label s else s.erase e.label

/-- The event where the label of `t` joins the active set. -/
def Interval.enterEvent (t : Interval κ ε) : Event κ ε := ⟨t.lo, true, t.label⟩

/-- The event where the label of `t` leaves the active set. -/
def Interval.exitEvent (t : Interval κ ε) : Event κ ε := ⟨t.hi, false, t.label⟩

/-- Both events of every interval. -/
def events (ts : List (Interval κ ε)) : List (Event κ ε) :=
  ts.flatMap fun t => [t.enterEvent, t.exitEvent]

/-- Intervals with one label share no key. -/
def LabelsSeparate (ts : List (Interval κ ε)) : Prop :=
  ts.Pairwise fun t u => t.label = u.label → ∀ x, t.Contains x → ¬ u.Contains x

/-- The labels of the intervals containing `x`. -/
def activeLabels (ts : List (Interval κ ε)) (x : κ) : Finset ε :=
  ((ts.filter fun t => t.lo ≤ x ∧ x < t.hi).map (·.label)).toFinset

/-- The labels of the intervals whose entry is in `p` and whose exit is not. -/
def openLabels (ts : List (Interval κ ε)) (p : List (Event κ ε)) : Finset ε :=
  ((ts.filter fun t => t.enterEvent ∈ p ∧ t.exitEvent ∉ p).map (·.label)).toFinset

attribute [local simp] Interval.enterEvent Interval.exitEvent in
omit [LinearOrder κ] [DecidableEq ε] in
@[simp] theorem Interval.enterEvent_ne_exitEvent (t u : Interval κ ε) :
    t.enterEvent ≠ u.exitEvent := by
  simp [Interval.enterEvent, Interval.exitEvent]

omit [DecidableEq ε] in
theorem Interval.enterEvent_pos_lt (t : Interval κ ε) (h : t.lo < t.hi) :
    t.enterEvent.pos < t.exitEvent.pos :=
  Prod.Lex.toLex_lt_toLex.mpr (.inl h)

omit [DecidableEq ε] in
theorem Event.key_le_of_pos_le {a b : Event κ ε} (h : a.pos ≤ b.pos) : a.key ≤ b.key :=
  (Prod.Lex.toLex_le_toLex.mp h).elim le_of_lt fun h => h.1.le

omit [LinearOrder κ] [DecidableEq ε] in
theorem mem_events {ts : List (Interval κ ε)} {e : Event κ ε} :
    e ∈ events ts ↔ ∃ t ∈ ts, e = t.enterEvent ∨ e = t.exitEvent := by
  simp [events]

omit [DecidableEq ε] in
theorem LabelsSeparate.of_ne {ts : List (Interval κ ε)} (hsep : LabelsSeparate ts)
    {t u : Interval κ ε} (ht : t ∈ ts) (hu : u ∈ ts) (hne : t ≠ u) (hl : t.label = u.label)
    {x : κ} (htx : t.Contains x) (hux : u.Contains x) : False := by
  let _ : Std.Symm fun t u : Interval κ ε =>
      t.label = u.label → ∀ x, t.Contains x → ¬ u.Contains x :=
    ⟨fun t u h hl x hu ht => h hl.symm x ht hu⟩
  exact List.Pairwise.forall hsep ht hu hne hl x htx hux

attribute [local simp] activeLabels in
theorem mem_activeLabels {ts : List (Interval κ ε)} {x : κ} {l : ε} :
    l ∈ activeLabels ts x ↔ ∃ t ∈ ts, t.Contains x ∧ t.label = l := by
  simp [activeLabels, Interval.Contains, and_assoc]

@[simp] theorem activeLabels_nil (x : κ) : activeLabels ([] : List (Interval κ ε)) x = ∅ := rfl

theorem activeLabels_append (ts us : List (Interval κ ε)) (x : κ) :
    activeLabels (ts ++ us) x = activeLabels ts x ∪ activeLabels us x := by
  simp [activeLabels, List.filter_append, List.toFinset_append]

theorem activeLabels_eq_empty {ts : List (Interval κ ε)} {x : κ}
    (h : ∀ t ∈ ts, ¬ t.Contains x) : activeLabels ts x = ∅ := by
  ext l
  simp only [mem_activeLabels, Finset.notMem_empty, iff_false, not_exists, not_and]
  exact fun t ht hx => absurd hx (h t ht)

section Sorted

variable {ts : List (Interval κ ε)} {evs : List (Event κ ε)}

attribute [local simp] openLabels in
/-- One step of the sweep: entering adds the label. -/
theorem openLabels_append_enter {p rest : List (Event κ ε)} {t : Interval κ ε}
    (ht : t ∈ ts) (hlt : t.lo < t.hi)
    (hsorted : evs.Pairwise fun a b => a.pos ≤ b.pos)
    (hevs : evs = p ++ t.enterEvent :: rest) :
    openLabels ts (p ++ [t.enterEvent]) = insert t.label (openLabels ts p) := by
  have hexit : t.exitEvent ∉ p := by
    intro hp
    rw [hevs, List.pairwise_append] at hsorted
    have hle := hsorted.2.2 _ hp _ List.mem_cons_self
    exact absurd (t.enterEvent_pos_lt hlt) (not_lt_of_ge hle)
  ext l
  simp only [openLabels, List.mem_toFinset, List.mem_map, List.mem_filter, List.mem_append,
    List.mem_singleton, decide_eq_true_eq, Finset.mem_insert]
  constructor
  · rintro ⟨u, ⟨hu, hin, hout⟩, rfl⟩
    by_cases he : u.enterEvent = t.enterEvent
    · left
      simpa [Interval.enterEvent] using congrArg Event.label he
    · right
      exact ⟨u, ⟨hu, hin.resolve_right he, fun h => hout (.inl h)⟩, rfl⟩
  · rintro (rfl | ⟨u, ⟨hu, hin, hout⟩, rfl⟩)
    · refine ⟨t, ⟨ht, .inr rfl, ?_⟩, rfl⟩
      rintro (h | h)
      · exact hexit h
      · exact (t.enterEvent_ne_exitEvent t h.symm).elim
    · refine ⟨u, ⟨hu, .inl hin, ?_⟩, rfl⟩
      rintro (h | h)
      · exact hout h
      · exact (t.enterEvent_ne_exitEvent u h.symm).elim

/-- One step of the sweep: exiting removes the label, which no other open
interval carries. -/
theorem openLabels_append_exit {p rest : List (Event κ ε)} {t : Interval κ ε}
    (ht : t ∈ ts) (hne : ∀ t ∈ ts, t.lo < t.hi) (hsep : LabelsSeparate ts)
    (hperm : evs.Perm (events ts)) (hsorted : evs.Pairwise fun a b => a.pos ≤ b.pos)
    (hevs : evs = p ++ t.exitEvent :: rest) :
    openLabels ts (p ++ [t.exitEvent]) = (openLabels ts p).erase t.label := by
  rw [hevs, List.pairwise_append, List.pairwise_cons] at hsorted
  obtain ⟨-, ⟨hafter, -⟩, hbefore⟩ := hsorted
  -- An interval open across the exit of `t` overlaps `t`, so it has another label.
  have hlabel : ∀ u ∈ ts, u.enterEvent ∈ p → u.exitEvent ∉ p → u.exitEvent ≠ t.exitEvent →
      u.label ≠ t.label := by
    intro u hu hin hout hexit hl
    have hrest : u.exitEvent ∈ rest := by
      have hmem : u.exitEvent ∈ evs := hperm.mem_iff.mpr (mem_events.mpr ⟨u, hu, .inr rfl⟩)
      rw [hevs] at hmem
      simp only [List.mem_append, List.mem_cons] at hmem
      exact (hmem.resolve_left hout).resolve_left hexit
    have h1 : u.lo < t.hi := by
      have := hbefore _ hin _ List.mem_cons_self
      simpa [Event.pos, Interval.enterEvent, Interval.exitEvent, Prod.Lex.toLex_le_toLex,
        Bool.le_iff_imp] using this
    have h2 : t.hi ≤ u.hi := by
      have := hafter _ hrest
      simp only [Event.pos, Interval.exitEvent, Prod.Lex.toLex_le_toLex, le_refl, and_true] at this
      exact this.elim le_of_lt le_of_eq
    have hut : u ≠ t := fun h => hexit (h ▸ rfl)
    refine hsep.of_ne hu ht hut hl (x := max u.lo t.lo) ⟨le_max_left _ _, ?_⟩ ⟨le_max_right _ _, ?_⟩
    · exact lt_of_lt_of_le (max_lt h1 (hne t ht)) h2
    · exact max_lt h1 (hne t ht)
  ext l
  simp only [openLabels, List.mem_toFinset, List.mem_map, List.mem_filter, List.mem_append,
    List.mem_singleton, decide_eq_true_eq, Finset.mem_erase]
  constructor
  · rintro ⟨u, ⟨hu, hin, hout⟩, rfl⟩
    have hin' : u.enterEvent ∈ p := hin.resolve_right (u.enterEvent_ne_exitEvent t)
    have hout' : u.exitEvent ∉ p := fun h => hout (.inl h)
    have hexit : u.exitEvent ≠ t.exitEvent := fun h => hout (.inr h)
    exact ⟨hlabel u hu hin' hout' hexit, u, ⟨hu, hin', hout'⟩, rfl⟩
  · rintro ⟨hl, u, ⟨hu, hin, hout⟩, rfl⟩
    refine ⟨u, ⟨hu, .inl hin, ?_⟩, rfl⟩
    rintro (h | h)
    · exact hout h
    · exact hl (by simpa [Interval.exitEvent] using congrArg Event.label h)

/-- The sweep invariant: after any prefix of the sorted events the set holds the
labels of the intervals entered and not yet exited. -/
theorem foldl_apply_eq_openLabels (hne : ∀ t ∈ ts, t.lo < t.hi) (hsep : LabelsSeparate ts)
    (hperm : evs.Perm (events ts)) (hsorted : evs.Pairwise fun a b => a.pos ≤ b.pos)
    (p rest : List (Event κ ε)) (hevs : evs = p ++ rest) :
    p.foldl Event.apply ∅ = openLabels ts p := by
  induction p using List.reverseRecOn generalizing rest with
  | nil => simp [openLabels]
  | append_singleton p e ih =>
    rw [List.append_assoc, List.singleton_append] at hevs
    rw [List.foldl_append, List.foldl_cons, List.foldl_nil, ih (e :: rest) hevs]
    have he : e ∈ events ts := hperm.mem_iff.mp (by rw [hevs]; simp)
    obtain ⟨t, ht, rfl | rfl⟩ := mem_events.mp he
    · rw [openLabels_append_enter ht (hne t ht) hsorted hevs]
      simp [Event.apply, Interval.enterEvent]
    · rw [openLabels_append_exit ht hne hsep hperm hsorted hevs]
      simp [Event.apply, Interval.exitEvent]

/-- On a list sorted by a key, the elements up to `q` form a prefix. -/
theorem takeWhile_eq_filter_of_pairwise {α β : Type*} [LinearOrder β] (f : α → β) (q : β)
    {l : List α} (hl : l.Pairwise fun a b => f a ≤ f b) :
    l.takeWhile (fun a => f a ≤ q) = l.filter (fun a => f a ≤ q) := by
  induction l with
  | nil => rfl
  | cons a l ih =>
    rw [List.pairwise_cons] at hl
    by_cases ha : f a ≤ q
    · simp [ha, ih hl.2]
    · have hrest : l.filter (fun a => f a ≤ q) = [] := by
        rw [List.filter_eq_nil_iff]
        intro b hb
        have := hl.1 b hb
        simp only [decide_eq_true_eq, not_le]
        exact lt_of_lt_of_le (lt_of_not_ge ha) this
      simp [ha, hrest]

/-- The sweep result: after the events at keys up to `x`, the active set is the
set of labels of the intervals containing `x`. -/
theorem foldl_apply_takeWhile (hne : ∀ t ∈ ts, t.lo < t.hi) (hsep : LabelsSeparate ts)
    (hperm : evs.Perm (events ts)) (hsorted : evs.Pairwise fun a b => a.pos ≤ b.pos) (x : κ) :
    (evs.takeWhile fun e => e.key ≤ x).foldl Event.apply ∅ = activeLabels ts x := by
  have hkey : evs.Pairwise fun a b => a.key ≤ b.key := hsorted.imp Event.key_le_of_pos_le
  rw [foldl_apply_eq_openLabels hne hsep hperm hsorted _ _ (List.takeWhile_append_dropWhile).symm,
    takeWhile_eq_filter_of_pairwise Event.key x hkey]
  have hmem (e : Event κ ε) (he : e ∈ events ts) : e ∈ evs.filter (fun e => e.key ≤ x) ↔ e.key ≤ x := by
    simp [List.mem_filter, hperm.mem_iff, he]
  simp only [openLabels, activeLabels]
  congr 2
  refine List.filter_congr fun t ht => ?_
  simp only [hmem _ (mem_events.mpr ⟨t, ht, .inl rfl⟩), hmem _ (mem_events.mpr ⟨t, ht, .inr rfl⟩)]
  simp [Interval.enterEvent, Interval.exitEvent]

end Sorted

end Sweep
