import Mathlib

/-!
# Ordered maps as sorted association lists

A `BTreeMap` is iterated in ascending key order. `SortedMap` is its list of
entries, keys strictly ascending, with that invariant as a field, and
`SortedMap.alter k f` is `map.entry(k).or_default()` followed by an update `f`
of the value.

The fact used about a sequence of `alter`s: a view `F` of every entry, joined
over the map, is up to order the views of the single updates, when each update
adds one element to the view of its entry.
-/

variable {κ ν β : Type*} [LinearOrder κ] [Inhabited ν]

/-- The entries of an ordered map, keys strictly ascending. -/
structure SortedMap (κ ν : Type*) [LinearOrder κ] where
  entries : List (κ × ν)
  sorted : entries.Pairwise fun a b => a.1 < b.1

namespace SortedMap

/-- Update the value of `k`, starting from `default` when `k` has no entry. -/
def alterList (k : κ) (f : ν → ν) : List (κ × ν) → List (κ × ν)
  | [] => [(k, f default)]
  | (k', v) :: rest =>
    if k < k' then (k, f default) :: (k', v) :: rest
    else if k = k' then (k', f v) :: rest
    else (k', v) :: alterList k f rest

attribute [local simp] alterList in
theorem key_mem_alterList {k : κ} {f : ν → ν} {l : List (κ × ν)} {e : κ × ν}
    (he : e ∈ alterList k f l) : e.1 = k ∨ ∃ e' ∈ l, e.1 = e'.1 := by
  induction l with
  | nil => simp_all [alterList]
  | cons hd rest ih =>
    obtain ⟨k', v⟩ := hd
    simp only [alterList] at he
    split_ifs at he with hlt heq
    · rcases List.mem_cons.mp he with rfl | he
      · exact .inl rfl
      · exact .inr ⟨e, he, rfl⟩
    · rcases List.mem_cons.mp he with rfl | he
      · exact .inr ⟨(k', v), List.mem_cons_self, rfl⟩
      · exact .inr ⟨e, List.mem_cons_of_mem _ he, rfl⟩
    · rcases List.mem_cons.mp he with rfl | he
      · exact .inr ⟨_, List.mem_cons_self, rfl⟩
      · rcases ih he with h | ⟨e', he', h⟩
        · exact .inl h
        · exact .inr ⟨e', List.mem_cons_of_mem _ he', h⟩

theorem alterList_sorted (k : κ) (f : ν → ν) {l : List (κ × ν)}
    (hl : l.Pairwise fun a b => a.1 < b.1) :
    (alterList k f l).Pairwise fun a b => a.1 < b.1 := by
  induction l with
  | nil => simp [alterList]
  | cons hd rest ih =>
    obtain ⟨k', v⟩ := hd
    rw [List.pairwise_cons] at hl
    simp only [alterList]
    split_ifs with hlt heq
    · refine List.Pairwise.cons (fun e he => ?_) (List.Pairwise.cons hl.1 hl.2)
      rcases List.mem_cons.mp he with rfl | he
      · exact hlt
      · exact hlt.trans (hl.1 e he)
    · exact List.Pairwise.cons (fun e he => heq ▸ hl.1 e he) hl.2
    · -- `k' < k`: the new entry goes after `k'`, like every other entry of `rest`.
      have hgt : k' < k := lt_of_le_of_ne (not_lt.mp hlt) (Ne.symm heq)
      refine List.Pairwise.cons (fun e he => ?_) (ih hl.2)
      rcases key_mem_alterList he with h | ⟨e', he', h⟩
      · exact h ▸ hgt
      · exact h ▸ hl.1 e' he'

/-- The empty map. -/
def empty : SortedMap κ ν := ⟨[], .nil⟩

/-- `map.entry(k).or_default()`, then `f` on the value. -/
def alter (m : SortedMap κ ν) (k : κ) (f : ν → ν) : SortedMap κ ν :=
  ⟨alterList k f m.entries, alterList_sorted k f m.sorted⟩

section View

variable (F : κ → ν → List β)

/-- The views of all entries, in key order. -/
def flatView (m : SortedMap κ ν) : List β := m.entries.flatMap fun e => F e.1 e.2

theorem flatMap_alterList_perm {k : κ} {f : ν → ν} {x : β} (hdef : F k default = [])
    (hf : ∀ v, (F k (f v)).Perm (x :: F k v)) (l : List (κ × ν)) :
    ((alterList k f l).flatMap fun e => F e.1 e.2).Perm (x :: l.flatMap fun e => F e.1 e.2) := by
  induction l with
  | nil => simpa [alterList, hdef] using hf default
  | cons hd rest ih =>
    obtain ⟨k', v⟩ := hd
    simp only [alterList]
    split_ifs with hlt heq
    · have h := (hf default).append_right ((k', v) :: rest |>.flatMap fun e => F e.1 e.2)
      simpa [hdef] using h
    · subst heq
      simpa using (hf v).append_right (rest.flatMap fun e => F e.1 e.2)
    · -- The update lands in `rest`; its element moves to the front past `F k' v`.
      simp only [List.flatMap_cons]
      exact ((ih.append_left (F k' v)).trans List.perm_middle)

/-- An update that adds `x` to the view of its entry adds `x` to the joined view. -/
theorem flatView_alter_perm (m : SortedMap κ ν) {k : κ} {f : ν → ν} {x : β}
    (hdef : F k default = []) (hf : ∀ v, (F k (f v)).Perm (x :: F k v)) :
    (flatView F (m.alter k f)).Perm (x :: flatView F m) :=
  flatMap_alterList_perm F hdef hf m.entries

end View

end SortedMap
