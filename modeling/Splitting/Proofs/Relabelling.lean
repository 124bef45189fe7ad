import Mathlib

/-!
# `Splitting.Proofs.Relabelling` — lists in another order

Two lists may have the same entries under different indices. If the same permutation of the indices leads from
one list to the other for several pairs of lists at once, then it does so for all that is computed from them
entry by entry; and what is computed from all entries, in an order that does not matter, is the same.

* `Relabels` — entry `i` of one list is entry `π i` of the other;
* `Relabels.map`, `Relabels.zipWith`, `Relabels.set`, `Relabels.replicate` — entry by entry;
* `Relabels.perm`, `Relabels.length_eq`, `Relabels.mem_iff` — the entries as a whole.
-/

namespace Splitting

/-- Entry `i` of the first list is entry `π i` of the second, and where one ends, so does the other. -/
def Relabels {α : Type} (π : Equiv.Perm ℕ) (l l' : List α) : Prop := ∀ i, l'[π i]? = l[i]?

namespace Relabels

variable {α β γ : Type} {π : Equiv.Perm ℕ} {l l' : List α} {k k' : List β}

theorem symm (h : Relabels π l l') : Relabels π.symm l' l := by
  intro i
  rw [← h, Equiv.apply_symm_apply]

/-! ## Entry by entry -/

theorem map (h : Relabels π l l') (f : α → β) : Relabels π (l.map f) (l'.map f) := by
  intro i
  rw [List.getElem?_map, List.getElem?_map, h]

/-- Lists whose entries can be told apart by what a function makes of them. -/
theorem of_map {f : α → β} (hf : Function.Injective f) (h : Relabels π (l.map f) (l'.map f)) : Relabels π l l' := by
  intro i
  have hi := h i
  rw [List.getElem?_map, List.getElem?_map] at hi
  exact Option.map_injective hf hi

theorem zipWith (hl : Relabels π l l') (hk : Relabels π k k') (f : α → β → γ) :
    Relabels π (List.zipWith f l k) (List.zipWith f l' k') := by
  intro i
  rw [List.getElem?_zipWith, List.getElem?_zipWith, hl, hk]

/-- An entry that is replaced in one list is replaced under its other index in the other. -/
theorem set (h : Relabels π l l') (i : ℕ) (a : α) : Relabels π (l.set i a) (l'.set (π i) a) := by
  intro j
  simp only [List.getElem?_set', h j, π.injective.eq_iff]

/-- A permutation that moves no index from `n` on permutes those below. -/
theorem lt_iff_of_fixes {n : ℕ} (hfixes : ∀ i, n ≤ i → π i = i) {i : ℕ} : π i < n ↔ i < n := by
  constructor
  · intro hi
    by_contra hnot
    rw [hfixes i (Nat.le_of_not_lt hnot)] at hi
    exact hnot hi
  · intro hi
    by_contra hnot
    have hsame : π i = i := π.injective (hfixes (π i) (Nat.le_of_not_lt hnot))
    rw [hsame] at hnot
    exact hnot hi

theorem replicate {n : ℕ} (hfixes : ∀ i, n ≤ i → π i = i) (a : α) :
    Relabels π (List.replicate n a) (List.replicate n a) := by
  intro i
  simp only [List.getElem?_replicate, lt_iff_of_fixes hfixes]

/-! ## The entries as a whole -/

theorem lt_length_iff (h : Relabels π l l') {i : ℕ} : π i < l'.length ↔ i < l.length := by
  rw [← not_le, ← not_le, ← List.getElem?_eq_none_iff, ← List.getElem?_eq_none_iff, h]

/-- The entries of a list are what stands under its indices. -/
theorem filterMap_getElem? (l : List α) : (List.range l.length).filterMap (l[·]?) = l := by
  have hentries : (List.range l.length).map (l[·]?) = l.map some := by
    refine List.ext_getElem (by simp) fun i _ hi => ?_
    simp [List.length_map] at hi
    simp [hi]
  calc (List.range l.length).filterMap (l[·]?)
      = ((List.range l.length).map (l[·]?)).filterMap id := by rw [List.filterMap_map]; rfl
    _ = l := by rw [hentries, List.filterMap_map, Function.id_comp, List.filterMap_some]

/-- **The two lists have the same entries,** each as often. -/
theorem perm (h : Relabels π l l') : l.Perm l' := by
  have hindices : ((List.range l.length).map π).Perm (List.range l'.length) := by
    refine (List.perm_ext_iff_of_nodup (List.nodup_range.map π.injective) List.nodup_range).mpr fun j => ?_
    simp only [List.mem_map, List.mem_range]
    constructor
    · rintro ⟨i, hi, rfl⟩
      exact h.lt_length_iff.mpr hi
    · intro hj
      exact ⟨π.symm j, h.symm.lt_length_iff.mpr hj, π.apply_symm_apply j⟩
  have hentries : ((List.range l.length).map π).filterMap (l'[·]?) = l := by
    rw [List.filterMap_map]
    calc _ = (List.range l.length).filterMap (l[·]?) := congrArg (List.filterMap · _) (funext h)
      _ = l := filterMap_getElem? l
  have hperm := hindices.filterMap (l'[·]?)
  rwa [hentries, filterMap_getElem?] at hperm

theorem length_eq (h : Relabels π l l') : l'.length = l.length := h.perm.length_eq.symm

theorem mem_iff (h : Relabels π l l') {a : α} : a ∈ l' ↔ a ∈ l := h.perm.mem_iff.symm

end Relabels

end Splitting
