import Splitting.Proofs.Subsets.Orders

/-!
# `Splitting.Proofs.Subsets.Strides` — where an index stands in the staggered order

The staggered order is one stride after the other. A stride has the indices that leave its start over, and the
strides need not be of one length: those from a small start may have one index more than those from a large one.

* `Sampler.byRemainder` — indices in the order of the staggered order;
* `Sampler.length_stride`, `Sampler.getElem?_stride` — one stride: its length, and its entries;
* `Sampler.pairwise_stride` — a stride rises;
* `Sampler.pairwise_staggeredOrder`, `Sampler.getElem?_staggeredOrder` — all of them: the order rises, and each index
  is at its place;
* `Sampler.staggered_of_fits`, `Sampler.staggered_of_not_fits` — the offsets there are samplers for;
* `staggered_order_rises_by_remainder` — the main statement.
-/

namespace Splitting

namespace Sampler

variable {n offset : ℕ}

/-! ## One stride -/

theorem length_stride (n offset start : ℕ) : (stride n offset start).length = (n - start) ⌈/⌉ offset := by
  rw [stride, List.length_range', Nat.ceilDiv_eq_add_pred_div]

/-- An index stands in its stride as many places from the beginning as its quotient says. -/
theorem getElem?_stride {i : ℕ} (hoffset : 0 < offset) (hi : i < n) :
    (stride n offset (i % offset))[i / offset]? = some i := by
  have hdivision := Nat.mod_add_div i offset
  have hplace : i / offset < (n - i % offset + offset - 1) / offset := by
    rw [Nat.lt_div_iff_mul_lt hoffset, Nat.mul_comm]
    omega
  rw [stride, List.getElem?_range' hplace, hdivision]

theorem div_lt_length_stride {i : ℕ} (hoffset : 0 < offset) (hi : i < n) :
    i / offset < (stride n offset (i % offset)).length :=
  (List.getElem?_eq_some_iff.mp (getElem?_stride hoffset hi)).1

/-! ## All strides -/

/-- The indices by what they leave over, and those that leave the same over by their quotients. -/
def byRemainder (offset i : ℕ) : ℕ ×ₗ ℕ := toLex (i % offset, i / offset)

/-- **A stride rises,** from quotient to quotient. -/
theorem pairwise_stride {start : ℕ} (hstart : start < offset) :
    (stride n offset start).Pairwise fun i j => byRemainder offset i < byRemainder offset j := by
  have hoffset : 0 < offset := by omega
  refine (List.pairwise_lt_range' offset hoffset).imp_of_mem ?_
  intro i j hi hj hlt
  obtain ⟨-, hleft⟩ := (mem_stride hstart).mp hi
  obtain ⟨-, hright⟩ := (mem_stride hstart).mp hj
  refine Prod.Lex.toLex_lt_toLex.mpr (Or.inr ⟨hleft.trans hright.symm, ?_⟩)
  -- of two numbers that leave the same over, the smaller has the smaller quotient
  by_contra hle
  have hquotient : j / offset ≤ i / offset := Nat.le_of_not_lt hle
  have hscaled := Nat.mul_le_mul_left offset hquotient
  have hi := Nat.mod_add_div i offset
  have hj := Nat.mod_add_div j offset
  omega

/-- **The strides follow each other in the order of their starts.** -/
theorem pairwise_staggeredOrder (n offset : ℕ) :
    (staggeredOrder n offset).toList.Pairwise fun i j => byRemainder offset i < byRemainder offset j := by
  refine List.pairwise_flatMap.mpr ⟨fun start hstart => pairwise_stride (List.mem_range.mp hstart), ?_⟩
  refine List.pairwise_lt_range.imp_of_mem ?_
  intro a b ha hb hab i hi j hj
  obtain ⟨-, hleft⟩ := (mem_stride (List.mem_range.mp ha)).mp hi
  obtain ⟨-, hright⟩ := (mem_stride (List.mem_range.mp hb)).mp hj
  refine Prod.Lex.toLex_lt_toLex.mpr (Or.inl ?_)
  show i % offset < j % offset
  rwa [hleft, hright]

/-- An entry of one of several lists that are strung together stands behind all lists before. -/
theorem getElem?_flatMap_range {α : Type} (f : ℕ → List α) {count r j : ℕ} (hr : r < count)
    (hj : j < (f r).length) :
    ((List.range count).flatMap f)[∑ q ∈ Finset.range r, (f q).length + j]? = (f r)[j]? := by
  have hbefore : ∀ count, ((List.range count).flatMap f).length = ∑ q ∈ Finset.range count, (f q).length := by
    intro count
    induction count with
    | zero => rfl
    | succ count ih =>
      rw [List.range_succ, List.flatMap_append, List.length_append, ih, List.flatMap_singleton,
        Finset.sum_range_succ]
  induction count with
  | zero => omega
  | succ count ih =>
    rw [List.range_succ, List.flatMap_append, List.flatMap_singleton]
    rcases Nat.lt_or_ge r count with hlt | hge
    · -- the entry is there already, and the last list comes behind it
      have hfound := ih hlt
      rw [List.getElem?_eq_getElem hj, List.getElem?_eq_some_iff] at hfound
      rw [List.getElem?_append_left hfound.1, ih hlt]
    · obtain rfl : r = count := by omega
      rw [List.getElem?_append_right (by rw [hbefore]; omega), hbefore, Nat.add_sub_cancel_left]

/-- **The place of an index** in the staggered order. -/
theorem getElem?_staggeredOrder {i : ℕ} (hoffset : 0 < offset) (hi : i < n) :
    (staggeredOrder n offset)[∑ r ∈ Finset.range (i % offset), (n - r) ⌈/⌉ offset + i / offset]? = some i := by
  have hfound := getElem?_flatMap_range (stride n offset) (Nat.mod_lt i hoffset) (div_lt_length_stride hoffset hi)
  simp only [length_stride] at hfound
  rw [staggeredOrder, List.getElem?_toArray, hfound, getElem?_stride hoffset hi]

/-! ## The offsets there are samplers for -/

variable {W : Type}

theorem staggered_of_fits (hoffset : 0 < offset) (hlt : offset < n) :
    (staggered n offset : Except Error (Sampler W)) = .ok
      (fresh .staggered n 0 (.rounds (staggeredOrder n offset) (staggeredOrder n offset) false)) := by
  have hsize : (staggeredOrder n offset).size = n := size_of_perm_range (staggeredOrder_perm hoffset)
  rw [staggered, if_neg (by omega), if_neg (by omega)]
  exact ofOrder_eq_ok_iff.mpr ⟨by omega, by rw [hsize]⟩

theorem staggered_of_not_fits (h : ¬(0 < offset ∧ offset < n)) :
    (staggered n offset : Except Error (Sampler W)) =
      .error (.invalidSampler (if n ≤ offset then .offsetTooLarge else .offsetZero)) := by
  unfold staggered
  by_cases hlarge : n ≤ offset
  · rw [if_pos hlarge, if_pos hlarge]
  · rw [if_neg hlarge, if_neg hlarge, if_pos (by omega)]

end Sampler

variable {W : Type} [Scalar W]

open Sampler in
/-- **The staggered order rises by remainders,** and among equal remainders by quotients. For every positive offset
    less than the number of subsets there is a sampler of the staggered order, and its order shows each index once:
    the index `i` stands behind the strides from all starts below `i mod a`, and in its own at the place `i div a`.
    From any place in a round, as many draws as there are subsets show the order from there on. For every other
    offset there is no sampler. -/
theorem staggered_order_rises_by_remainder (n a : ℕ) :
    (0 < a → a < n → ∃ (s : Sampler W) (order : Array ℕ), staggered n a = .ok s ∧ s.kind = .staggered ∧
      s.numSubsets = n ∧ s.order? = some order ∧ order.toList.Perm (List.range n) ∧
      order.toList.Pairwise (fun i j => toLex (i % a, i / a) < toLex (j % a, j / a)) ∧
      (∀ i < n, order[∑ r ∈ Finset.range (i % a), (n - r) ⌈/⌉ a + i / a]? = some i) ∧
      ∀ k, ((s.after k).draws n).1 = order.toList.rotate k) ∧
    (¬(0 < a ∧ a < n) → (staggered n a : Except Error (Sampler W)) =
      .error (.invalidSampler (if n ≤ a then .offsetTooLarge else .offsetZero))) := by
  refine ⟨fun ha hlt => ?_, staggered_of_not_fits⟩
  have hperm := staggeredOrder_perm (n := n) ha
  have hmade := staggered_of_fits (W := W) ha hlt
  refine ⟨_, staggeredOrder n a, hmade, rfl, rfl, rfl, toList_perm_range hperm, pairwise_staggeredOrder n a,
    fun i hi => getElem?_staggeredOrder ha hi, fun k => ?_⟩
  have hround := draws_after_of_fixed (staggered_eq_ok hmade).2.2 k
  rwa [size_of_perm_range hperm] at hround

open Sampler in
/-- Twenty-one subsets and the offset 4: the index 13 stands behind the six indices from 0, and is the fourth of the
    five from 1. With the offset 21 there is no sampler. -/
theorem staggered_order_of_twenty_one :
    (∃ (s : Sampler Float) (order : Array ℕ), staggered 21 4 = .ok s ∧ s.order? = some order ∧
      order.toList.Perm (List.range 21) ∧ order[9]? = some 13 ∧ ((s.after 2).draws 21).1 = order.toList.rotate 2) ∧
    (staggered 21 21 : Except Error (Sampler Float)) = .error (.invalidSampler .offsetTooLarge) := by
  obtain ⟨s, order, hs, -, -, horder, hperm, -, hplaces, hdraws⟩ :=
    (staggered_order_rises_by_remainder (W := Float) 21 4).1 (by decide) (by decide)
  refine ⟨⟨s, order, hs, horder, hperm, ?_, hdraws 2⟩, ?_⟩
  · exact hplaces 13 (by decide)
  · exact (staggered_order_rises_by_remainder (W := Float) 21 21).2 (by decide)

end Splitting
