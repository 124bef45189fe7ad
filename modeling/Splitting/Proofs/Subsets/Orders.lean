import Splitting.Proofs.Subsets.Rounds
import Splitting.Proofs.Subsets.TrialDivision

/-!
# `Splitting.Proofs.Subsets.Orders` — the computed orders are permutations

The Herman-Meyer order writes a position in mixed radix, with the prime factors of the number of subsets for
radices, and reads the digits back with their weights turned round. The staggered order strings together the
strides of one offset. Both show every index below the number of subsets exactly once.

* `mixedRadix`, `mixedRadixReversed` — a number from its digits, in the two weights;
* `digitReversed_mixedRadix`, `digitReversed_lt`, `digitReversed_injective` — what a digit reversal does;
* `staggeredOrder_perm` — the staggered order;
* `herman_meyer_reverses_digits` — the main statement.
-/

namespace Splitting

/-! ## Digits -/

/-- The number with the digits `d` in the radices `ps`, the first digit varying fastest. -/
def mixedRadix (ps : List ℕ) (d : ℕ → ℕ) : ℕ := ∑ k ∈ Finset.range ps.length, d k * (ps.take k).prod

/-- The number with the same digits and the opposite weights, the first digit varying slowest. -/
def mixedRadixReversed (ps : List ℕ) (d : ℕ → ℕ) : ℕ :=
  ∑ k ∈ Finset.range ps.length, d k * (ps.drop (k + 1)).prod

/-- The digits fit the radices. -/
def FitDigits (ps : List ℕ) (d : ℕ → ℕ) : Prop := ∀ k (hk : k < ps.length), d k < ps[k]

instance (ps : List ℕ) (d : ℕ → ℕ) : Decidable (FitDigits ps d) :=
  inferInstanceAs (Decidable (∀ k (hk : k < ps.length), d k < ps[k]))

theorem FitDigits.tail {p : ℕ} {ps : List ℕ} {d : ℕ → ℕ} (h : FitDigits (p :: ps) d) :
    FitDigits ps fun k => d (k + 1) :=
  fun k hk => h (k + 1) (Nat.succ_lt_succ hk)

theorem mixedRadix_cons (p : ℕ) (ps : List ℕ) (d : ℕ → ℕ) :
    mixedRadix (p :: ps) d = d 0 + p * mixedRadix ps fun k => d (k + 1) := by
  rw [mixedRadix, mixedRadix, List.length_cons, Finset.sum_range_succ', Finset.mul_sum, Nat.add_comm]
  congr 1
  · simp
  · refine Finset.sum_congr rfl fun k _ => ?_
    rw [List.take_succ_cons, List.prod_cons]
    ring

theorem mixedRadixReversed_cons (p : ℕ) (ps : List ℕ) (d : ℕ → ℕ) :
    mixedRadixReversed (p :: ps) d = d 0 * ps.prod + mixedRadixReversed ps fun k => d (k + 1) := by
  rw [mixedRadixReversed, mixedRadixReversed, List.length_cons, Finset.sum_range_succ', Nat.add_comm]
  rfl

theorem mixedRadix_lt {ps : List ℕ} {d : ℕ → ℕ} (h : FitDigits ps d) : mixedRadix ps d < ps.prod := by
  induction ps generalizing d with
  | nil => simp [mixedRadix]
  | cons p ps ih =>
    have hfirst : d 0 < p := h 0 (by simp)
    have hrest := Nat.mul_le_mul_left p (Nat.succ_le_of_lt (ih h.tail))
    rw [mixedRadix_cons, List.prod_cons]
    rw [Nat.mul_succ] at hrest
    omega

/-- **A digit reversal turns the weights round** and keeps the digits. -/
theorem digitReversed_mixedRadix {ps : List ℕ} {d : ℕ → ℕ} (h : FitDigits ps d) :
    digitReversed ps (mixedRadix ps d) = mixedRadixReversed ps d := by
  induction ps generalizing d with
  | nil => rfl
  | cons p ps ih =>
    have hfirst : d 0 < p := h 0 (by simp)
    rw [digitReversed, mixedRadix_cons, mixedRadixReversed_cons, Nat.add_mul_mod_self_left,
      Nat.mod_eq_of_lt hfirst, Nat.add_mul_div_left _ _ (by omega), Nat.div_eq_of_lt hfirst, Nat.zero_add,
      ih h.tail]

theorem digitReversed_lt {ps : List ℕ} (h : ∀ p ∈ ps, 0 < p) (position : ℕ) :
    digitReversed ps position < ps.prod := by
  induction ps generalizing position with
  | nil => simp [digitReversed]
  | cons p ps ih =>
    have hdigit : position % p < p := Nat.mod_lt _ (h p List.mem_cons_self)
    have hrest := ih (fun q hq => h q (List.mem_cons_of_mem p hq)) (position / p)
    have hscaled := Nat.mul_le_mul_right ps.prod (Nat.succ_le_of_lt hdigit)
    rw [digitReversed, List.prod_cons]
    rw [Nat.succ_mul] at hscaled
    omega

/-- **No two positions have the same digits in reverse.** -/
theorem digitReversed_injective {ps : List ℕ} (h : ∀ p ∈ ps, 0 < p) {a b : ℕ} (ha : a < ps.prod)
    (hb : b < ps.prod) (hab : digitReversed ps a = digitReversed ps b) : a = b := by
  induction ps generalizing a b with
  | nil =>
    rw [List.prod_nil] at ha hb
    omega
  | cons p ps ih =>
    have hp : 0 < p := h p List.mem_cons_self
    have hpos : ∀ q ∈ ps, 0 < q := fun q hq => h q (List.mem_cons_of_mem p hq)
    rw [List.prod_cons] at ha hb
    rw [digitReversed, digitReversed] at hab
    -- the first digit is the quotient by the weight of the others, which are the remainder
    have hla := digitReversed_lt hpos (a / p)
    have hlb := digitReversed_lt hpos (b / p)
    have hweight : 0 < ps.prod := by omega
    have hdigit : a % p = b % p := by
      have := congrArg (· / ps.prod) hab
      simpa only [Nat.mul_comm _ ps.prod, Nat.mul_add_div hweight, Nat.div_eq_of_lt hla,
        Nat.div_eq_of_lt hlb, Nat.add_zero] using this
    have hrest : a / p = b / p := by
      refine ih hpos (Nat.div_lt_of_lt_mul ha) (Nat.div_lt_of_lt_mul hb) ?_
      rw [hdigit] at hab
      omega
    rw [← Nat.div_add_mod a p, ← Nat.div_add_mod b p, hdigit, hrest]

/-! ## Permutations -/

/-- A list of `n` different indices below `n` has each of them. -/
theorem perm_range_of_nodup {l : List ℕ} {n : ℕ} (hnodup : l.Nodup) (hlt : ∀ i ∈ l, i < n)
    (hlength : n ≤ l.length) : l.Perm (List.range n) := by
  have hsub : l ⊆ List.range n := fun i hi => List.mem_range.mpr (hlt i hi)
  exact (hnodup.subperm hsub).perm_of_length_le (by rwa [List.length_range])

theorem digitReversed_perm {ps : List ℕ} (h : ∀ p ∈ ps, 0 < p) :
    ((List.range ps.prod).map (digitReversed ps)).Perm (List.range ps.prod) := by
  refine perm_range_of_nodup ?_ ?_ (by simp)
  · refine List.Nodup.map_on ?_ List.nodup_range
    intro a ha b hb hab
    exact digitReversed_injective h (List.mem_range.mp ha) (List.mem_range.mp hb) hab
  · intro i hi
    obtain ⟨position, -, rfl⟩ := List.mem_map.mp hi
    exact digitReversed_lt h position

/-- What there is to a Herman-Meyer order: the number of subsets is composite, and the order is the digit
    reversal in its prime factors. -/
theorem hermanMeyerOrder_eq_ok_iff {n : ℕ} {order : Array ℕ} : hermanMeyerOrder n = .ok order ↔
    (1 < n ∧ ¬n.Prime) ∧ order = (Array.range n).map (digitReversed n.primeFactorsList) := by
  rw [hermanMeyerOrder_eq]
  by_cases hcomposite : 1 < n ∧ ¬n.Prime
  · rw [if_pos hcomposite, Except.ok.injEq, and_iff_right hcomposite]
    exact eq_comm
  · rw [if_neg hcomposite]
    simp only [reduceCtorEq, false_iff, not_and]
    exact fun h => absurd h hcomposite

/-- **The Herman-Meyer order is a permutation.** -/
theorem hermanMeyerOrder_perm {n : ℕ} {order : Array ℕ} (h : hermanMeyerOrder n = .ok order) :
    order.Perm (Array.range n) := by
  obtain ⟨⟨hn, -⟩, rfl⟩ := hermanMeyerOrder_eq_ok_iff.mp h
  have hperm := digitReversed_perm fun _ hp => Nat.pos_of_mem_primeFactorsList (n := n) hp
  rw [Nat.prod_primeFactorsList (by omega)] at hperm
  rw [Array.perm_iff_toList_perm]
  simpa using hperm

/-- A stride has the indices that leave its start over when they are divided by the offset. -/
theorem mem_stride {n offset start i : ℕ} (hstart : start < offset) :
    i ∈ Sampler.stride n offset start ↔ i < n ∧ i % offset = start := by
  rw [Sampler.stride, List.mem_range']
  constructor
  · rintro ⟨k, hk, rfl⟩
    rw [Nat.lt_div_iff_mul_lt (by omega)] at hk
    refine ⟨?_, by rw [Nat.add_mul_mod_self_left, Nat.mod_eq_of_lt hstart]⟩
    rw [Nat.mul_comm] at hk
    omega
  · rintro ⟨hi, rfl⟩
    have hdivision := Nat.mod_add_div i offset
    refine ⟨i / offset, ?_, hdivision.symm⟩
    rw [Nat.lt_div_iff_mul_lt (by omega), Nat.mul_comm]
    omega

/-- **The staggered order is a permutation,** for any positive offset. -/
theorem staggeredOrder_perm {n offset : ℕ} (h : 0 < offset) :
    (Sampler.staggeredOrder n offset).Perm (Array.range n) := by
  rw [Array.perm_iff_toList_perm, Array.toList_range, Sampler.staggeredOrder]
  dsimp only
  refine (List.perm_ext_iff_of_nodup ?_ List.nodup_range).mpr fun i => ?_
  · -- no index is in two strides, as it leaves one number over only
    refine List.nodup_flatMap.mpr ⟨fun start _ => List.nodup_range' offset h, ?_⟩
    refine List.nodup_range.imp_of_mem ?_
    intro a b ha hb hab i hia hib
    rw [mem_stride (List.mem_range.mp ha)] at hia
    rw [mem_stride (List.mem_range.mp hb)] at hib
    exact hab (hia.2.symm.trans hib.2)
  · rw [List.mem_flatMap, List.mem_range]
    constructor
    · rintro ⟨start, hstart, hi⟩
      exact ((mem_stride (List.mem_range.mp hstart)).mp hi).1
    · intro hi
      have hstart : i % offset < offset := Nat.mod_lt _ h
      exact ⟨i % offset, List.mem_range.mpr hstart, (mem_stride hstart).mpr ⟨hi, rfl⟩⟩

/-! ## The sampler of the Herman-Meyer order -/

variable {W : Type} [Scalar W]

/-- **The Herman-Meyer order reverses digits.** For every composite number of subsets, with its prime factors
    `p₁ ≤ … ≤ pₘ` for radices, the order is a permutation of the indices; at the position with the digits
    `dₖ < pₖ`, the first varying fastest, it has the index with the same digits, the first varying slowest;
    and from any place in a round, as many draws as there are subsets show every index once. -/
theorem herman_meyer_reverses_digits {n : ℕ} (hn : 1 < n) (hcomposite : ¬n.Prime) :
    ∃ order : Array ℕ, hermanMeyerOrder n = .ok order ∧ order.size = n ∧
      order.toList.Perm (List.range n) ∧
      (∀ d, FitDigits n.primeFactorsList d →
        order[mixedRadix n.primeFactorsList d]? = some (mixedRadixReversed n.primeFactorsList d)) ∧
      ∃ s : Sampler W, Sampler.hermanMeyer n = .ok s ∧
        ∀ k, ((s.after k).draws n).1.Perm (List.range n) := by
  obtain ⟨order, horder⟩ : ∃ order, hermanMeyerOrder n = .ok order :=
    ⟨_, hermanMeyerOrder_eq_ok_iff.mpr ⟨⟨hn, hcomposite⟩, rfl⟩⟩
  have hperm : order.Perm (Array.range n) := hermanMeyerOrder_perm horder
  have hlist : order.toList.Perm (List.range n) := toList_perm_range hperm
  have hsize : order.size = n := size_of_perm_range hperm
  refine ⟨order, horder, hsize, hlist, ?_, ?_⟩
  · intro d hd
    have hplace : mixedRadix n.primeFactorsList d < n := by
      have := mixedRadix_lt hd
      rwa [Nat.prod_primeFactorsList (by omega)] at this
    rw [(hermanMeyerOrder_eq_ok_iff.mp horder).2, ← digitReversed_mixedRadix hd]
    simp [hplace]
  · have hs : Sampler.ofOrder (W := W) .hermanMeyer order false 0 =
        .ok (.fresh .hermanMeyer order.size 0 (.rounds order order false)) :=
      Sampler.ofOrder_eq_ok_iff.mpr ⟨by omega, rfl⟩
    refine ⟨_, Except.bind_eq_ok_iff.mpr ⟨order, horder, hs⟩, fun k => ?_⟩
    have hround := Sampler.draws_after_of_fixed hs k
    rw [hsize] at hround
    rw [hsize, hround]
    exact (List.rotate_perm _ k).trans hlist

/-- Twelve subsets, with the radices 2, 2 and 3: position 9 has the digits 1, 0 and 2, and index 8 has them with
    the weights 6, 3 and 1. -/
theorem herman_meyer_reverses_digits_of_twelve :
    1 < 12 ∧ ¬Nat.Prime 12 ∧ ∃ order : Array ℕ, hermanMeyerOrder 12 = .ok order ∧
      order.toList.Perm (List.range 12) ∧ order[9]? = some 8 ∧
      ∃ s : Sampler Float, Sampler.hermanMeyer 12 = .ok s ∧
        ((s.after 5).draws 12).1.Perm (List.range 12) := by
  have hcomposite : ¬Nat.Prime 12 := by decide
  have hfactors : Nat.primeFactorsList 12 = [2, 2, 3] := by
    rw [← factors_eq]
    cbv
  obtain ⟨order, horder, -, hperm, hdigits, s, hs, hrounds⟩ :=
    herman_meyer_reverses_digits (W := Float) (n := 12) (by decide) hcomposite
  refine ⟨by decide, hcomposite, order, horder, hperm, ?_, s, hs, hrounds 5⟩
  rw [hfactors] at hdigits
  exact hdigits (fun k => [1, 0, 2].getD k 0) (by decide)

end Splitting
