import Splitting.Proofs.Subsets.Frequencies

/-!
# `Splitting.Proofs.Subsets.Cycles` — a cycle of draws shows the reported frequencies

The frequencies of a sampler that walks a list are counted in the list as it was at first, with the entries left
out that no index below its length has. The draws walk the list as it is permuted now. As many draws as the list
has entries still show each index as often as its frequency says: from any place, if the list is never permuted,
and from the beginning of a round otherwise.

* `Sampler.Made.exists_ofOrder`, `Sampler.Made.reshuffled_iff` — the samplers that walk a list, and the one kind
  of them that permutes it;
* `Sampler.Walks.exists_read` — a draw reads an entry that is there;
* `Sampler.Walks.draws_perm_of_aligned`, `Sampler.Walks.count_draws` — what a cycle of draws shows;
* `cycles_show_frequencies` — the main statement.
-/

namespace Splitting

namespace Sampler

variable {W : Type} [Scalar W] {s : Sampler W} {first : Array Nat} {reshuffled : Bool}

/-! ## The samplers that walk a list -/

/-- A sampler of any kind but one is made of a list. -/
theorem Made.exists_ofOrder (h : Made s) (hkind : s.kind ≠ .randomWithReplacement) :
    ∃ order reshuffled seed, ofOrder s.kind order reshuffled seed = .ok s := by
  rcases h.cases_supply with ⟨kind, order, reshuffled, seed, h⟩ | ⟨n, probabilities, seed, h⟩
  · refine ⟨order, reshuffled, seed, ?_⟩
    obtain ⟨-, rfl⟩ := ofOrder_eq_ok_iff.mp h
    exact h
  · obtain ⟨ps, prepared, -, -, -, -, -, rfl⟩ := randomWithReplacement_eq_ok h
    exact absurd rfl hkind

omit [Scalar W] in
/-- A sampler is made to permute its list or not to. -/
theorem reshuffled_of_ofOrder {kind : SamplingKind} {order order' : Array Nat} {reshuffled' : Bool}
    {seed seed' : UInt64} (h : ofOrder kind order reshuffled seed = .ok s)
    (h' : ofOrder s.kind order' reshuffled' seed' = .ok s) : reshuffled' = reshuffled := by
  obtain ⟨-, rfl⟩ := ofOrder_eq_ok_iff.mp h
  obtain ⟨-, hs⟩ := ofOrder_eq_ok_iff.mp h'
  simp only [fresh, Sampler.mk.injEq, Supply.rounds.injEq] at hs
  exact hs.2.2.2.1.2.2.symm

/-- **The list is permuted afresh for each round** exactly in sampling without replacement that was asked to. -/
theorem Made.reshuffled_iff (h : Made s) {order : Array Nat} {seed : UInt64}
    (horder : ofOrder s.kind order reshuffled seed = .ok s) :
    reshuffled = true ↔ ∃ n seed, Sampler.randomWithoutReplacement n seed true = .ok s := by
  constructor
  · rintro rfl
    -- every other constructor that walks a list leaves it as it is
    cases h with
    | sequential h => cases reshuffled_of_ofOrder h horder
    | customOrder h => cases reshuffled_of_ofOrder h horder
    | hermanMeyer h =>
      obtain ⟨order', -, h⟩ := hermanMeyer_eq_ok h
      cases reshuffled_of_ofOrder h horder
    | staggered h => cases reshuffled_of_ofOrder (staggered_eq_ok h).2.2 horder
    | randomWithReplacement h =>
      obtain ⟨ps, prepared, -, -, -, -, -, rfl⟩ := randomWithReplacement_eq_ok h
      obtain ⟨-, hs⟩ := ofOrder_eq_ok_iff.mp horder
      simp [fresh] at hs
    | @randomWithoutReplacement n seed' reshuffled' _ h =>
      have hwalk := h
      rw [randomWithoutReplacement_eq] at hwalk
      obtain rfl := reshuffled_of_ofOrder hwalk horder
      exact ⟨n, seed', h⟩
  · rintro ⟨n, seed', h⟩
    exact reshuffled_of_ofOrder h horder

/-! ## What a draw reads -/

/-- **A draw reads an entry that is there:** the one at the sampler's place, in the list as the draw leaves
    it. -/
theorem Walks.exists_read (h : s.Walks first reshuffled) :
    ∃ order, s.draw.2.order? = some order ∧ order[s.position]? = some s.draw.1 := by
  obtain ⟨current, hsupply, hperm⟩ := h.supply
  have hread : ∀ {order : Array Nat}, order.Perm first →
      order[s.position]? = some (order.getD s.position 0) := by
    intro order hperm
    have hplace : s.position < order.size := hperm.size_eq.symm ▸ h.position
    simp [Array.getD, hplace]
  by_cases hfirst : reshuffled = true ∧ s.position = 0
  · obtain ⟨rfl, hstart⟩ := hfirst
    have hshuffled := hread ((Generator.shuffle_perm s.generator current).trans hperm)
    rw [draw_first hsupply hstart]
    exact ⟨_, rfl, hstart ▸ hshuffled⟩
  · rw [draw_inside hsupply hfirst]
    refine ⟨current, ?_, hread hperm⟩
    simp only [order?, hsupply]

/-- The `k`-th draw of a sampler that keeps its list is the entry at `k`, counted round by round, of the list
    that it shows at any time. -/
theorem drawn_of_fixed (h : s.Walks first false) (hstart : s.position = 0) {j : Nat} {order : Array Nat}
    (horder : (s.after j).order? = some order) (k : Nat) : order[k % s.numSubsets]? = some (s.drawn k) := by
  obtain ⟨current, hsupply, hperm⟩ := h.supply
  have hposition : s.position < s.numSubsets := h.numSubsets.symm ▸ h.position
  rw [after_fixed hsupply hposition] at horder
  simp only [order?, hsupply, Option.some.injEq] at horder
  subst horder
  have hplace : k % s.numSubsets < current.size := by
    rw [hperm.size_eq, ← h.numSubsets]
    exact Nat.mod_lt k (Nat.zero_lt_of_lt hposition)
  rw [drawn_fixed hsupply hposition, hstart, Nat.zero_add]
  simp [Array.getD, hplace]

/-! ## What a cycle of draws shows -/

namespace Walks

/-- A cycle of draws through a list that is never permuted shows its entries, from any place. -/
theorem draws_perm_of_fixed (h : s.Walks first false) : (s.draws first.size).1.Perm first.toList := by
  obtain ⟨current, hsupply, hperm⟩ := h.supply
  have hposition : s.position < s.numSubsets := h.numSubsets.symm ▸ h.position
  have hround := draws_fixed hsupply hposition (hperm.size_eq.trans h.numSubsets.symm)
  rw [h.numSubsets] at hround
  rw [hround]
  exact (List.rotate_perm current.toList s.position).trans hperm.toList

/-- **A cycle of draws shows the entries of the list,** if it does not reach over the end of a round of a list
    that is permuted there. -/
theorem draws_perm_of_aligned (h : s.Walks first reshuffled)
    (haligned : reshuffled = true → s.position = 0) : (s.draws first.size).1.Perm first.toList := by
  cases reshuffled with
  | true => exact h.draws_perm (haligned rfl)
  | false => exact h.draws_perm_of_fixed

/-- **A cycle of draws shows each index as often as its frequency says.** -/
theorem count_draws {s : Sampler ℝ} (h : s.Walks first reshuffled)
    (haligned : reshuffled = true → s.position = 0) {i : Nat} (hi : i < s.numSubsets) :
    ∃ p, s.frequencies[i]? = some p ∧ ((s.draws s.numSubsets).1.count i : ℝ) = s.numSubsets * p := by
  refine ⟨_, h.getElem?_frequencies hi, ?_⟩
  have hsize : (first.size : ℝ) ≠ 0 := Nat.cast_ne_zero.mpr (Nat.ne_zero_of_lt h.position)
  rw [h.numSubsets, (h.draws_perm_of_aligned haligned).count_eq]
  exact (mul_div_cancel₀ _ hsize).symm

end Walks

end Sampler

open Sampler in
/-- **Cycles show the reported frequencies.** Let a sampler of any kind be made that walks a list. In all of its
    states its list, its number of subsets and its place belong together, the number of subsets is positive, and
    a draw reads an entry of the list. Unless the list is permuted afresh, the `k`-th draw is the entry at `k` of
    the list, counted round by round, and each index occurs in any cycle of draws as often as its frequency
    says; if the list is permuted afresh, that is so of the cycles which begin at a multiple of its length. -/
theorem cycles_show_frequencies {s : Sampler ℝ} (hmade : Made s) (hkind : s.kind ≠ .randomWithReplacement) :
    ∃ first reshuffled,
      (reshuffled = true ↔ ∃ n seed, randomWithoutReplacement n seed true = .ok s) ∧
      (∀ j, (s.after j).Walks first reshuffled ∧ 0 < (s.after j).numSubsets ∧
        ∃ order, (s.after (j + 1)).order? = some order ∧ order[(s.after j).position]? = some (s.drawn j)) ∧
      (reshuffled = false → ∀ j order, (s.after j).order? = some order →
        ∀ k, order[k % s.numSubsets]? = some (s.drawn k)) ∧
      ∀ j, (reshuffled = true → s.numSubsets ∣ j) → ∀ i < s.numSubsets, ∃ p,
        (s.after j).frequencies[i]? = some p ∧
          (((s.after j).draws s.numSubsets).1.count i : ℝ) = s.numSubsets * p := by
  obtain ⟨first, reshuffled, seed, horder⟩ := hmade.exists_ofOrder hkind
  obtain ⟨hwalks, hstart⟩ := walks_of_ofOrder horder
  refine ⟨first, reshuffled, hmade.reshuffled_iff horder, fun j => ?_, ?_, ?_⟩
  · have hj : (s.after j).Walks first reshuffled := (hwalks.after j).1
    exact ⟨hj, hj.numSubsets.symm ▸ Nat.zero_lt_of_lt hj.position, hj.exists_read⟩
  · rintro rfl j order hlist k
    exact drawn_of_fixed hwalks hstart hlist k
  · intro j haligned i hi
    obtain ⟨hj, hplace⟩ := hwalks.after j
    have hcount : (s.after j).numSubsets = s.numSubsets := hj.numSubsets.trans hwalks.numSubsets.symm
    have hround := hj.count_draws (i := i) ?_ (hcount.symm ▸ hi)
    · rwa [hcount] at hround
    · -- a multiple of the length of the list is a beginning of a round
      intro hreshuffled
      rw [hplace, hstart, Nat.zero_add, ← hwalks.numSubsets]
      exact Nat.mod_eq_zero_of_dvd (haligned hreshuffled)

/-- A list with a repeated index and with one that is beyond its length, from its last place on; and three
    subsets in a new order for each round, in their third round. -/
theorem cycles_show_frequencies_with_repeats :
    (∃ s : Sampler ℝ, Sampler.customOrder #[2, 0, 2, 7] = .ok s ∧ s.kind ≠ .randomWithReplacement ∧
      ((s.after 3).draws 4).1.count 2 = 2 ∧ ((s.after 3).draws 4).1.count 1 = 0) ∧
    ∃ s : Sampler ℝ, Sampler.randomWithoutReplacement 3 5 true = .ok s ∧ s.kind ≠ .randomWithReplacement ∧
      ((s.after 6).draws 3).1.count 2 = 1 := by
  constructor
  · obtain ⟨s, hs⟩ : ∃ s : Sampler ℝ, Sampler.customOrder #[2, 0, 2, 7] = .ok s := ⟨_, rfl⟩
    have hkind : s.kind ≠ .randomWithReplacement := by
      cases hs
      decide
    have hfrequencies : s.frequencies = [1 / 4, 0, 2 / 4, 0] := by
      have hvisits : Sampler.visits 4 #[2, 0, 2, 7] = #[1, 0, 2, 0] := by decide
      cases hs
      simp [Sampler.frequencies, Sampler.fresh, hvisits]
    obtain ⟨first, reshuffled, hreshuffled, -, -, hcycles⟩ :=
      cycles_show_frequencies (.customOrder hs) hkind
    have hfixed : reshuffled = true → s.numSubsets ∣ 3 := by
      intro h
      obtain ⟨n, seed, hs'⟩ := hreshuffled.mp h
      cases hs
      cases (Sampler.ofOrder_eq_ok_iff.mp hs').2
    have hnumber : s.numSubsets = 4 := by
      cases hs
      rfl
    refine ⟨s, hs, hkind, ?_, ?_⟩
    · obtain ⟨p, hp, hcount⟩ := hcycles 3 hfixed 2 (by omega)
      rw [Sampler.frequencies_after, hfrequencies] at hp
      cases hp
      rw [hnumber] at hcount
      norm_num at hcount
      exact_mod_cast hcount
    · obtain ⟨p, hp, hcount⟩ := hcycles 3 hfixed 1 (by omega)
      rw [Sampler.frequencies_after, hfrequencies] at hp
      cases hp
      rw [hnumber] at hcount
      simpa using hcount
  · obtain ⟨s, hs⟩ : ∃ s : Sampler ℝ, Sampler.randomWithoutReplacement 3 5 true = .ok s := ⟨_, rfl⟩
    have hkind : s.kind ≠ .randomWithReplacement := by
      cases hs
      decide
    have hfrequencies : s.frequencies = [1 / 3, 1 / 3, 1 / 3] := by
      have hvisits : Sampler.visits 3 (Array.range 3) = #[1, 1, 1] := by decide
      cases hs
      simp [Sampler.frequencies, Sampler.fresh, hvisits]
    obtain ⟨first, reshuffled, -, -, -, hcycles⟩ :=
      cycles_show_frequencies (.randomWithoutReplacement hs) hkind
    have hnumber : s.numSubsets = 3 := by
      cases hs
      rfl
    refine ⟨s, hs, hkind, ?_⟩
    obtain ⟨p, hp, hcount⟩ := hcycles 6 (fun _ => hnumber ▸ ⟨2, rfl⟩) 2 (by omega)
    rw [Sampler.frequencies_after, hfrequencies] at hp
    cases hp
    rw [hnumber] at hcount
    norm_num at hcount
    exact_mod_cast hcount

end Splitting
