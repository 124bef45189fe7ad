import Splitting.Proofs.StepSize.Backtracking

/-!
# `Splitting.Proofs.StepSize.Budget` — how many trials a rule is given

A rule is to be able to shrink its first step `alpha` by a factor of `max (alpha ^ 2) (10 ^ 12)`: a large step has to
come down to about its inverse, and a small one needs room as well. The number of trials is computed from logarithms.
In exact arithmetic it is the least that will do.

* `Armijo.logb_shrinkage` — the decades of the factor by which a rule can shrink its first step;
* `Armijo.pow_mul_le_one_iff` — a power of the factor gains as much exactly if its exponent is at least a quotient of
  logarithms;
* `Armijo.isLeast_budget` — the budget is the least such exponent;
* `armijo_budget_is_least` — the main statement.
-/

namespace Splitting

theorem scalar_log10 (x : ℝ) : Scalar.log10 x = Real.logb 10 x := rfl

/-- A machine number that is not below the argument. -/
theorem scalar_ceilNat?_of_fits {x : ℝ} (hx : 0 ≤ x) (hfits : ⌈x⌉₊ < 2 ^ 64) : Scalar.ceilNat? x = some ⌈x⌉₊ := by
  have hlow : -1 < x := by linarith
  have hhigh : x ≤ 2 ^ 64 - 1 := by
    have hceil : ⌈x⌉₊ ≤ 2 ^ 64 - 1 := Nat.le_sub_one_of_lt hfits
    have hcast : ((2 ^ 64 - 1 : ℕ) : ℝ) = 2 ^ 64 - 1 := by norm_num
    exact hcast ▸ Nat.ceil_le.mp hceil
  exact if_pos ⟨hlow, hhigh⟩

namespace Armijo

variable {alpha beta gain : ℝ}

theorem one_lt_shrinkage (alpha : ℝ) : 1 < max (alpha ^ 2) (10 ^ 12) := lt_max_of_lt_right (by norm_num)

/-- The decades of the factor by which a rule can shrink its first step. -/
theorem logb_shrinkage (halpha : 0 < alpha) :
    Real.logb 10 (max (alpha ^ 2) (10 ^ 12)) = max (2 * Real.logb 10 alpha) 12 := by
  have hmono : MonotoneOn (Real.logb 10) (Set.Ioi 0) := (Real.strictMonoOn_logb (by norm_num)).monotoneOn
  have hsq : 0 < alpha ^ 2 := by positivity
  have hfloor : (0 : ℝ) < 10 ^ 12 := by norm_num
  rw [hmono.map_max hsq hfloor, Real.logb_pow, Real.logb_pow, Real.logb_self_eq_one (by norm_num)]
  norm_num

/-- The decades that one trial gains. -/
theorem neg_logb_pos (hbeta : 0 < beta) (hbeta' : beta < 1) : 0 < -Real.logb 10 beta :=
  neg_pos.mpr (Real.logb_neg (by norm_num) hbeta hbeta')

/-- **What `N` trials gain.** -/
theorem pow_mul_le_one_iff (hbeta : 0 < beta) (hbeta' : beta < 1) (hgain : 0 < gain) (N : ℕ) :
    beta ^ N * gain ≤ 1 ↔ Real.logb 10 gain / -Real.logb 10 beta ≤ N := by
  have hpow : 0 < beta ^ N := pow_pos hbeta N
  rw [div_le_iff₀ (neg_logb_pos hbeta hbeta'), ← Real.logb_nonpos_iff (b := 10) (by norm_num) (mul_pos hpow hgain),
    Real.logb_mul hpow.ne' hgain.ne', Real.logb_pow]
  constructor
  · intro h
    linarith
  · intro h
    linarith

/-- The least number of trials that gain as much. -/
theorem isLeast_ceil (hbeta : 0 < beta) (hbeta' : beta < 1) (hgain : 0 < gain) :
    IsLeast {N : ℕ | beta ^ N * gain ≤ 1} ⌈Real.logb 10 gain / -Real.logb 10 beta⌉₊ := by
  constructor
  · exact (pow_mul_le_one_iff hbeta hbeta' hgain _).mpr (Nat.le_ceil _)
  · intro N hN
    exact Nat.ceil_le.mpr ((pow_mul_le_one_iff hbeta hbeta' hgain N).mp hN)

/-- A gain of more than one takes a trial. -/
theorem one_le_of_pow_mul_le_one (hgain : 1 < gain) {N : ℕ} (hN : beta ^ N * gain ≤ 1) : 1 ≤ N := by
  rcases Nat.eq_zero_or_pos N with rfl | hpos
  · rw [pow_zero, one_mul] at hN
    exact absurd hN (not_le.mpr hgain)
  · exact hpos

/-- **The budget is the least number of trials that gain the factor,** if it is a machine number. -/
theorem isLeast_budget (halpha : 0 < alpha) (hbeta : 0 < beta) (hbeta' : beta < 1)
    (hfits : ⌈max (2 * Real.logb 10 alpha) 12 / -Real.logb 10 beta⌉₊ < 2 ^ 64) :
    IsLeast {N : ℕ | beta ^ N * max (alpha ^ 2) (10 ^ 12) ≤ 1} (budget alpha beta) := by
  have hleast := isLeast_ceil hbeta hbeta' (zero_lt_one.trans (one_lt_shrinkage alpha))
  rw [logb_shrinkage halpha] at hleast
  have hone := one_le_of_pow_mul_le_one (one_lt_shrinkage alpha) hleast.1
  have hnonneg : 0 ≤ max (2 * Real.logb 10 alpha) 12 / -Real.logb 10 beta :=
    div_nonneg (le_max_of_le_right (by norm_num)) (neg_logb_pos hbeta hbeta').le
  have hdecades : Scalar.max (((2 : ℕ) : ℝ) * Scalar.log10 alpha) ((12 : ℕ) : ℝ) =
      max (2 * Real.logb 10 alpha) 12 := by
    rw [scalar_max, scalar_log10, Nat.cast_ofNat, Nat.cast_ofNat]
  have hbudget : budget alpha beta = ⌈max (2 * Real.logb 10 alpha) 12 / -Real.logb 10 beta⌉₊ := by
    unfold budget
    dsimp only
    rw [hdecades, scalar_log10, scalar_ceilNat?_of_fits hnonneg hfits, Option.getD_some]
    exact max_eq_left hone
  rw [hbudget]
  exact hleast

end Armijo

/-- **The budget of a rule is the least that shrinks the first step enough.** In exact arithmetic, take a positive
    first step and a factor in (0, 1) for which the quotient of the decades, rounded up, is a machine number. The rule
    is made, with at least one trial; and its number of trials is the least `N` with
    `betaᴺ · max (alpha²) (10¹²) ≤ 1`. So the first step, shrunk as often as there are trials, has become smaller by
    that factor, and shrunk once less it has not. -/
theorem armijo_budget_is_least {alpha beta : ℝ} (halpha : 0 < alpha) (hbeta : 0 < beta ∧ beta < 1)
    (hfits : ⌈max (2 * Real.logb 10 alpha) 12 / -Real.logb 10 beta⌉₊ < 2 ^ 64) :
    ∃ rule : Armijo ℝ, Armijo.of alpha beta = .ok rule ∧ rule.alpha = alpha ∧ rule.beta = beta ∧
      IsLeast {N : ℕ | beta ^ N * max (alpha ^ 2) (10 ^ 12) ≤ 1} rule.maxTrials ∧ 1 ≤ rule.maxTrials ∧
      rule.trialStep rule.maxTrials * max (alpha ^ 2) (10 ^ 12) ≤ alpha ∧
      alpha < rule.trialStep (rule.maxTrials - 1) * max (alpha ^ 2) (10 ^ 12) := by
  have hleast := Armijo.isLeast_budget halpha hbeta.1 hbeta.2 hfits
  have hone := Armijo.one_le_of_pow_mul_le_one (Armijo.one_lt_shrinkage alpha) hleast.1
  have hmade : Armijo.of alpha beta = .ok ⟨alpha, beta, Armijo.budget alpha beta, []⟩ := by
    rw [Armijo.of, if_neg (not_not.mpr halpha), if_neg (not_not.mpr hbeta)]
  -- a trial step times the factor is the first step times what the trials gain
  have htrial : ∀ N, Armijo.trialStep ⟨alpha, beta, Armijo.budget alpha beta, []⟩ N * max (alpha ^ 2) (10 ^ 12) =
      alpha * (beta ^ N * max (alpha ^ 2) (10 ^ 12)) := by
    intro N
    rw [Armijo.trialStep_eq, mul_assoc]
  refine ⟨_, hmade, rfl, rfl, hleast, hone, ?_, ?_⟩
  · refine (htrial _).trans_le ?_
    exact mul_le_of_le_one_right halpha.le hleast.1
  · have hbefore : ¬beta ^ (Armijo.budget alpha beta - 1) * max (alpha ^ 2) (10 ^ 12) ≤ 1 := by
      intro hle
      have := hleast.2 hle
      omega
    refine lt_of_lt_of_eq ?_ (htrial _).symm
    exact lt_mul_of_one_lt_right halpha (not_le.mp hbefore)

/-- A first step of a million that is halved takes forty trials, as many as the standard rule has. -/
theorem armijo_budget_of_halving :
    ∃ rule : Armijo ℝ, Armijo.of 1000000 (1 / 2) = .ok rule ∧ rule.maxTrials = (Armijo.standard : Armijo ℝ).maxTrials ∧
      rule.trialStep 40 * 10 ^ 12 ≤ 1000000 ∧ 1000000 < rule.trialStep 39 * 10 ^ 12 := by
  have halpha : (0 : ℝ) < 1000000 := by norm_num
  have hbeta : (0 : ℝ) < 1 / 2 ∧ (1 / 2 : ℝ) < 1 := by norm_num
  have hgain : max ((1000000 : ℝ) ^ 2) (10 ^ 12) = 10 ^ 12 := by norm_num
  have hforty : (1 / 2 : ℝ) ^ 40 * max (1000000 ^ 2) (10 ^ 12) ≤ 1 := by
    rw [hgain]
    norm_num
  have hpos : (0 : ℝ) < max (1000000 ^ 2) (10 ^ 12) := zero_lt_one.trans (Armijo.one_lt_shrinkage _)
  have hquotient := (Armijo.pow_mul_le_one_iff hbeta.1 hbeta.2 hpos 40).mp hforty
  rw [Armijo.logb_shrinkage halpha] at hquotient
  have hfits : ⌈max (2 * Real.logb 10 1000000) 12 / -Real.logb 10 (1 / 2)⌉₊ < 2 ^ 64 :=
    (Nat.ceil_le.mpr hquotient).trans_lt (by norm_num)
  obtain ⟨rule, hrule, -, -, hleast, -, hlast, hbefore⟩ := armijo_budget_is_least halpha hbeta hfits
  rw [hgain] at hleast hlast hbefore
  have htrials : rule.maxTrials = 40 := by
    refine hleast.unique ⟨by norm_num, fun N hN => ?_⟩
    by_contra hlt
    -- as many as thirty-nine trials are not enough
    have hle : (1 / 2 : ℝ) ^ 39 ≤ (1 / 2) ^ N := pow_le_pow_of_le_one hbeta.1.le hbeta.2.le (by omega)
    have hN : (1 / 2 : ℝ) ^ N * 10 ^ 12 ≤ 1 := hN
    have hmore : (1 : ℝ) < (1 / 2) ^ 39 * 10 ^ 12 := by norm_num
    linarith
  rw [htrials] at hlast hbefore
  exact ⟨rule, hrule, htrials, hlast, hbefore⟩

end Splitting
