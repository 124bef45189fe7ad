import Splitting.ForwardBackward.Fista
import Splitting.Proofs.Convex.Step
import Splitting.Proofs.Exact.Reals

/-!
# `Splitting.Proofs.Convex.Momentum` — the rate of accelerated proximal gradient steps

With the momentum `t` from `t² - t = t₋²`, the potential

  `2 a (t² - t) (F x + H x - F u - H u) + ‖t y - (t - 1) x - u‖²`

of an accelerated method does not grow from one iteration to the next, for any point `u`. Since the momentum
grows by at least a half, the objective falls like `1 / k²`.

* `Fista.nextMomentum_sq_sub`, `Fista.half_add_le_nextMomentum`, `Fista.nextMomentum_le_add_one` — how the momentum
  grows;
* `Fista.momentumAfter` — the momentum after a number of iterations, and its bounds;
* `Accelerated`, `Accelerated.next`, `Problem.accelerated` — the recursion on points;
* `Accelerated.potential`, `Accelerated.potential_next_le` — the potential, and that a step does not raise it;
* `Problem.Convex.accelerated_rate` — the rate.
-/

namespace Splitting

open scoped RealInnerProductSpace

/-! ## The momentum -/

namespace Fista

theorem nextMomentum_eq (t : ℝ) : nextMomentum t = (1 + √(1 + 4 * t ^ 2)) / 2 := by
  show (1 + √(1 + ((4 : ℕ) : ℝ) * t * t)) / ((2 : ℕ) : ℝ) = _
  rw [pow_two, ← mul_assoc, Nat.cast_ofNat, Nat.cast_ofNat]

/-- **The equation of the momentum.** -/
theorem nextMomentum_sq_sub (t : ℝ) : nextMomentum t ^ 2 - nextMomentum t = t ^ 2 := by
  have hroot : √(1 + 4 * t ^ 2) ^ 2 = 1 + 4 * t ^ 2 := Real.sq_sqrt (by positivity)
  rw [nextMomentum_eq]
  linear_combination hroot / 4

/-- The momentum grows by at least a half. -/
theorem half_add_le_nextMomentum (t : ℝ) : t + 1 / 2 ≤ nextMomentum t := by
  have hroot : 2 * t ≤ √(1 + 4 * t ^ 2) := by
    refine Real.le_sqrt_of_sq_le ?_
    linarith [mul_pow 2 t 2]
  rw [nextMomentum_eq]
  linarith

/-- It grows by at most one. -/
theorem nextMomentum_le_add_one {t : ℝ} (ht : 0 ≤ t) : nextMomentum t ≤ t + 1 := by
  have hroot : √(1 + 4 * t ^ 2) ≤ 1 + 2 * t := by
    refine Real.sqrt_le_iff.mpr ⟨by linarith, ?_⟩
    linarith [add_sq 1 (2 * t), mul_pow 2 t 2]
  rw [nextMomentum_eq]
  linarith

/-- The momentum after `k` iterations. -/
def momentumAfter {S : Type} [Scalar S] : ℕ → S
  | 0 => 1
  | k + 1 => nextMomentum (momentumAfter k)

/-- It is at least `(k + 2) / 2`. -/
theorem le_momentumAfter (k : ℕ) : ((k : ℝ) + 2) / 2 ≤ momentumAfter k := by
  induction k with
  | zero => simp [momentumAfter]
  | succ k ih =>
    have hstep := half_add_le_nextMomentum (momentumAfter k)
    rw [momentumAfter, Nat.cast_succ]
    linarith

theorem one_le_momentumAfter (k : ℕ) : (1 : ℝ) ≤ momentumAfter k := by
  refine le_trans ?_ (le_momentumAfter k)
  linarith [Nat.cast_nonneg (α := ℝ) k]

/-- It is at most `k + 1`. -/
theorem momentumAfter_le (k : ℕ) : (momentumAfter k : ℝ) ≤ k + 1 := by
  induction k with
  | zero => simp [momentumAfter]
  | succ k ih =>
    have hstep := nextMomentum_le_add_one (zero_le_one.trans (one_le_momentumAfter k))
    rw [momentumAfter, Nat.cast_succ]
    linarith

/-- **The weight of an extrapolation** is at least zero and less than one. -/
theorem weight_mem_Ico {t : ℝ} (ht : 1 ≤ t) : (t - 1) / nextMomentum t ∈ Set.Ico 0 1 := by
  have hgrowth := half_add_le_nextMomentum t
  have hpos : 0 < nextMomentum t := by linarith
  refine ⟨div_nonneg (sub_nonneg.mpr ht) hpos.le, ?_⟩
  rw [div_lt_one hpos]
  linarith

end Fista

/-! ## The recursion -/

variable {E : Type} [NormedAddCommGroup E] [InnerProductSpace ℝ E]

/-- An accelerated method between two iterations: the iterate, the point ahead of it, and the momentum. -/
structure Accelerated (E : Type) where
  x : E
  y : E
  t : ℝ

namespace Accelerated

/-- An iteration. -/
noncomputable def next (p : Problem E) (a : ℝ) (s : Accelerated E) : Accelerated E where
  x := p.step a s.y
  y := p.step a s.y + ((s.t - 1) / Fista.nextMomentum s.t) • (p.step a s.y - s.x)
  t := Fista.nextMomentum s.t

/-- What an iteration does not raise, for any point `u`. -/
def potential (p : Problem E) (a : ℝ) (u : E) (s : Accelerated E) : ℝ :=
  2 • (a * (s.t ^ 2 - s.t) * (p.objective s.x - p.objective u)) + ‖s.t • s.y - (s.t - 1) • s.x - u‖ ^ 2

/-- The square in the potential, in terms of the distances between the points. -/
theorem norm_combination_sq (t : ℝ) (x y u : E) : ‖t • y - (t - 1) • x - u‖ ^ 2 =
    t * ‖y - u‖ ^ 2 + t * (t - 1) * ‖y - x‖ ^ 2 - (t - 1) * ‖x - u‖ ^ 2 := by
  have hsplit : t • y - (t - 1) • x - u = t • (y - u) - (t - 1) • (x - u) := by module
  have hthrough := norm_sub_sq_real (y - u) (x - u)
  rw [sub_sub_sub_cancel_right] at hthrough
  rw [hsplit, hthrough, norm_sub_sq_real, norm_smul, norm_smul, mul_pow, mul_pow, Real.norm_eq_abs,
    Real.norm_eq_abs, sq_abs, sq_abs, real_inner_smul_left, real_inner_smul_right]
  ring

/-- The point ahead is where the weighted iterates meet. -/
theorem combination_next (p : Problem E) (a : ℝ) {s : Accelerated E} (ht : Fista.nextMomentum s.t ≠ 0) :
    (s.next p a).t • (s.next p a).y - ((s.next p a).t - 1) • (s.next p a).x =
      s.t • p.step a s.y - (s.t - 1) • s.x := by
  simp only [next, smul_add, smul_smul, mul_div_cancel₀ _ ht]
  module

/-- **The potential does not grow.** -/
theorem potential_next_le {p : Problem E} {L a : ℝ} (h : p.Convex L) (ha : 0 < a) (haL : a * L ≤ 1)
    {s : Accelerated E} (ht : 1 ≤ s.t) (u : E) : (s.next p a).potential p a u ≤ s.potential p a u := by
  have hpos : 0 < Fista.nextMomentum s.t := by
    linarith [Fista.half_add_le_nextMomentum s.t]
  -- the step is compared with the point `u`, and with the last iterate
  have hkey : ∀ v, 2 * a * (p.objective (p.step a s.y) - p.objective v) ≤
      ‖s.y - v‖ ^ 2 - ‖p.step a s.y - v‖ ^ 2 := by
    intro v
    have hrest : 0 ≤ (1 - a * L) * ‖p.step a s.y - s.y‖ ^ 2 :=
      mul_nonneg (sub_nonneg.mpr haL) (sq_nonneg _)
    linarith [h.step_le ha s.y v]
  have hu := mul_le_mul_of_nonneg_left (hkey u) (zero_le_one.trans ht)
  have hx := mul_le_mul_of_nonneg_left (hkey s.x) (mul_nonneg (zero_le_one.trans ht) (sub_nonneg.mpr ht))
  have hafter := norm_combination_sq s.t s.x (p.step a s.y) u
  have hbefore := norm_combination_sq s.t s.x s.y u
  have hmomentum : (s.next p a).t ^ 2 - (s.next p a).t = s.t ^ 2 := Fista.nextMomentum_sq_sub s.t
  rw [potential, potential, combination_next p a hpos.ne', hafter, hbefore, hmomentum, two_nsmul, two_nsmul]
  show a * s.t ^ 2 * (p.objective (p.step a s.y) - p.objective u) +
    a * s.t ^ 2 * (p.objective (p.step a s.y) - p.objective u) + _ ≤ _
  linarith

end Accelerated

namespace Problem

/-- The accelerated method after `k` iterations from `x₀`. -/
noncomputable def accelerated (p : Problem E) (a : ℝ) (x₀ : E) : ℕ → Accelerated E
  | 0 => ⟨x₀, x₀, 1⟩
  | k + 1 => (p.accelerated a x₀ k).next p a

variable {p : Problem E} {L a : ℝ}

theorem momentum_accelerated (p : Problem E) (a : ℝ) (x₀ : E) (k : ℕ) :
    (p.accelerated a x₀ k).t = Fista.momentumAfter k := by
  induction k with
  | zero => rfl
  | succ k ih => exact congrArg Fista.nextMomentum ih

/-- The potential after any number of iterations is at most the squared distance at the start. -/
theorem Convex.potential_accelerated_le (h : p.Convex L) (ha : 0 < a) (haL : a * L ≤ 1) (x₀ u : E) (k : ℕ) :
    (p.accelerated a x₀ k).potential p a u ≤ ‖x₀ - u‖ ^ 2 := by
  induction k with
  | zero => simp [accelerated, Accelerated.potential]
  | succ k ih =>
    have ht : 1 ≤ (p.accelerated a x₀ k).t := by
      rw [p.momentum_accelerated]
      exact Fista.one_le_momentumAfter k
    exact (Accelerated.potential_next_le h ha haL ht u).trans ih

/-- **The rate of the accelerated method.** -/
theorem Convex.accelerated_rate (h : p.Convex L) (ha : 0 < a) (haL : a * L ≤ 1) (x₀ u : E) {k : ℕ}
    (hk : 1 ≤ k) : p.objective (p.accelerated a x₀ k).x - p.objective u ≤
      2 / (a * ((k : ℝ) + 1) ^ 2) * ‖x₀ - u‖ ^ 2 := by
  obtain ⟨k, rfl⟩ := Nat.exists_eq_add_of_le' hk
  set gap := p.objective (p.accelerated a x₀ (k + 1)).x - p.objective u with hgap
  have hmomentum := Fista.le_momentumAfter k
  rw [← p.momentum_accelerated a x₀] at hmomentum
  have hpotential := h.potential_accelerated_le ha haL x₀ u (k + 1)
  have hsquare : 2 • (a * (p.accelerated a x₀ k).t ^ 2 * gap) ≤ ‖x₀ - u‖ ^ 2 := by
    rw [← Fista.nextMomentum_sq_sub]
    exact (le_add_of_nonneg_right (sq_nonneg _)).trans hpotential
  rcases le_or_gt gap 0 with hneg | hpos
  · exact hneg.trans (by positivity)
  · rw [div_mul_eq_mul_div, le_div_iff₀ (by positivity), Nat.cast_succ]
    have hgrowth : (((k : ℝ) + 2) / 2) ^ 2 ≤ (p.accelerated a x₀ k).t ^ 2 :=
      pow_le_pow_left₀ (by positivity) hmomentum 2
    calc gap * (a * ((k : ℝ) + 1 + 1) ^ 2) = 2 * (2 • (a * (((k : ℝ) + 2) / 2) ^ 2 * gap)) := by ring
      _ ≤ 2 * (2 • (a * (p.accelerated a x₀ k).t ^ 2 * gap)) := by gcongr
      _ ≤ 2 * ‖x₀ - u‖ ^ 2 := by gcongr

end Problem

end Splitting
