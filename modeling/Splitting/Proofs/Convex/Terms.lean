import Splitting.Functional.OneNorm
import Splitting.Proofs.Convex.Step
import Splitting.Proofs.Exact.Euclidean

/-!
# `Splitting.Proofs.Convex.Terms` — least squares, squared distances and one-norms as convex terms

The functions that a proximal gradient method is used with, on points of a space, with the gradients and
proximal maps that belong to them.

* `Problem.leastSquares_expand`, `Problem.smooth_leastSquares` — `c ‖A x - b‖²` with the gradient
  `2 c B (A x - b)`, where `B` is the adjoint of `A`;
* `Problem.subgradient_squaredDistance` — `c ‖x - b‖²` with the proximal map `(x + 2 c a b) / (1 + 2 c a)`;
* `OneNorm.softThreshold_le` — soft thresholding of one coordinate;
* `Problem.subgradient_oneNorm` — `α ‖x‖₁` with the proximal map that thresholds every coordinate.
-/

namespace Splitting

open scoped RealInnerProductSpace

namespace Problem

variable {E E' : Type} [NormedAddCommGroup E] [InnerProductSpace ℝ E] [NormedAddCommGroup E']
  [InnerProductSpace ℝ E']

/-! ## Squares -/

/-- A map with an adjoint is linear. -/
theorem isLinearMap_of_adjoint {A : E → E'} {B : E' → E} (h : ∀ x y, ⟪A x, y⟫ = ⟪x, B y⟫) :
    IsLinearMap ℝ A := by
  constructor
  · intro x u
    refine ext_inner_right ℝ fun y => ?_
    rw [inner_add_left, h, h, h, ← inner_add_left]
  · intro c x
    refine ext_inner_right ℝ fun y => ?_
    rw [real_inner_smul_left, h, h, ← real_inner_smul_left]

/-- The adjoint has the map as its adjoint. -/
theorem adjoint_symm {A : E → E'} {B : E' → E} (h : ∀ x y, ⟪A x, y⟫ = ⟪x, B y⟫) (y : E') (x : E) :
    ⟪B y, x⟫ = ⟪y, A x⟫ := by
  rw [real_inner_comm, ← h, real_inner_comm]

/-- A square around another point. -/
theorem norm_sq_eq_add (v w : E) : ‖v‖ ^ 2 = ‖w‖ ^ 2 + 2 * ⟪w, v - w⟫ + ‖v - w‖ ^ 2 := by
  rw [← norm_add_sq_real, add_sub_cancel]

/-- **Least squares** around another point: what remains of the linear part is the square of the image. -/
theorem leastSquares_expand {A : E → E'} {B : E' → E} (h : ∀ x y, ⟪A x, y⟫ = ⟪x, B y⟫) (c : ℝ) (b : E')
    (x u : E) : c * ‖A u - b‖ ^ 2 =
      c * ‖A x - b‖ ^ 2 + ⟪(c + c) • B (A x - b), u - x⟫ + c * ‖A (u - x)‖ ^ 2 := by
  have himage : A u - b - (A x - b) = A (u - x) := by
    rw [sub_sub_sub_cancel_right, (isLinearMap_of_adjoint h).map_sub]
  rw [norm_sq_eq_add (A u - b) (A x - b), himage, real_inner_smul_left, real_inner_comm (A (u - x)), h,
    real_inner_comm (B (A x - b))]
  ring

/-- Least squares lie between their bounds. -/
theorem smooth_leastSquares {A : E → E'} {B : E' → E} (h : ∀ x y, ⟪A x, y⟫ = ⟪x, B y⟫) {c L : ℝ} (hc : 0 ≤ c)
    (hL : ∀ x, 2 * c * ‖A x‖ ^ 2 ≤ L * ‖x‖ ^ 2) (b : E') :
    Smooth (fun x => c * ‖A x - b‖ ^ 2) (fun x => (c + c) • B (A x - b)) L := by
  refine ⟨fun x u => ?_, fun x u => ?_⟩
  · show c * ‖A x - b‖ ^ 2 + ⟪(c + c) • B (A x - b), u - x⟫ ≤ c * ‖A u - b‖ ^ 2
    rw [leastSquares_expand h c b x u]
    exact le_add_of_nonneg_right (by positivity)
  · show c * ‖A u - b‖ ^ 2 ≤ c * ‖A x - b‖ ^ 2 + ⟪(c + c) • B (A x - b), u - x⟫ + L / 2 * ‖u - x‖ ^ 2
    rw [leastSquares_expand h c b x u]
    linarith [hL (u - x)]

/-- A squared distance between its bounds: the identity is its own adjoint. -/
theorem smooth_squaredDistance {c : ℝ} (hc : 0 ≤ c) (b : E) :
    Smooth (fun x => c * ‖x - b‖ ^ 2) (fun x => (c + c) • (x - b)) (c + c) := by
  refine smooth_leastSquares (A := fun x => x) (B := fun x => x) (fun _ _ => rfl) hc (fun x => ?_) b
  rw [two_mul]

/-- **A squared distance and its proximal map.** -/
theorem subgradient_squaredDistance {c : ℝ} (hc : 0 ≤ c) (b : E) :
    Subgradient (fun x => c * ‖x - b‖ ^ 2)
      fun a x => (1 / (1 + (c + c) * a)) • (x + ((c + c) * a) • b) := by
  intro a ha x u
  set t := (c + c) * a with ht
  set z := (1 / (1 + t)) • (x + t • b) with hz
  have htNonneg : 0 ≤ t := by positivity
  have hscaled : (1 + t) • z = x + t • b := by
    rw [hz, smul_smul, mul_one_div_cancel (by positivity), one_smul]
  have hdisplacement : x - z = t • (z - b) := by
    have hx : x = (1 + t) • z - t • b := by rw [hscaled, add_sub_cancel_right]
    rw [hx]
    module
  -- both sides differ by the square of the distance from `z` to `u`
  have hexpand := norm_sq_eq_add (u - b) (z - b)
  rw [sub_sub_sub_cancel_right] at hexpand
  show a * (c * ‖z - b‖ ^ 2) + ⟪x - z, u - z⟫ ≤ a * (c * ‖u - b‖ ^ 2)
  rw [hdisplacement, real_inner_smul_left, hexpand, ht]
  have hsquare : 0 ≤ a * c * ‖u - z‖ ^ 2 := by positivity
  linarith

end Problem

/-! ## Absolute values -/

/-- **Soft thresholding of one coordinate:** its displacement is a subgradient of the scaled absolute value. -/
theorem OneNorm.softThreshold_le {threshold : ℝ} (h : 0 ≤ threshold) (v w : ℝ) :
    threshold * |softThreshold threshold v| +
        (v - softThreshold threshold v) * (w - softThreshold threshold v) ≤
      threshold * |w| := by
  have hupper : threshold * w ≤ threshold * |w| := mul_le_mul_of_nonneg_left (le_abs_self w) h
  have hlower : threshold * -w ≤ threshold * |w| := mul_le_mul_of_nonneg_left (neg_le_abs w) h
  show threshold * |(if v < 0 then -1 else 1) * max (|v| - threshold) 0| +
    (v - (if v < 0 then -1 else 1) * max (|v| - threshold) 0) *
      (w - (if v < 0 then -1 else 1) * max (|v| - threshold) 0) ≤ threshold * |w|
  rcases le_total |v| threshold with hsmall | hlarge
  · -- a coordinate within the threshold goes to zero
    rw [max_eq_right (sub_nonpos.mpr hsmall), mul_zero, abs_zero, mul_zero, sub_zero, sub_zero, zero_add]
    calc v * w ≤ |v * w| := le_abs_self _
      _ = |v| * |w| := abs_mul v w
      _ ≤ threshold * |w| := mul_le_mul_of_nonneg_right hsmall (abs_nonneg w)
  · rw [max_eq_left (sub_nonneg.mpr hlarge)]
    by_cases hv : v < 0
    · -- a negative one moves up by the threshold, and stays negative
      rw [abs_of_neg hv] at hlarge ⊢
      rw [if_pos hv, abs_of_nonpos (by linarith)]
      linarith
    · have hv' : 0 ≤ v := not_lt.mp hv
      rw [abs_of_nonneg hv'] at hlarge ⊢
      rw [if_neg hv, one_mul, abs_of_nonneg (sub_nonneg.mpr hlarge)]
      linarith

/-- Every coordinate thresholded. -/
noncomputable def Space.softThreshold {n : ℕ} (threshold : ℝ) (x : Space n) : Space n :=
  WithLp.toLp _ fun i => OneNorm.softThreshold threshold (x i)

/-- **A one-norm and its proximal map.** -/
theorem Problem.subgradient_oneNorm {n : ℕ} {alpha : ℝ} (halpha : 0 ≤ alpha) :
    Subgradient (fun x : Space n => alpha * ∑ i, |x i|) fun a x => x.softThreshold (a * alpha) := by
  intro a ha x u
  have hplace := fun i => OneNorm.softThreshold_le (mul_nonneg ha.le halpha) (x i) (u i)
  have hsum := Finset.sum_le_sum fun i (_ : i ∈ Finset.univ) => hplace i
  rw [Finset.sum_add_distrib, ← Finset.mul_sum, ← Finset.mul_sum] at hsum
  have hinner : ⟪x - x.softThreshold (a * alpha), u - x.softThreshold (a * alpha)⟫ =
      ∑ i, (x i - OneNorm.softThreshold (a * alpha) (x i)) *
        (u i - OneNorm.softThreshold (a * alpha) (x i)) := by
    rw [PiLp.inner_apply]
    refine Finset.sum_congr rfl fun i _ => ?_
    exact mul_comm _ _
  rw [hinner, ← mul_assoc, ← mul_assoc]
  exact hsum

end Splitting
