import Mathlib

/-!
# `Splitting.Proofs.Convex.Step` — one proximal gradient step on a convex problem

To minimise `F + H` on a real inner product space, a proximal gradient step goes from `x` to
`x' = P a (x - a G x)`. All that is used of `F` and its gradient `G` are the two bounds between which a convex
function with an `L`-Lipschitz gradient lies, and of `H` and its proximal map `P` that `x - P a x` is a
subgradient of `a H`.

* `Problem`, `Problem.Convex` — a problem, and these laws;
* `Problem.Convex.step_le` — the value after a step against the value at any other point;
* `Problem.Convex.objective_step_le` — a step shorter than `2 / L` descends;
* `Problem.Subgradient.proximal_eq_iff` — where a proximal map leads back to a point;
* `Problem.Convex.step_eq_of_isMinimiser`, `Problem.Convex.step_eq_iff` — a step stays where the objective is
  least, and only there;
* `Problem.Convex.norm_step_sub_le` — two points do not move apart.
-/

namespace Splitting

open scoped RealInnerProductSpace

variable {E : Type} [NormedAddCommGroup E] [InnerProductSpace ℝ E]

/-- A problem `F + H`: two functions, the gradient of the first and the proximal map of the second, at a step
    and a point. -/
structure Problem (E : Type) where
  smooth : E → ℝ
  gradient : E → E
  proximable : E → ℝ
  proximal : ℝ → E → E

namespace Problem

/-- `F x + H x`. -/
def objective (p : Problem E) (x : E) : ℝ := p.smooth x + p.proximable x

/-- The proximal gradient step `P a (x - a G x)`. -/
def step (p : Problem E) (a : ℝ) (x : E) : E := p.proximal a (x - a • p.gradient x)

/-- A point at which the objective is least. -/
def IsMinimiser (p : Problem E) (x : E) : Prop := ∀ u, p.objective x ≤ p.objective u

/-- A function between its linear bound and a quadratic one. -/
structure Smooth (F : E → ℝ) (G : E → E) (L : ℝ) : Prop where
  lower : ∀ x u, F x + ⟪G x, u - x⟫ ≤ F u
  upper : ∀ x u, F u ≤ F x + ⟪G x, u - x⟫ + L / 2 * ‖u - x‖ ^ 2

/-- A map whose displacement is a subgradient. -/
def Subgradient (H : E → ℝ) (P : ℝ → E → E) : Prop :=
  ∀ a, 0 < a → ∀ x u, a * H (P a x) + ⟪x - P a x, u - P a x⟫ ≤ a * H u

/-- A convex problem whose gradient has the Lipschitz constant `L`. -/
structure Convex (p : Problem E) (L : ℝ) : Prop where
  smooth : Smooth p.smooth p.gradient L
  subgradient : Subgradient p.proximable p.proximal

/-! ## The smooth part -/

/-- A larger constant is one, too. -/
theorem Smooth.mono {F : E → ℝ} {G : E → E} {L L' : ℝ} (h : Smooth F G L) (hL : L ≤ L') : Smooth F G L' := by
  refine ⟨h.lower, fun x u => (h.upper x u).trans ?_⟩
  gcongr

/-- A function that is zero. -/
theorem smooth_zero {L : ℝ} (hL : 0 ≤ L) : Smooth (fun _ : E => 0) (fun _ => 0) L := by
  refine ⟨fun x u => ?_, fun x u => ?_⟩
  · simp
  · simp only [inner_zero_left, zero_add]
    positivity

/-- The gap between the function and its linear bound. -/
theorem Smooth.gap_le {F : E → ℝ} {G : E → E} {L : ℝ} (h : Smooth F G L) (hL : 0 < L) (x y : E) :
    F x + ⟪G x, y - x⟫ + 1 / (2 * L) * ‖G y - G x‖ ^ 2 ≤ F y := by
  -- the bounds of both points are compared where a gradient step of the difference leads from `y`
  have hlower := h.lower x (y - (1 / L) • (G y - G x))
  have hupper := h.upper y (y - (1 / L) • (G y - G x))
  have hleft : y - (1 / L) • (G y - G x) - x = (y - x) - (1 / L) • (G y - G x) := by abel
  have hright : y - (1 / L) • (G y - G x) - y = -((1 / L) • (G y - G x)) := by abel
  rw [hleft, inner_sub_right, real_inner_smul_right] at hlower
  rw [hright, inner_neg_right, real_inner_smul_right, norm_neg, norm_smul, mul_pow, Real.norm_eq_abs,
    sq_abs] at hupper
  have hsquare : ⟪G y, G y - G x⟫ - ⟪G x, G y - G x⟫ = ‖G y - G x‖ ^ 2 := by
    rw [← inner_sub_left, real_inner_self_eq_norm_sq]
  have hfactor : L / 2 * ((1 / L) ^ 2 * ‖G y - G x‖ ^ 2) = 1 / (2 * L) * ‖G y - G x‖ ^ 2 := by
    field_simp
  have hhalf : 1 / L * ‖G y - G x‖ ^ 2 = 2 * (1 / (2 * L) * ‖G y - G x‖ ^ 2) := by
    field_simp
  have hdiff : 1 / L * ⟪G y, G y - G x⟫ - 1 / L * ⟪G x, G y - G x⟫ =
      2 * (1 / (2 * L) * ‖G y - G x‖ ^ 2) := by
    rw [← mul_sub, hsquare, hhalf]
  linarith

/-- **Cocoercivity** of the gradient. -/
theorem Smooth.norm_gradient_sub_sq_le {F : E → ℝ} {G : E → E} {L : ℝ} (h : Smooth F G L) (hL : 0 < L)
    (x y : E) : ‖G x - G y‖ ^ 2 ≤ L * ⟪G x - G y, x - y⟫ := by
  have hxy := h.gap_le hL x y
  have hyx := h.gap_le hL y x
  have hinner : ⟪G x, y - x⟫ + ⟪G y, x - y⟫ = -⟪G x - G y, x - y⟫ := by
    rw [← neg_sub x y, inner_neg_right, inner_sub_left]
    ring
  rw [norm_sub_rev] at hxy
  have hsum : 1 / L * ‖G x - G y‖ ^ 2 ≤ ⟪G x - G y, x - y⟫ := by
    have hhalves : 1 / L * ‖G x - G y‖ ^ 2 = 2 * (1 / (2 * L) * ‖G x - G y‖ ^ 2) := by field_simp
    linarith
  calc ‖G x - G y‖ ^ 2 = L * (1 / L * ‖G x - G y‖ ^ 2) := by field_simp
    _ ≤ L * ⟪G x - G y, x - y⟫ := mul_le_mul_of_nonneg_left hsum hL.le

/-- Gradient steps of up to `2 / L` do not move two points apart. -/
theorem Smooth.norm_forward_sub_le {F : E → ℝ} {G : E → E} {L a : ℝ} (h : Smooth F G L) (hL : 0 < L)
    (ha : 0 ≤ a) (haL : a * L ≤ 2) (x y : E) : ‖(x - a • G x) - (y - a • G y)‖ ≤ ‖x - y‖ := by
  have hcocoercive := h.norm_gradient_sub_sq_le hL x y
  have hmonotone : 0 ≤ ⟪G x - G y, x - y⟫ :=
    nonneg_of_mul_nonneg_right ((sq_nonneg _).trans hcocoercive) hL
  have hdiff : (x - a • G x) - (y - a • G y) = (x - y) - a • (G x - G y) := by
    rw [smul_sub]
    abel
  have hexpand : ‖(x - y) - a • (G x - G y)‖ ^ 2 =
      ‖x - y‖ ^ 2 - 2 * a * ⟪G x - G y, x - y⟫ + a ^ 2 * ‖G x - G y‖ ^ 2 := by
    rw [norm_sub_sq_real, real_inner_smul_right, real_inner_comm, norm_smul, mul_pow, Real.norm_eq_abs, sq_abs]
    ring
  have hsq : ‖(x - y) - a • (G x - G y)‖ ^ 2 ≤ ‖x - y‖ ^ 2 := by
    have hsecond : a ^ 2 * ‖G x - G y‖ ^ 2 ≤ 2 * a * ⟪G x - G y, x - y⟫ := by
      calc a ^ 2 * ‖G x - G y‖ ^ 2 ≤ a ^ 2 * (L * ⟪G x - G y, x - y⟫) :=
            mul_le_mul_of_nonneg_left hcocoercive (sq_nonneg a)
        _ = a * (a * L) * ⟪G x - G y, x - y⟫ := by ring
        _ ≤ a * 2 * ⟪G x - G y, x - y⟫ := by gcongr
        _ = 2 * a * ⟪G x - G y, x - y⟫ := by ring
    linarith
  rw [hdiff]
  exact (sq_le_sq₀ (norm_nonneg _) (norm_nonneg _)).mp hsq

/-! ## The proximal part -/

omit [InnerProductSpace ℝ E] in
theorem eq_of_norm_sub_sq_nonpos {x y : E} (h : ‖x - y‖ ^ 2 ≤ 0) : x = y := by
  have hnorm : ‖x - y‖ = 0 := pow_eq_zero_iff two_ne_zero |>.mp (h.antisymm (sq_nonneg _))
  exact sub_eq_zero.mp (norm_eq_zero.mp hnorm)

/-- A function that is zero has the identity as its proximal map. -/
theorem subgradient_zero : Subgradient (fun _ : E => 0) fun _ x => x := by
  intro a _ x u
  simp

/-- A family of firmly non-expansive maps. -/
def Firm (P : ℝ → E → E) : Prop :=
  ∀ a, 0 < a → ∀ x y, ‖P a x - P a y‖ ^ 2 ≤ ⟪x - y, P a x - P a y⟫

/-- Proximal maps are of this kind. -/
theorem Subgradient.firm {H : E → ℝ} {P : ℝ → E → E} (h : Subgradient H P) : Firm P := by
  intro a ha x y
  have hxy := h a ha x (P a y)
  have hyx := h a ha y (P a x)
  have hsum : ⟪x - P a x, P a y - P a x⟫ + ⟪y - P a y, P a x - P a y⟫ =
      ‖P a x - P a y‖ ^ 2 - ⟪x - y, P a x - P a y⟫ := by
    rw [← neg_sub (P a x) (P a y), inner_neg_right, ← real_inner_self_eq_norm_sq]
    simp only [inner_sub_left]
    ring
  linarith

/-- Proximal maps do not move two points apart. -/
theorem Firm.norm_sub_le {P : ℝ → E → E} (h : Firm P) {a : ℝ} (ha : 0 < a) (x y : E) :
    ‖P a x - P a y‖ ≤ ‖x - y‖ := by
  have hschwarz := (h a ha x y).trans (real_inner_le_norm (x - y) (P a x - P a y))
  rcases (norm_nonneg (P a x - P a y)).eq_or_lt with hzero | hpos
  · rw [← hzero]
    exact norm_nonneg _
  · rw [pow_two] at hschwarz
    exact le_of_mul_le_mul_right hschwarz hpos

/-- **A proximal map leads back to `x`** exactly from the points that subgradients at `x` lead to, with every
    step. -/
theorem Subgradient.proximal_eq_iff {H : E → ℝ} {P : ℝ → E → E} (h : Subgradient H P) {a : ℝ} (ha : 0 < a)
    {x v : E} : P a (x + a • v) = x ↔ ∀ u, H x + ⟪v, u - x⟫ ≤ H u := by
  constructor
  · intro hx u
    have hbound := h a ha (x + a • v) u
    rw [hx, add_sub_cancel_left, real_inner_smul_left, ← mul_add] at hbound
    exact le_of_mul_le_mul_left hbound ha
  · intro hv
    -- the point that the map leads to and `x` are compared with each other
    set z := P a (x + a • v) with hz
    have hthere := h a ha (x + a • v) x
    have hback := mul_le_mul_of_nonneg_left (hv z) ha.le
    have hinner : ⟪x + a • v - z, x - z⟫ = ‖z - x‖ ^ 2 - a * ⟪v, z - x⟫ := by
      rw [← neg_sub z x, inner_neg_right, add_sub_right_comm, ← neg_sub z x, inner_add_left, inner_neg_left,
        real_inner_smul_left, real_inner_self_eq_norm_sq]
      ring
    rw [← hz, hinner] at hthere
    exact eq_of_norm_sub_sq_nonpos (by linarith)

/-! ## A step -/

namespace Convex

variable {p : Problem E} {L a : ℝ}

/-- **The value after a step** is at most that of any other point, up to what the step comes closer to it. -/
theorem step_le (h : p.Convex L) (ha : 0 < a) (y u : E) :
    2 * a * (p.objective (p.step a y) - p.objective u) ≤
      ‖y - u‖ ^ 2 - ‖p.step a y - u‖ ^ 2 - (1 - a * L) * ‖p.step a y - y‖ ^ 2 := by
  set z := p.step a y with hz
  have hproximal : a * p.proximable z + ⟪y - a • p.gradient y - z, u - z⟫ ≤ a * p.proximable u :=
    h.subgradient a ha _ u
  have hupper := mul_le_mul_of_nonneg_left (h.smooth.upper y z) ha.le
  have hlower := mul_le_mul_of_nonneg_left (h.smooth.lower y u) ha.le
  -- the terms with the gradient cancel, and what is left of the inner products are three squares
  have hgradient : ⟪y - a • p.gradient y - z, u - z⟫ =
      ⟪y - z, u - z⟫ - a * ⟪p.gradient y, u - y⟫ + a * ⟪p.gradient y, z - y⟫ := by
    have hsplit : y - a • p.gradient y - z = (y - z) - a • p.gradient y := by abel
    have hthrough : ⟪p.gradient y, u - z⟫ = ⟪p.gradient y, u - y⟫ - ⟪p.gradient y, z - y⟫ := by
      rw [← inner_sub_right, sub_sub_sub_cancel_right]
    rw [hsplit, inner_sub_left, real_inner_smul_left, hthrough]
    ring
  have hsquares : 2 * ⟪y - z, u - z⟫ = ‖z - y‖ ^ 2 + ‖z - u‖ ^ 2 - ‖y - u‖ ^ 2 := by
    have hdiff := norm_sub_sq_real (y - z) (u - z)
    rw [sub_sub_sub_cancel_right, norm_sub_rev y z, norm_sub_rev u z] at hdiff
    linarith
  simp only [objective]
  linarith

/-- **Descent.** A step shorter than `2 / L` does not increase the objective. -/
theorem objective_step_le (h : p.Convex L) (ha : 0 < a) (haL : a * L ≤ 2) (x : E) :
    p.objective (p.step a x) ≤ p.objective x := by
  have hstep := h.step_le ha x x
  rw [sub_self, norm_zero] at hstep
  have hsquare : 0 ≤ (2 - a * L) * ‖p.step a x - x‖ ^ 2 :=
    mul_nonneg (sub_nonneg.mpr haL) (sq_nonneg _)
  have hle : 2 * a * (p.objective (p.step a x) - p.objective x) ≤ 2 * a * 0 := by linarith
  linarith [le_of_mul_le_mul_left hle (by positivity)]

/-- **A minimiser stays where it is.** -/
theorem step_eq_of_isMinimiser (h : p.Convex L) (ha : 0 < a) (haL : a * L < 2) {x : E} (hx : p.IsMinimiser x) :
    p.step a x = x := by
  have hstep := h.step_le ha x x
  rw [sub_self, norm_zero] at hstep
  have hleast : 0 ≤ 2 * a * (p.objective (p.step a x) - p.objective x) :=
    mul_nonneg (by positivity) (sub_nonneg.mpr (hx _))
  have hsquare : (2 - a * L) * ‖p.step a x - x‖ ^ 2 ≤ (2 - a * L) * 0 := by linarith
  exact eq_of_norm_sub_sq_nonpos (le_of_mul_le_mul_left hsquare (sub_pos.mpr haL))

/-- **Steps stay exactly where the objective is least,** however long they are. -/
theorem step_eq_iff (h : p.Convex L) (ha : 0 < a) {x : E} : p.step a x = x ↔ p.IsMinimiser x := by
  have hstep : ∀ b, p.step b x = p.proximal b (x + b • -p.gradient x) := by
    intro b
    rw [step, smul_neg, sub_eq_add_neg]
  rw [hstep, h.subgradient.proximal_eq_iff ha]
  constructor
  · intro hsub u
    have hlower := h.smooth.lower x u
    have hsub' := hsub u
    rw [inner_neg_left] at hsub'
    simp only [objective]
    linarith
  · intro hx
    -- a minimiser stays where it is under a step that is short enough, and so has the subgradient there
    have hL : 0 < |L| + 1 := by positivity
    have hshort : 1 / (|L| + 1) * L < 2 := by
      rw [one_div_mul_eq_div, div_lt_iff₀ hL]
      linarith [le_abs_self L, abs_nonneg L]
    have hfixed := h.step_eq_of_isMinimiser (one_div_pos.mpr hL) hshort hx
    rw [hstep] at hfixed
    exact (h.subgradient.proximal_eq_iff (one_div_pos.mpr hL)).mp hfixed

/-- **Steps do not move two points apart.** -/
theorem norm_step_sub_le (h : p.Convex L) (hL : 0 < L) (ha : 0 < a) (haL : a * L ≤ 2) (x y : E) :
    ‖p.step a x - p.step a y‖ ≤ ‖x - y‖ :=
  (h.subgradient.firm.norm_sub_le ha _ _).trans (h.smooth.norm_forward_sub_le hL ha.le haL x y)

/-- No step leads away from a minimiser. -/
theorem norm_step_sub_le_of_isMinimiser (h : p.Convex L) (hL : 0 < L) (ha : 0 < a) (haL : a * L < 2) {u : E}
    (hu : p.IsMinimiser u) (x : E) : ‖p.step a x - u‖ ≤ ‖x - u‖ := by
  calc ‖p.step a x - u‖ = ‖p.step a x - p.step a u‖ := by rw [h.step_eq_of_isMinimiser ha haL hu]
    _ ≤ ‖x - u‖ := h.norm_step_sub_le hL ha haL.le x u

end Convex

end Problem

end Splitting
