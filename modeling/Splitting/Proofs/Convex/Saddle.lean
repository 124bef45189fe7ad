import Splitting.Proofs.Convex.Terms

/-!
# `Splitting.Proofs.Convex.Saddle` — the primal-dual method with extrapolated dual variables

To find a saddle point of `g x + ⟨K x, y⟩ - f* y`, an iteration steps from `(x, y)` and a dual point `ȳ` ahead
of `y` to

  `x' = P τ (x - τ Kᵀ ȳ)`, `y' = Q σ (y + σ K x')`, `ȳ' = 2 y' - y`

with the proximal maps `P` of `g` and `Q` of `f*`. As long as `σ τ ‖K‖² ≤ 1`, the energy

  `‖x‖² / τ + 2 ⟨K x, y⟩ + ‖y‖² / σ`

is a squared distance, in which no iteration leads away from a fixed point.

* `conjugateMap` — the proximal map of a conjugate, and where it leads back to a point;
* `SaddleProblem`, `Extrapolated`, `SaddleProblem.extrapolated` — a problem, and the recursion;
* `Extrapolated.energy_nonneg`, `SaddleProblem.Monotone.energy_next_le` — the energy, and that an iteration
  does not raise it.
-/

namespace Splitting

open scoped RealInnerProductSpace

variable {E E' : Type} [NormedAddCommGroup E] [InnerProductSpace ℝ E] [NormedAddCommGroup E']
  [InnerProductSpace ℝ E']

/-! ## The proximal map of a conjugate -/

namespace Problem

/-- The proximal map of the conjugate, from that of the function. -/
noncomputable def conjugateMap (P : ℝ → E → E) (a : ℝ) (y : E) : E := y - a • P (1 / a) ((1 / a) • y)

theorem Firm.conjugateMap {P : ℝ → E → E} (h : Firm P) : Firm (conjugateMap P) := by
  intro a ha y y'
  set p := P (1 / a) ((1 / a) • y) with hp
  set p' := P (1 / a) ((1 / a) • y') with hp'
  have hfirm : ‖p - p'‖ ^ 2 ≤ 1 / a * ⟪y - y', p - p'⟫ := by
    have := h (1 / a) (one_div_pos.mpr ha) ((1 / a) • y) ((1 / a) • y')
    rwa [← smul_sub, real_inner_smul_left] at this
  have hscaled : a ^ 2 * ‖p - p'‖ ^ 2 ≤ a * ⟪y - y', p - p'⟫ := by
    calc a ^ 2 * ‖p - p'‖ ^ 2 ≤ a ^ 2 * (1 / a * ⟪y - y', p - p'⟫) := by gcongr
      _ = a * ⟪y - y', p - p'⟫ := by field_simp
  have hdiff : Problem.conjugateMap P a y - Problem.conjugateMap P a y' = (y - y') - a • (p - p') := by
    rw [Problem.conjugateMap, Problem.conjugateMap, smul_sub]
    abel
  rw [hdiff, norm_sub_sq_real, inner_sub_right, real_inner_smul_right, real_inner_self_eq_norm_sq, norm_smul,
    mul_pow, Real.norm_eq_abs, sq_abs]
  linarith

/-- The two proximal maps lead back to points together. -/
theorem conjugateMap_eq_iff {P : ℝ → E → E} {a : ℝ} (ha : 0 < a) {x y : E} :
    conjugateMap P a (y + a • x) = y ↔ P (1 / a) (x + (1 / a) • y) = x := by
  have hpoint : (1 / a) • (y + a • x) = x + (1 / a) • y := by
    rw [smul_add, smul_smul, one_div_mul_cancel ha.ne', one_smul, add_comm]
  rw [conjugateMap, hpoint, add_sub_assoc, add_eq_left, ← smul_sub, smul_eq_zero_iff_right ha.ne', sub_eq_zero]
  exact eq_comm

end Problem

/-! ## The recursion -/

/-- A saddle-point problem: the coupling and its adjoint, and the proximal maps of the two convex terms. -/
structure SaddleProblem (E E' : Type) where
  direct : E → E'
  adjoint : E' → E
  primal : ℝ → E → E
  dual : ℝ → E' → E'

/-- A method between two iterations: the two variables, and the dual point ahead. -/
structure Extrapolated (E E' : Type) where
  x : E
  y : E'
  ahead : E'

namespace Extrapolated

/-- An iteration with the steps `τ` and `σ`. -/
noncomputable def next (p : SaddleProblem E E') (τ σ : ℝ) (s : Extrapolated E E') : Extrapolated E E' :=
  let x := p.primal τ (s.x - τ • p.adjoint s.ahead)
  let y := p.dual σ (s.y + σ • p.direct x)
  ⟨x, y, 2 • y - s.y⟩

end Extrapolated

namespace SaddleProblem

/-- The method after `k` iterations from `x₀`. -/
noncomputable def extrapolated (p : SaddleProblem E E') (τ σ : ℝ) (x₀ : E) : ℕ → Extrapolated E E'
  | 0 => ⟨x₀, 0, 0⟩
  | k + 1 => (p.extrapolated τ σ x₀ k).next p τ σ

/-- The maps belong together: one is the adjoint of the other, and both proximal maps are firm. -/
structure Monotone (p : SaddleProblem E E') : Prop where
  adjoint : ∀ x y, ⟪p.direct x, y⟫ = ⟪x, p.adjoint y⟫
  primal : Problem.Firm p.primal
  dual : Problem.Firm p.dual

/-- A point that an iteration without extrapolation leaves in place. -/
structure IsSaddle (p : SaddleProblem E E') (τ σ : ℝ) (x : E) (y : E') : Prop where
  primal : p.primal τ (x - τ • p.adjoint y) = x
  dual : p.dual σ (y + σ • p.direct x) = y

end SaddleProblem

/-! ## The energy -/

section

variable {p : SaddleProblem E E'} {A : E → E'} {τ σ n : ℝ}

/-- The squared length of `(x, y)`, in the metric that belongs to the coupling `A` and the steps. -/
noncomputable def Extrapolated.energy (A : E → E') (τ σ : ℝ) (x : E) (y : E') : ℝ :=
  ‖x‖ ^ 2 / τ + 2 • ⟪A x, y⟫ + ‖y‖ ^ 2 / σ

omit [InnerProductSpace ℝ E] in
/-- **The energy is not negative** if the steps are within the bound that a norm of the coupling sets. -/
theorem Extrapolated.energy_nonneg (hτ : 0 < τ) (hσ : 0 < σ) (hn : ∀ x, ‖A x‖ ≤ n * ‖x‖)
    (hbound : σ * τ * n ^ 2 ≤ 1) (x : E) (y : E') : 0 ≤ energy A τ σ x y := by
  have hcoupling : -(n * ‖x‖ * ‖y‖) ≤ ⟪A x, y⟫ := by
    have hschwarz := neg_le_of_abs_le (abs_real_inner_le_norm (A x) y)
    have hnorm := mul_le_mul_of_nonneg_right (hn x) (norm_nonneg y)
    linarith
  -- what is left is a square, and a multiple of `‖y‖²` that the bound makes non-negative
  have hsquares : ‖x‖ ^ 2 / τ - 2 * (n * ‖x‖ * ‖y‖) + ‖y‖ ^ 2 / σ =
      (‖x‖ - τ * n * ‖y‖) ^ 2 / τ + (1 - σ * τ * n ^ 2) * ‖y‖ ^ 2 / σ := by
    field_simp
    ring
  have hfirst : 0 ≤ (‖x‖ - τ * n * ‖y‖) ^ 2 / τ := by positivity
  have hsecond : 0 ≤ (1 - σ * τ * n ^ 2) * ‖y‖ ^ 2 / σ :=
    div_nonneg (mul_nonneg (sub_nonneg.mpr hbound) (sq_nonneg _)) hσ.le
  rw [energy, two_nsmul]
  linarith

/-- Twice the inner product of the last two sides of a triangle. -/
theorem two_inner_sub_sub (a b c : E) : 2 * ⟪a - b, b - c⟫ = ‖a - c‖ ^ 2 - ‖b - c‖ ^ 2 - ‖a - b‖ ^ 2 := by
  have hthrough : a - c = (a - b) + (b - c) := by abel
  rw [hthrough, norm_add_sq_real]
  ring

namespace SaddleProblem.Monotone

/-- A primal step from `x₁`, seen from a saddle point. -/
theorem inner_primal_le (h : p.Monotone) (hτ : 0 < τ) {xs x₁ x₂ : E} {ys v : E'} (hs : p.IsSaddle τ σ xs ys)
    (hx : p.primal τ (x₁ - τ • p.adjoint v) = x₂) :
    2 * ⟪p.direct (x₂ - xs), v - ys⟫ ≤ (‖x₁ - xs‖ ^ 2 - ‖x₂ - xs‖ ^ 2 - ‖x₁ - x₂‖ ^ 2) / τ := by
  have hfirm := h.primal τ hτ (x₁ - τ • p.adjoint v) (xs - τ • p.adjoint ys)
  have hadjoint := (Problem.isLinearMap_of_adjoint (Problem.adjoint_symm h.adjoint)).map_sub v ys
  have hsplit : (x₁ - τ • p.adjoint v) - (xs - τ • p.adjoint ys) =
      (x₁ - x₂) + (x₂ - xs) - τ • p.adjoint (v - ys) := by
    rw [hadjoint, smul_sub]
    abel
  rw [hs.primal, hx, hsplit, inner_sub_left, inner_add_left, real_inner_self_eq_norm_sq,
    real_inner_smul_left, real_inner_comm _ (p.adjoint _), ← h.adjoint] at hfirm
  rw [← two_inner_sub_sub, le_div_iff₀ hτ]
  linarith

/-- A dual step from `y₀`, seen from a saddle point. -/
theorem inner_dual_le (h : p.Monotone) (hσ : 0 < σ) {xs x₁ : E} {ys y₀ y₁ : E'} (hs : p.IsSaddle τ σ xs ys)
    (hy : p.dual σ (y₀ + σ • p.direct x₁) = y₁) :
    -(2 * ⟪p.direct (x₁ - xs), y₁ - ys⟫) ≤ (‖y₀ - ys‖ ^ 2 - ‖y₁ - ys‖ ^ 2 - ‖y₀ - y₁‖ ^ 2) / σ := by
  have hfirm := h.dual σ hσ (y₀ + σ • p.direct x₁) (ys + σ • p.direct xs)
  have hsplit : (y₀ + σ • p.direct x₁) - (ys + σ • p.direct xs) =
      (y₀ - y₁) + (y₁ - ys) + σ • p.direct (x₁ - xs) := by
    rw [(Problem.isLinearMap_of_adjoint h.adjoint).map_sub, smul_sub]
    abel
  rw [hs.dual, hy, hsplit, inner_add_left, inner_add_left, real_inner_self_eq_norm_sq,
    real_inner_smul_left] at hfirm
  rw [← two_inner_sub_sub, le_div_iff₀ hσ]
  linarith

/-- **An iteration does not lead away from a saddle point,** in the energy of the primal variable and of the
    dual variable before it. -/
theorem energy_next_le (h : p.Monotone) (hτ : 0 < τ) (hσ : 0 < σ)
    (hnonneg : ∀ x y, 0 ≤ Extrapolated.energy p.direct τ σ x y) {xs : E} {ys : E'} (hs : p.IsSaddle τ σ xs ys)
    (s : Extrapolated E E') :
    Extrapolated.energy p.direct τ σ (((s.next p τ σ).next p τ σ).x - xs) ((s.next p τ σ).y - ys) ≤
      Extrapolated.energy p.direct τ σ ((s.next p τ σ).x - xs) (s.y - ys) := by
  set x₁ := (s.next p τ σ).x with hx₁
  set y₁ := (s.next p τ σ).y with hy₁
  set x₂ := ((s.next p τ σ).next p τ σ).x with hx₂
  have hprimal : p.primal τ (x₁ - τ • p.adjoint (2 • y₁ - s.y)) = x₂ := rfl
  have hdual : p.dual σ (s.y + σ • p.direct x₁) = y₁ := rfl
  replace hprimal := h.inner_primal_le hτ hs hprimal
  replace hdual := h.inner_dual_le hσ hs hdual
  have hahead : ⟪p.direct (x₂ - xs), 2 • y₁ - s.y - ys⟫ =
      2 * ⟪p.direct (x₂ - xs), y₁ - ys⟫ - ⟪p.direct (x₂ - xs), s.y - ys⟫ := by
    have hsplit : 2 • y₁ - s.y - ys = (2 : ℝ) • (y₁ - ys) - (s.y - ys) := by module
    rw [hsplit, inner_sub_right, real_inner_smul_right]
  -- what the energy loses is at least the energy of the difference of the two pairs
  have hchange : ⟪p.direct (x₁ - x₂), s.y - y₁⟫ =
      ⟪p.direct (x₁ - xs), s.y - ys⟫ - ⟪p.direct (x₁ - xs), y₁ - ys⟫ -
        (⟪p.direct (x₂ - xs), s.y - ys⟫ - ⟪p.direct (x₂ - xs), y₁ - ys⟫) := by
    rw [← inner_sub_right, ← inner_sub_right, sub_sub_sub_cancel_right, ← inner_sub_left,
      ← (Problem.isLinearMap_of_adjoint h.adjoint).map_sub, sub_sub_sub_cancel_right]
  have hloss := hnonneg (x₁ - x₂) (s.y - y₁)
  simp only [Extrapolated.energy, two_nsmul] at hloss ⊢
  rw [hahead] at hprimal
  rw [sub_div, sub_div] at hprimal hdual
  linarith

end SaddleProblem.Monotone

end

end Splitting
