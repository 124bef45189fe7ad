import Splitting.Proofs.Convex.Saddle
import Splitting.Proofs.Functional.OnPoints

/-!
# `Splitting.Proofs.Functional.ProximalMinimum` — what the closed proximal maps minimise

A proximal map is defined as the point at which `τ · f u + ½ ‖u - x‖²` is least. One-norms and squared distances
have closed forms of it, which are written apart from their values. In exact arithmetic the two belong together:
the objective at another point exceeds the one at the output of the closed form by half the square of the
distance at least.

* `Problem.Subgradient.objective_le` — the inequality, from the subgradient that the displacement is;
* `BasicTerm.closed_proximal_is_least` — the output of a closed form is the only minimiser.
-/

namespace Splitting

open scoped RealInnerProductSpace

/-- **Where a proximal map leads, the objective is least,** and it grows with the square of the distance. -/
theorem Problem.Subgradient.objective_le {E : Type} [NormedAddCommGroup E] [InnerProductSpace ℝ E]
    {H : E → ℝ} {P : ℝ → E → E} (h : Subgradient H P) {a : ℝ} (ha : 0 < a) (x u : E) :
    a * H (P a x) + ‖P a x - x‖ ^ 2 / 2 + ‖u - P a x‖ ^ 2 / 2 ≤ a * H u + ‖u - x‖ ^ 2 / 2 := by
  have hbelow := h a ha x u
  have hsquares := two_inner_sub_sub u (P a x) x
  have hturned : ⟪x - P a x, u - P a x⟫ = -⟪u - P a x, P a x - x⟫ := by
    rw [← neg_sub (P a x) x, inner_neg_left, real_inner_comm]
  rw [hturned] at hbelow
  linarith

namespace BasicTerm

/-- **The closed proximal maps are minimisers, and the only ones,** of `τ · f u + ½ ‖u - x‖²`, with the value that is
    computed for `f u`. -/
theorem closed_proximal_is_least {t : BasicTerm ℝ} {n : ℕ} {x out : Vec ℝ} {tau : ℝ} (ht : t.IsConvex)
    (hfit : t.Fits n) (htau : 0 < tau) (hx : x.length = n) (hout : out.length = n) :
    ∃ p v, t.functional.proximalInto x tau out = .ok () p ∧ p.length = n ∧ t.functional.value p = some v ∧
      ∀ u, u.length = n → ∃ w, t.functional.value u = some w ∧
        tau * v + Vec.distance p x ^ 2 / 2 + Vec.distance u p ^ 2 / 2 ≤ tau * w + Vec.distance u x ^ 2 / 2 ∧
        (tau * w + Vec.distance u x ^ 2 / 2 ≤ tau * v + Vec.distance p x ^ 2 / 2 → u = p) := by
  obtain ⟨H, P, hcomputes, hsub⟩ := exists_subgradient ht hfit
  obtain ⟨x, rfl⟩ := Vec.exists_ofPoint hx
  refine ⟨_, _, hcomputes.proximal tau x out htau hout, Vec.length_ofPoint _, hcomputes.value _, fun u hu => ?_⟩
  obtain ⟨u, rfl⟩ := Vec.exists_ofPoint hu
  have hle := hsub.objective_le htau x u
  refine ⟨_, hcomputes.value u, ?_, fun hleast => congrArg Vec.ofPoint ?_⟩
  · rwa [Vec.distance_ofPoint, Vec.distance_ofPoint, Vec.distance_ofPoint]
  · -- an objective that is no larger leaves no room for a distance
    rw [Vec.distance_ofPoint, Vec.distance_ofPoint] at hleast
    have hzero : ‖u - P tau x‖ ^ 2 = 0 := by
      refine le_antisymm ?_ (sq_nonneg _)
      linarith
    rwa [sq_eq_zero_iff, norm_sub_eq_zero_iff] at hzero

/-- Thresholding at two takes `(3, -1)` to `(1, 0)`, where the objective is `9/2`. -/
theorem closed_proximal_of_oneNorm :
    (oneNorm (⟨1⟩ : OneNorm ℝ)).functional.proximalInto [3, -1] 2 [0, 0] = .ok () [1, 0] ∧
      ∀ u, u.length = 2 → ∃ w, (oneNorm ⟨1⟩).functional.value u = some w ∧
        9 / 2 + Vec.distance u [1, 0] ^ 2 / 2 ≤ 2 * w + Vec.distance u [3, -1] ^ 2 / 2 ∧
        (2 * w + Vec.distance u [3, -1] ^ 2 / 2 ≤ 9 / 2 → u = [1, 0]) := by
  have houtput : (oneNorm (⟨1⟩ : OneNorm ℝ)).functional.proximalInto [3, -1] 2 [0, 0] = .ok () [1, 0] := by
    have hentries : List.map (OneNorm.softThreshold (2 * 1)) [3, -1] = ([1, 0] : Vec ℝ) := by
      norm_num [OneNorm.softThreshold, scalar_signum, scalar_abs, scalar_max]
    refine Functional.sameLength_eq_ok_iff.mpr ⟨?_, rfl⟩
    exact Functional.overwrite_eq_ok_iff.mpr ⟨congrArg some hentries, rfl⟩
  have hvalue : (oneNorm ⟨1⟩).functional.value [1, 0] = some (1 : ℝ) := by
    refine congrArg some ?_
    norm_num [OneNorm.value, scalar_abs]
  have hobjective : 2 * 1 + Vec.distance [1, 0] [3, -1] ^ 2 / 2 = (9 / 2 : ℝ) := by
    rw [Vec.distance, Real.sq_sqrt (by norm_num [Vec.pairing])]
    norm_num [Vec.pairing]
  have hout : ([0, 0] : Vec ℝ).length = 2 := rfl
  obtain ⟨p, v, hp, -, hv, hall⟩ :=
    closed_proximal_is_least (t := oneNorm ⟨1⟩) (x := [3, -1]) zero_le_one trivial two_pos rfl hout
  cases houtput.symm.trans hp
  cases hvalue.symm.trans hv
  rw [hobjective] at hall
  exact ⟨houtput, hall⟩

end BasicTerm

end Splitting
