import Splitting.Operator.Norm
import Splitting.Proofs.Exact.Euclidean
import Splitting.Proofs.Operator.Adjoint

/-!
# `Splitting.Proofs.Operator.KnownNorms` — norms in closed form

Identities and diagonal scalings know their norms. In exact arithmetic what they know is the spectral norm: `Kᵀ K`
makes no vector longer than by the square of it, and some vector by exactly that.

* `GreatestStretch` — a bound for how much longer a map makes vectors, which is attained;
* `LinearOperator.knownNorm_diagonal` — the largest magnitude in a diagonal;
* `BasicOperator.greatestStretch` — the norms that are known.
-/

namespace Splitting

variable {n : ℕ}

/-- No vector gets longer than by the factor `s`, and unless there is only one vector, one does by just that. -/
structure GreatestStretch (T : Space n → Space n) (s : ℝ) : Prop where
  le : ∀ x, ‖T x‖ ≤ s * ‖x‖
  attained : 1 ≤ n → ∃ x, x ≠ 0 ∧ ‖T x‖ = s * ‖x‖

/-- A multiple of a map stretches by a multiple. -/
theorem GreatestStretch.smul {T : Space n → Space n} {s : ℝ} (h : GreatestStretch T s) {c : ℝ} (hc : 0 ≤ c) :
    GreatestStretch (fun x => c • T x) (c * s) := by
  have hnorm : ∀ x, ‖c • T x‖ = c * ‖T x‖ := by
    intro x
    rw [norm_smul, Real.norm_of_nonneg hc]
  refine ⟨fun x => ?_, fun hn => ?_⟩
  · rw [hnorm, mul_assoc]
    exact mul_le_mul_of_nonneg_left (h.le x) hc
  · obtain ⟨x, hx, hattained⟩ := h.attained hn
    refine ⟨x, hx, ?_⟩
    rw [hnorm, hattained, mul_assoc]

/-- The squares of some factors, the largest of which is `m` in magnitude, stretch by `m²`. -/
theorem greatestStretch_of_squares {T : Space n → Space n} {δ : Space n} {m : ℝ}
    (hT : ∀ x i, T x i = δ i * (δ i * x i)) (hle : ∀ i, |δ i| ≤ m) (hattained : 1 ≤ n → ∃ i, |δ i| = m) :
    GreatestStretch T (m * m) := by
  refine ⟨fun x => ?_, fun hn => ?_⟩
  · have hplace : ∀ i, ‖T x i‖ ^ 2 ≤ (m * m) ^ 2 * ‖x i‖ ^ 2 := by
      intro i
      have hsquare : δ i * δ i ≤ m * m := by
        rw [← abs_mul_abs_self (δ i)]
        exact mul_self_le_mul_self (abs_nonneg _) (hle i)
      rw [hT, ← mul_assoc, norm_mul, mul_pow, Real.norm_eq_abs (δ i * δ i), abs_mul_self]
      have hpos : 0 ≤ δ i * δ i := mul_self_nonneg _
      gcongr
    have hsquares : ‖T x‖ ^ 2 ≤ (m * m * ‖x‖) ^ 2 := by
      rw [mul_pow, EuclideanSpace.norm_sq_eq, EuclideanSpace.norm_sq_eq, Finset.mul_sum]
      exact Finset.sum_le_sum fun i _ => hplace i
    exact (sq_le_sq₀ (norm_nonneg _) (mul_nonneg (mul_self_nonneg m) (norm_nonneg _))).mp hsquares
  · -- the coordinate with the largest factor is stretched the most
    obtain ⟨i, hi⟩ := hattained hn
    refine ⟨EuclideanSpace.single i 1, by simp, ?_⟩
    have himage : T (EuclideanSpace.single i 1) = (m * m) • EuclideanSpace.single i (1 : ℝ) := by
      ext j
      rw [hT, PiLp.smul_apply, PiLp.single_apply, smul_eq_mul]
      split
      · next hj => rw [hj, mul_one, mul_one, ← abs_mul_abs_self, hi]
      · rw [mul_zero, mul_zero, mul_zero]
    rw [himage, norm_smul, Real.norm_of_nonneg (mul_self_nonneg m)]

/-- **The norm of a diagonal** is the largest magnitude in it. -/
theorem LinearOperator.knownNorm_diagonal (d : Vec ℝ) : ∃ m, (diagonal d).knownNorm = some m ∧
    (∀ a ∈ d, |a| ≤ m) ∧ (d ≠ [] → ∃ a ∈ d, |a| = m) := by
  have hfold : d.foldl (fun best a => max best |a|) 0 = (d.map (|·|)).foldl max 0 := List.foldl_map.symm
  refine ⟨_, congrArg some hfold, ?_⟩
  rw [List.foldl_max]
  cases hmax : (d.map (|·|)).max? with
  | none =>
    have hd : d = [] := List.map_eq_nil_iff.mp (List.max?_eq_none_iff.mp hmax)
    subst hd
    exact ⟨fun a ha => absurd ha List.not_mem_nil, fun h => absurd rfl h⟩
  | some m =>
    obtain ⟨hmem, hle⟩ := List.max?_eq_some_iff.mp hmax
    obtain ⟨a, ha, rfl⟩ := List.mem_map.mp hmem
    rw [Option.getD_some, max_eq_right (abs_nonneg a)]
    exact ⟨fun b hb => hle _ (List.mem_map_of_mem hb), fun _ => ⟨a, ha, rfl⟩⟩

namespace BasicOperator

/-- **A norm that is known is the spectral norm.** -/
theorem greatestStretch {k : BasicOperator ℝ} (hdim : k.operator.domainDim = n) {T : Space n → Space n}
    (hT : ∀ x, Vec.ofPoint (T x) = k.coimage (k.image (Vec.ofPoint x))) {m : ℝ}
    (hnorm : k.operator.knownNorm = some m) : GreatestStretch T (m * m) := by
  cases k with
  | matrix a => cases hnorm
  | identity dim =>
    cases hnorm
    have hid : ∀ x, T x = x := fun x => Vec.ofPoint_injective (hT x)
    refine greatestStretch_of_squares (δ := WithLp.toLp 2 fun _ => 1) (fun x i => ?_) (fun _ => abs_one.le)
      fun hn => ⟨⟨0, hn⟩, abs_one⟩
    rw [hid, one_mul, one_mul]
  | diagonal d =>
    obtain ⟨m', hm', hle, hattained⟩ := LinearOperator.knownNorm_diagonal d
    obtain rfl : m' = m := Option.some.inj (hm'.symm.trans hnorm)
    obtain ⟨δ, rfl⟩ := Vec.exists_ofPoint hdim
    have hscaled : ∀ x, T x = WithLp.toLp 2 fun i => δ i * (δ i * x i) := by
      intro x
      apply Vec.ofPoint_injective
      have honce : List.zipWith (· * ·) (Vec.ofPoint δ) (Vec.ofPoint x) =
          Vec.ofPoint (WithLp.toLp 2 fun i => δ i * x i) := Vec.zipWith_ofPoint fun _ => rfl
      rw [hT, coimage, image, honce]
      exact Vec.zipWith_ofPoint fun _ => rfl
    refine greatestStretch_of_squares (δ := δ) (fun x i => ?_) (fun i => ?_) fun hn => ?_
    · rw [hscaled]
    · exact hle _ (List.mem_ofFn.mpr ⟨i, rfl⟩)
    · have hne : Vec.ofPoint δ ≠ [] := List.ne_nil_of_length_pos (hn.trans_eq (Vec.length_ofPoint δ).symm)
      obtain ⟨a, ha, habs⟩ := hattained hne
      obtain ⟨i, rfl⟩ := List.mem_ofFn.mp ha
      exact ⟨i, habs⟩

end BasicOperator

end Splitting
