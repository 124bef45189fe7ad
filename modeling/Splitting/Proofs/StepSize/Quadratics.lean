import Splitting.Proofs.Functional.Gradients
import Splitting.Proofs.StepSize.Backtracking

/-!
# `Splitting.Proofs.StepSize.Quadratics` — searches along the gradient of a quadratic term

Along its own gradient `g`, a term `c ‖A x - b‖²` changes by `-a ‖g‖² + c a² ‖A g‖²` with the step `a`. In exact
arithmetic the step is therefore enough if and only if `2 c a ‖A g‖² ≤ ‖g‖²`, and every step up to the inverse of the
curvature is. So a search goes no further than one factor below it, and fails only if its budget ends before.

* `QuadraticTerm.IsSearched` — a search for a term along its gradient;
* `QuadraticTerm.IsSearched.exists_trial`, `QuadraticTerm.IsSearched.admits_iff` — the change, and the steps that are
  enough;
* `QuadraticTerm.IsSearched.admits_of_le`, `QuadraticTerm.IsSearched.admits_iff_of_squaredDistance` — short steps, and
  the steps for a squared distance;
* `armijo_on_quadratics` — the main statement.
-/

namespace Splitting

open scoped RealInnerProductSpace

namespace QuadraticTerm

/-- The term, with a positive factor, is searched along its own gradient, and `L` bounds its curvature. The Lipschitz
    constant that it reports may be any. -/
structure IsSearched (q : QuadraticTerm) (ctx : StepContext ℝ) (L : ℝ) : Prop where
  fits : q.Fits ctx.point.length
  scale_pos : 0 < q.scale
  smooth : ∃ f l, q.functional? = some f ∧ ctx.smooth = some { f with lipschitz := l } ∧
    f.GradientIs ctx.point ctx.gradient
  bound_pos : 0 < L
  bound : ∀ h, h.length = ctx.point.length →
    2 * q.scale * Vec.pairing (q.image h) (q.image h) ≤ L * Vec.pairing h h

namespace IsSearched

variable {q : QuadraticTerm} {ctx : StepContext ℝ} {L a : ℝ}

/-- What is searched, on points. -/
theorem exists_onPoints (h : q.IsSearched ctx L) : ∃ (n r : ℕ) (f : Functional ℝ) (A : Space n → Space r)
    (B : Space r → Space n) (b : Space r) (x : Space n), q.OnPoints f A B b ∧ ctx.point = Vec.ofPoint x ∧
      ctx.gradient = Vec.ofPoint ((q.scale + q.scale) • B (A x - b)) ∧
      ∀ y, valueOrZero ctx.smooth (Vec.ofPoint y) = some (q.scale * ‖A y - b‖ ^ 2) := by
  obtain ⟨f, l, hf, hsmooth, hgradient⟩ := h.smooth
  obtain ⟨f', r, A, B, b, honPoints⟩ := QuadraticTerm.exists_onPoints h.fits
  obtain ⟨x, hx⟩ := Vec.exists_ofPoint (Eq.refl ctx.point.length)
  obtain rfl : f' = f := Option.some.inj (honPoints.functional.symm.trans hf)
  refine ⟨_, r, f', A, B, b, x, honPoints, hx.symm, ?_, fun y => ?_⟩
  · have hzeros : (Vec.zeros ctx.point.length : Vec ℝ).length = ctx.point.length := Vec.length_zeros _
    have hcomputed := honPoints.computes.gradientIs x _ (hzeros.trans (Vec.length_ofPoint x).symm)
    rw [hx, hgradient _ hzeros] at hcomputed
    exact (Outcome.ok.inj hcomputed).2
  · rw [hsmooth]
    exact honPoints.computes.value y

/-- Every step has a trial. -/
theorem evaluates (h : q.IsSearched ctx L) : ctx.Evaluates := by
  obtain ⟨n, r, f, A, B, b, x, -, hx, hg, hvalue⟩ := h.exists_onPoints
  have hlength : ctx.point.length = n := by
    rw [hx, Vec.length_ofPoint]
  refine ⟨?_, fun y hy => ?_⟩
  · rw [hg, hlength, Vec.length_ofPoint]
  · obtain ⟨p, rfl⟩ := Vec.exists_ofPoint (hy.trans hlength)
    exact ⟨_, hvalue p⟩

/-- **The change** of the term along its gradient. -/
theorem exists_trial (h : q.IsSearched ctx L) (a : ℝ) : ∃ trial fx fTrial, ctx.Trial a trial fx fTrial ∧
    fTrial - fx = -(a * ctx.gradient.normSq) +
      q.scale * (a ^ 2 * Vec.pairing (q.image ctx.gradient) (q.image ctx.gradient)) := by
  obtain ⟨n, r, f, A, B, b, x, honPoints, hx, hg, hvalue⟩ := h.exists_onPoints
  let g : Space n := (q.scale + q.scale) • B (A x - b)
  have htrial : ctx.Trial a (Vec.ofPoint (x - a • g)) (q.scale * ‖A x - b‖ ^ 2)
      (q.scale * ‖A (x - a • g) - b‖ ^ 2) := by
    refine ⟨?_, ?_, hvalue _⟩
    · rw [hx]
      exact hvalue x
    · rw [hx, hg]
      exact Vec.zip?_ofPoint fun _ => rfl
  refine ⟨_, _, _, htrial, ?_⟩
  have hstep : x - a • g - x = -a • g := by
    rw [sub_sub_cancel_left, neg_smul]
  have hexpand := Problem.leastSquares_expand honPoints.adjoint q.scale b x (x - a • g)
  rw [hstep, (Problem.isLinearMap_of_adjoint honPoints.adjoint).map_smul, norm_smul, mul_pow, Real.norm_eq_abs,
    abs_neg, sq_abs] at hexpand
  have hinner : ⟪(q.scale + q.scale) • B (A x - b), -a • g⟫ = -(a * ‖g‖ ^ 2) := by
    rw [real_inner_smul_right, real_inner_self_eq_norm_sq, neg_mul]
  rw [hexpand, hinner, hg, Vec.normSq_eq_pairing, Vec.pairing_ofPoint_self, ← honPoints.image,
    Vec.pairing_ofPoint_self]
  ring

/-- **The steps that are enough.** -/
theorem admits_iff (h : q.IsSearched ctx L) (ha : 0 < a) : ctx.Admits a ↔
    a * (2 * q.scale * Vec.pairing (q.image ctx.gradient) (q.image ctx.gradient)) ≤ ctx.gradient.normSq := by
  obtain ⟨trial, fx, fTrial, htrial, hchange⟩ := h.exists_trial a
  let curvature := 2 * q.scale * Vec.pairing (q.image ctx.gradient) (q.image ctx.gradient)
  -- the two sides differ by half of the step times those of the test
  have hdifference : -(0.5 * a) * ctx.gradient.normSq - (fTrial - fx) =
      a / 2 * (ctx.gradient.normSq - a * curvature) := by
    rw [hchange]
    ring
  rw [htrial.admits_iff, ← sub_nonneg, hdifference, mul_nonneg_iff_of_pos_left (half_pos ha), sub_nonneg]

/-- **Steps up to the inverse of the curvature are enough,** the inverse included. -/
theorem admits_of_le (h : q.IsSearched ctx L) (ha : 0 < a) (hle : a ≤ 1 / L) : ctx.Admits a := by
  have hnormSq : ctx.gradient.normSq = Vec.pairing ctx.gradient ctx.gradient := Vec.normSq_eq_pairing _
  rw [h.admits_iff ha]
  calc a * (2 * q.scale * Vec.pairing (q.image ctx.gradient) (q.image ctx.gradient))
      ≤ a * (L * Vec.pairing ctx.gradient ctx.gradient) :=
        mul_le_mul_of_nonneg_left (h.bound _ h.evaluates.length_eq.symm) ha.le
    _ = a * L * ctx.gradient.normSq := by rw [hnormSq, mul_assoc]
    _ ≤ 1 * ctx.gradient.normSq :=
        mul_le_mul_of_nonneg_right ((le_div_iff₀ h.bound_pos).mp hle) (Vec.normSq_nonneg _)
    _ = ctx.gradient.normSq := one_mul _

/-- **For a squared distance** whose gradient is not zero, no others are. -/
theorem admits_iff_of_squaredDistance {f : SquaredDistance ℝ} (h : (squaredDistance f).IsSearched ctx L)
    (hgradient : ctx.gradient ≠ Vec.zeros ctx.gradient.length) (ha : 0 < a) :
    ctx.Admits a ↔ a ≤ 1 / (2 * f.scale) := by
  have hscale : 0 < 2 * f.scale := mul_pos two_pos h.scale_pos
  have hpos : 0 < ctx.gradient.normSq := by
    obtain ⟨g, hg⟩ := Vec.exists_ofPoint (Eq.refl ctx.gradient.length)
    have hne : g ≠ 0 := by
      intro hzero
      apply hgradient
      rw [Vec.zeros_eq_ofPoint, ← hzero, hg]
    rw [← hg, Vec.normSq_eq_pairing, Vec.pairing_ofPoint_self]
    exact pow_pos (norm_pos_iff.mpr hne) 2
  rw [h.admits_iff ha, le_div_iff₀ hscale]
  show a * (2 * f.scale * Vec.pairing ctx.gradient ctx.gradient) ≤ _ ↔ _
  rw [← Vec.normSq_eq_pairing, ← mul_assoc]
  exact mul_le_iff_le_one_left hpos

end IsSearched

end QuadraticTerm

/-- **Searches along the gradient of a quadratic term,** in exact arithmetic: of a squared distance, or of the least
    squares of a matrix, an identity or a diagonal scaling. Let `2 c ‖A h‖² ≤ L ‖h‖²` for all `h`, and let the rule be
    any that can be made.

    * Every trial step up to `1 / L` is enough.
    * The search answers the first step or a step above `beta / L`. It fails only if no trial is allowed, or if the
      last one that is allowed is still above `1 / L`.
    * For a squared distance whose gradient is not zero, the steps up to `1 / (2 c)` are enough, and no others. -/
theorem armijo_on_quadratics {q : QuadraticTerm} {ctx : StepContext ℝ} {L : ℝ} {rule : Armijo ℝ}
    (h : q.IsSearched ctx L) (hmade : rule.Made) :
    (∀ a, 0 < a → a ≤ 1 / L → ctx.Admits a) ∧
    ((∃ a rule', rule.query ctx = .ok a rule' ∧ (a = rule.alpha ∨ rule.beta / L < a)) ∨
      ∃ rule', rule.query ctx = .error (.stepSizeSearchFailed rule.maxTrials) rule' ∧
        (rule.maxTrials = 0 ∨ 1 / L < rule.alpha * rule.beta ^ (rule.maxTrials - 1))) ∧
    ∀ f, q = .squaredDistance f → ctx.gradient ≠ Vec.zeros ctx.gradient.length →
      ∀ a, 0 < a → (ctx.Admits a ↔ a ≤ 1 / (2 * f.scale)) := by
  have hlong : ∀ k, ¬ ctx.Admits (rule.trialStep k) → 1 / L < rule.trialStep k := fun k hnot =>
    not_le.mp fun hle => hnot (h.admits_of_le (hmade.trialStep_pos k) hle)
  refine ⟨fun a ha hle => h.admits_of_le ha hle, ?_, ?_⟩
  · obtain ⟨k, hk, hearlier, -, trial, hok⟩ | ⟨hnone, trial, herror⟩ := Armijo.query_cases h.evaluates rule
    · refine Or.inl ⟨_, _, hok, ?_⟩
      cases k with
      | zero => exact Or.inl rfl
      | succ k =>
        -- the step before it was too long
        have hbefore : 1 / L < rule.trialStep k := hlong k (hearlier k (Nat.lt_succ_self k))
        refine Or.inr ?_
        rw [rule.trialStep_succ, div_eq_mul_one_div, mul_comm]
        exact mul_lt_mul_of_pos_right hbefore hmade.pos.2
    · refine Or.inr ⟨_, herror, ?_⟩
      cases hmax : rule.maxTrials with
      | zero => exact Or.inl rfl
      | succ k =>
        refine Or.inr ?_
        rw [Nat.add_sub_cancel, ← rule.trialStep_eq]
        exact hlong k (hnone k (hmax ▸ Nat.lt_succ_self k))
  · rintro f rfl hgradient a ha
    exact h.admits_iff_of_squaredDistance hgradient ha

/-- The squared distance from `(1, -1, 3)`, searched from `(4, 2, 0)` with the standard rule, which does not fail. -/
theorem armijo_on_quadratics_in_space : ∃ ctx : StepContext ℝ,
    (QuadraticTerm.squaredDistance ⟨1, some [1, -1, 3]⟩).IsSearched ctx 2 ∧ (Armijo.standard : Armijo ℝ).Made ∧
      ctx.Admits (1 / 2) ∧ (∀ a, 0 < a → (ctx.Admits a ↔ a ≤ 1 / (2 * 1))) ∧
      ∃ a rule', Armijo.standard.query ctx = .ok a rule' ∧ (a = ((1000000 : ℕ) : ℝ) ∨ 0.5 / 2 < a) := by
  let f : SquaredDistance ℝ := ⟨1, some [1, -1, 3]⟩
  let ctx : StepContext ℝ := ⟨0, some f.functional, [4, 2, 0], [6, 6, -6]⟩
  have hgradient : f.functional.GradientIs [4, 2, 0] [6, 6, -6] := by
    intro out hout
    have hentries : f.gradient? [4, 2, 0] = some [6, 6, -6] := by
      norm_num [f, SquaredDistance.gradient?, SquaredDistance.entries, Vec.zip?]
    refine Functional.sameLength_eq_ok_iff.mpr ⟨?_, hout.symm⟩
    show Functional.overwrite out (f.gradient? [4, 2, 0]) = _
    rw [hentries]
    exact Functional.overwrite_eq_ok_iff.mpr ⟨rfl, hout.symm⟩
  have hsearched : (QuadraticTerm.squaredDistance f).IsSearched ctx 2 := by
    refine ⟨?_, one_pos, ⟨f.functional, f.functional.lipschitz, rfl, rfl, hgradient⟩, two_pos, fun h _ => ?_⟩
    · rintro b ⟨⟩
      rfl
    · show 2 * 1 * Vec.pairing h h ≤ 2 * Vec.pairing h h
      rw [mul_one]
  have hmade : (Armijo.standard : Armijo ℝ).Made := .standard
  obtain ⟨hadmits, hquery, hiff⟩ := armijo_on_quadratics hsearched hmade
  have hne : ctx.gradient ≠ Vec.zeros ctx.gradient.length := by
    norm_num [ctx, Vec.zeros, List.replicate]
  refine ⟨ctx, hsearched, hmade, hadmits _ (by norm_num) (le_refl _), hiff f rfl hne, ?_⟩
  refine hquery.resolve_right ?_
  rintro ⟨rule', -, hmax | hlong⟩
  · cases hmax
  · norm_num [Armijo.standard] at hlong

end Splitting
