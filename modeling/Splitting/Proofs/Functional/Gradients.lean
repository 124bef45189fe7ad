import Splitting.Proofs.Functional.OnPoints
import Splitting.Proofs.Operator.KnownNorms
import Splitting.Proofs.Operator.Norms

/-!
# `Splitting.Proofs.Functional.Gradients` — gradients and Lipschitz constants belong to the values

A squared distance and the least squares of an operator are `c ‖A x - b‖²`, with the identity for `A` in the
first. Value, gradient and Lipschitz constant are written apart. In exact arithmetic the gradient is the one of the
value, with the square of the image as the remainder; and where the norm of the operator is known in closed form,
the Lipschitz constant is the least one.

* `QuadraticTerm` — the two terms, as they are made;
* `QuadraticTerm.OnPoints`, `QuadraticTerm.exists_onPoints` — what they compute on points;
* `QuadraticTerm.gradient_and_lipschitz_of_value` — the gradient and the Lipschitz constant.
-/

namespace Splitting

open scoped RealInnerProductSpace

variable {n : ℕ}

/-- The gradient at `x` is `g`, in any buffer. -/
def Functional.GradientIs (f : Functional ℝ) (x g : Vec ℝ) : Prop :=
  ∀ out, out.length = x.length → f.gradientInto x out = .ok () g

theorem ComputesSmooth.gradientIs {f : Functional ℝ} {F : Space n → ℝ} {G : Space n → Space n}
    (h : ComputesSmooth (some f) F G) (x : Space n) : f.GradientIs (Vec.ofPoint x) (Vec.ofPoint (G x)) :=
  fun out hout => h.gradient x out (hout.trans (Vec.length_ofPoint x))

/-- The terms `c ‖A x - b‖²`: a squared distance, or the least squares of an operator, data and a scale. -/
inductive QuadraticTerm where
  | squaredDistance (f : SquaredDistance ℝ)
  | leastSquares (k : BasicOperator ℝ) (data : Vec ℝ) (c : ℝ)

namespace QuadraticTerm

/-- The operations of the term; least squares takes the norm of its operator when it is made. -/
noncomputable def functional? : QuadraticTerm → Option (Functional ℝ)
  | squaredDistance f => some f.functional
  | leastSquares k data c => LeastSquares.functional <$> LeastSquares.of? k.operator data c

/-- The factor `c`. -/
def scale : QuadraticTerm → ℝ
  | squaredDistance f => f.scale
  | leastSquares _ _ c => c

/-- `A x`. -/
noncomputable def image : QuadraticTerm → Vec ℝ → Vec ℝ
  | squaredDistance _, x => x
  | leastSquares k _ _, x => k.image x

/-- The term is one of vectors of length `n`. A single datum stands for all. -/
def Fits (n : ℕ) : QuadraticTerm → Prop
  | squaredDistance f => ∀ b ∈ f.center, b.length = n
  | leastSquares k data _ =>
    k.operator.domainDim = n ∧ (data.length = k.operator.rangeDim ∨ data.length = 1)

/-- The norm of `A` is known in closed form: all but dense matrices. -/
def ClosedNorm : QuadraticTerm → Prop
  | leastSquares (.matrix _) _ _ => False
  | leastSquares (.identity _) _ _ => True
  | leastSquares (.diagonal _) _ _ => True
  | squaredDistance _ => True

/-- `f` is made for the term, and computes `c ‖A x - b‖²` and `2 c B (A x - b)` on points; its Lipschitz constant is
    `2 c m²` where the norm `m` of `A` is known. -/
structure OnPoints (q : QuadraticTerm) (f : Functional ℝ) {r : ℕ} (A : Space n → Space r) (B : Space r → Space n)
    (b : Space r) : Prop where
  functional : q.functional? = some f
  computes : ComputesSmooth (some f) (fun x => q.scale * ‖A x - b‖ ^ 2) fun x => (q.scale + q.scale) • B (A x - b)
  adjoint : ∀ x y, ⟪A x, y⟫ = ⟪x, B y⟫
  image : ∀ x, Vec.ofPoint (A x) = q.image (Vec.ofPoint x)
  lipschitz : q.ClosedNorm → ∃ m, f.lipschitz = some ((q.scale + q.scale) * m * m) ∧
    GreatestStretch (fun x => B (A x)) (m * m)

variable {q : QuadraticTerm}

theorem exists_knownNorm {k : BasicOperator ℝ} {data : Vec ℝ} {c : ℝ} (h : (leastSquares k data c).ClosedNorm) :
    ∃ m, k.operator.knownNorm = some m := by
  cases k with
  | matrix a => exact h.elim
  | identity dim => exact ⟨_, rfl⟩
  | diagonal d => exact ⟨_, rfl⟩

/-- A dense matrix, the only operator whose norm is estimated, has an estimate. -/
theorem exists_norm (k : BasicOperator ℝ) : ∃ m, k.operator.norm? = some m := by
  refine LinearOperator.Responds.exists_norm fun hunknown => ?_
  cases k with
  | matrix a => exact LinearOperator.responds_matrix a
  | identity dim => cases hunknown
  | diagonal d => cases hunknown

/-- **What the terms compute on points.** -/
theorem exists_onPoints (hfit : q.Fits n) :
    ∃ (f : Functional ℝ) (r : ℕ) (A : Space n → Space r) (B : Space r → Space n) (b : Space r),
      q.OnPoints f A B b := by
  cases q with
  | squaredDistance f =>
    obtain ⟨b, hb⟩ := f.exists_center hfit
    refine ⟨f.functional, n, fun x => x, fun y => y, b, rfl, hb.computesSmooth, fun _ _ => rfl, fun _ => rfl, ?_⟩
    intro _
    refine ⟨1, ?_, ?_⟩
    · rw [mul_one, mul_one]
      rfl
    · exact (BasicOperator.identity n).greatestStretch rfl (fun _ => rfl) rfl
  | leastSquares k data c =>
    obtain ⟨hdim, hdata⟩ := hfit
    obtain ⟨m, hm⟩ := exists_norm k
    obtain ⟨A, B, hop, hA, hinner⟩ := k.adjointPair.exists_computes hdim
    obtain ⟨b, hb⟩ := SmoothTerm.exists_spread hdata
    obtain ⟨f, hf, hlipschitz, hcomputes⟩ := SmoothTerm.leastSquares_of_norm hop hm hb c
    refine ⟨f, _, A, B, b, hf, hcomputes, hinner, hA, fun hclosed => ?_⟩
    obtain ⟨m', hknown⟩ := exists_knownNorm hclosed
    have hsame : k.operator.norm? = some m' := by rw [LinearOperator.norm?, hknown]
    obtain rfl : m = m' := Option.some.inj (hm.symm.trans hsame)
    refine ⟨m, hlipschitz, BasicOperator.greatestStretch hdim (fun x => ?_) hknown⟩
    rw [hop.ofPoint_adjoint k.adjointPair, hA]

/-- The difference of two gradients is the image of the difference. -/
theorem OnPoints.gradient_sub {f : Functional ℝ} {r : ℕ} {A : Space n → Space r} {B : Space r → Space n}
    {b : Space r} (h : q.OnPoints f A B b) (x y : Space n) :
    (q.scale + q.scale) • B (A x - b) - (q.scale + q.scale) • B (A y - b) =
      (q.scale + q.scale) • B (A (x - y)) := by
  have hB := Problem.isLinearMap_of_adjoint (Problem.adjoint_symm h.adjoint)
  rw [← smul_sub, ← hB.map_sub, sub_sub_sub_cancel_right, (Problem.isLinearMap_of_adjoint h.adjoint).map_sub]

/-- **The gradient is that of the value, and the Lipschitz constant is the least one.** The value at `x + h` is the
    linear bound at `x` and `c ‖A h‖²`. If the scale is not negative and the norm of `A` is known in closed form, no two
    gradients are further apart than the Lipschitz constant allows, and some are just as far. -/
theorem gradient_and_lipschitz_of_value (hfit : q.Fits n) : ∃ f, q.functional? = some f ∧
    (∀ x h : Vec ℝ, x.length = n → h.length = n → ∃ v g, f.value x = some v ∧ f.GradientIs x g ∧
      f.value (List.zipWith (· + ·) x h) =
        some (v + Vec.pairing g h + q.scale * Vec.pairing (q.image h) (q.image h))) ∧
    (0 ≤ q.scale → q.ClosedNorm → ∃ l, f.lipschitz = some l ∧
      (∀ x y : Vec ℝ, x.length = n → y.length = n → ∃ g g', f.GradientIs x g ∧ f.GradientIs y g' ∧
        Vec.distance g g' ≤ l * Vec.distance x y) ∧
      (1 ≤ n → ∃ x y g g', x.length = n ∧ y.length = n ∧ x ≠ y ∧ f.GradientIs x g ∧ f.GradientIs y g' ∧
        Vec.distance g g' = l * Vec.distance x y)) := by
  obtain ⟨f, r, A, B, b, hf⟩ := exists_onPoints hfit
  refine ⟨f, hf.functional, fun x h hx hh => ?_, fun hscale hclosed => ?_⟩
  · obtain ⟨x, rfl⟩ := Vec.exists_ofPoint hx
    obtain ⟨h, rfl⟩ := Vec.exists_ofPoint hh
    refine ⟨_, _, hf.computes.value x, hf.computes.gradientIs x, ?_⟩
    have hsum : List.zipWith (· + ·) (Vec.ofPoint x) (Vec.ofPoint h) = Vec.ofPoint (x + h) :=
      Vec.zipWith_ofPoint fun _ => rfl
    have hvalue : f.value (Vec.ofPoint (x + h)) = some (q.scale * ‖A (x + h) - b‖ ^ 2) :=
      hf.computes.value (x + h)
    rw [hsum, hvalue, Problem.leastSquares_expand hf.adjoint q.scale b x (x + h), add_sub_cancel_left,
      Vec.pairing_ofPoint, ← hf.image, Vec.pairing_ofPoint_self]
  · obtain ⟨m, hl, hstretch⟩ := hf.lipschitz hclosed
    -- the gradients are as far apart as the image of the difference is long
    have hgradients := hstretch.smul (add_nonneg hscale hscale)
    rw [← mul_assoc] at hgradients
    refine ⟨_, hl, fun x y hx hy => ?_, fun hn => ?_⟩
    · obtain ⟨x, rfl⟩ := Vec.exists_ofPoint hx
      obtain ⟨y, rfl⟩ := Vec.exists_ofPoint hy
      refine ⟨_, _, hf.computes.gradientIs x, hf.computes.gradientIs y, ?_⟩
      rw [Vec.distance_ofPoint, Vec.distance_ofPoint, hf.gradient_sub]
      exact hgradients.le (x - y)
    · obtain ⟨x, hx, hattained⟩ := hgradients.attained hn
      refine ⟨Vec.ofPoint x, Vec.ofPoint (0 : Space n), _, _, Vec.length_ofPoint _, Vec.length_ofPoint _,
        Vec.ofPoint_injective.ne hx, hf.computes.gradientIs x, hf.computes.gradientIs 0, ?_⟩
      rw [Vec.distance_ofPoint, Vec.distance_ofPoint, hf.gradient_sub, sub_zero]
      exact hattained

/-- For `½ ‖A x - (5, 6)‖²` with the diagonal `(1, -3)` for `A`, the Lipschitz constant is nine. -/
theorem gradient_and_lipschitz_of_scaling : ∃ f : Functional ℝ,
    (leastSquares (.diagonal [1, -3]) [5, 6] (1 / 2)).functional? = some f ∧ f.lipschitz = some 9 ∧
    (∃ v g, f.value [1, 1] = some v ∧ f.GradientIs [1, 1] g ∧
      f.value [1, 2] = some (v + Vec.pairing g [0, 1] + 9 / 2)) ∧
    (∀ x y : Vec ℝ, x.length = 2 → y.length = 2 → ∃ g g', f.GradientIs x g ∧ f.GradientIs y g' ∧
      Vec.distance g g' ≤ 9 * Vec.distance x y) ∧
    ∃ x y g g', x.length = 2 ∧ y.length = 2 ∧ x ≠ y ∧ f.GradientIs x g ∧ f.GradientIs y g' ∧
      Vec.distance g g' = 9 * Vec.distance x y := by
  obtain ⟨f, hf, hgradient, hlipschitz⟩ :=
    gradient_and_lipschitz_of_value (q := leastSquares (.diagonal [1, -3]) [5, 6] (1 / 2)) (n := 2) ⟨rfl, Or.inl rfl⟩
  obtain ⟨l, hl, hbound, hattained⟩ := hlipschitz (by norm_num [scale]) trivial
  have hnine : f.lipschitz = some 9 := by
    rw [← Option.some.inj hf]
    show some ((1 / 2 + 1 / 2) * max (max 0 |(1 : ℝ)|) |-3| * max (max 0 |(1 : ℝ)|) |-3|) = some 9
    norm_num
  obtain rfl : l = 9 := Option.some.inj (hl.symm.trans hnine)
  obtain ⟨v, g, hv, hg, hsum⟩ := hgradient [1, 1] [0, 1] rfl rfl
  have hstep : List.zipWith (· + ·) [1, 1] [0, 1] = ([1, 2] : Vec ℝ) := by norm_num
  have hsquare : (leastSquares (.diagonal [1, -3]) [5, 6] (1 / 2)).scale *
      Vec.pairing (List.zipWith (· * ·) [1, -3] [0, 1]) (List.zipWith (· * ·) [1, -3] [0, 1]) = 9 / 2 := by
    norm_num [scale, Vec.pairing]
  refine ⟨f, hf, hnine, ⟨v, g, hv, hg, ?_⟩, hbound, hattained one_le_two⟩
  rw [← hstep, ← hsquare]
  exact hsum

end QuadraticTerm

end Splitting
