import Splitting.Proofs.ForwardBackward.Descent

/-!
# `Splitting.Proofs.ForwardBackward.FixedPoints` — where proximal gradient descent stops moving

In exact arithmetic, with a constant step of whatever length, an iteration of proximal gradient descent leads
back to the solution it started from exactly if that is a minimiser of the objective. No certificate is needed
for this: too long a step spoils the descent, but moves no minimiser.

* `Terms.ConvexTerms`, `Terms.ConvexTerms.exists_problem` — terms of this library that are absent or convex;
* `ista_stays_iff_isMinimiser` — the main statement.
-/

namespace Splitting

variable {ρ π : Type} [StepRule ρ ℝ] {n : ℕ}

/-- Functions of this library of vectors of length `n`, absent or convex, with the constant step `a` and no
    preconditioner. -/
structure Terms.ConvexTerms (t : Terms ℝ ρ π) (n : ℕ) (a : ℝ) (f : Option SmoothTerm)
    (g : Option (BasicTerm ℝ)) : Prop where
  smooth : t.smooth = f.map SmoothTerm.functional
  proximable : t.proximable = g.map BasicTerm.functional
  constant : StepRule.constant? t.rule = some a
  preconditioner : t.preconditioner = none
  smooth_convex : ∀ s ∈ f, s.IsConvex n
  proximable_convex : ∀ s ∈ g, s.IsConvex ∧ s.Fits n

/-- Such terms are those of a convex problem. -/
theorem Terms.ConvexTerms.exists_problem {t : Terms ℝ ρ π} {a : ℝ} {f : Option SmoothTerm}
    {g : Option (BasicTerm ℝ)} (h : t.ConvexTerms n a f g) :
    ∃ (p : Problem (Space n)) (L : ℝ), p.Convex L ∧ t.Computes p a := by
  have hF : ∃ F G L, ComputesSmooth (n := n) t.smooth F G ∧ Problem.Smooth F G L := by
    rw [h.smooth]
    cases f with
    | none => exact ⟨_, _, 0, computesSmooth_none, Problem.smooth_zero le_rfl⟩
    | some f => exact SmoothTerm.exists_smooth_of_isConvex (h.smooth_convex f rfl)
  obtain ⟨F, G, L, hcomputesF, hFG⟩ := hF
  obtain ⟨H, P, hcomputesH, hHP⟩ := exists_proximable h.proximable_convex
  rw [← h.proximable] at hcomputesH
  exact ⟨⟨F, G, H, P⟩, L, ⟨hFG, hHP⟩, hcomputesF, hcomputesH, h.constant, h.preconditioner⟩

/-- A point at which the objective of the problem is least. -/
theorem Terms.Computes.isMinimiser_iff {t : Terms ℝ ρ π} {p : Problem (Space n)} {a : ℝ} (h : t.Computes p a)
    {x : Space n} : t.IsMinimiser n (Vec.ofPoint x) ↔ p.IsMinimiser x := by
  constructor
  · intro hx
    exact hx.onPoints h
  · intro hx
    refine ⟨Vec.length_ofPoint x, fun u v w hu hv hw => ?_⟩
    obtain ⟨u, rfl⟩ := Vec.exists_ofPoint hu
    rw [h.objective, Option.some.injEq] at hv hw
    rw [← hv, ← hw]
    exact hx u

/-- **Proximal gradient descent stops moving exactly at minimisers.** With convex terms and any constant step
    `a > 0`, an iteration from the solution `x` succeeds, whatever its buffers held, and the exchange after it
    makes `x` the solution again if and only if `x` is a minimiser of the objective, which has a value at every
    vector of that length. -/
theorem ista_stays_iff_isMinimiser [LawfulStepRule ρ] [Preconditioner π ℝ] {m : Ista ℝ ρ π}
    {f : Option SmoothTerm} {g : Option (BasicTerm ℝ)} {a : ℝ} {x : Vec ℝ}
    (hterms : m.state.terms.ConvexTerms x.length a f g) (ha : 0 < a) (hx : m.state.solution = x)
    (hnext : m.state.next.length = x.length) (hgradient : m.state.gradient.length = x.length) :
    ∃ m', Iterative.update m = .ok () m' ∧
      (∀ u, u.length = x.length → ∃ v, m.state.terms.objective u = some v) ∧
      (Iterative.solution (Iterative.exchange m') = x ↔ m.state.terms.IsMinimiser x.length x) := by
  obtain ⟨p, L, hconvex, hcomputes⟩ := hterms.exists_problem
  obtain ⟨z, hz⟩ := Vec.exists_ofPoint (rfl : x.length = x.length)
  have hpoint : m.state.AtPoint p a z m.state.iteration :=
    ⟨rfl, hx.trans hz.symm, hcomputes, hnext, hgradient⟩
  obtain ⟨m', hu, hm', -⟩ := Ista.update_atPoint hpoint ha
  refine ⟨m', hu, fun u hu => ?_, ?_⟩
  · obtain ⟨u, rfl⟩ := Vec.exists_ofPoint hu
    exact ⟨_, hcomputes.objective u⟩
  · have hsolution : Iterative.solution (Iterative.exchange m') = Vec.ofPoint (p.step a z) := hm'.solution
    have hstay : Vec.ofPoint (p.step a z) = x ↔ p.step a z = z := by
      rw [← Vec.ofPoint_injective.eq_iff, hz]
    have hleast : m.state.terms.IsMinimiser x.length x ↔ p.IsMinimiser z := by
      rw [← hcomputes.isMinimiser_iff, hz]
    rw [hsolution, hstay, hleast, hconvex.step_eq_iff ha]

theorem convexTerms_regressionState (factor start : ℝ) : (regressionState factor start).terms.ConvexTerms 1
    (factor / 18) (some (.leastSquares lineMisfit)) (some (.oneNorm ⟨1⟩)) := by
  refine ⟨rfl, rfl, rfl, rfl, ?_, ?_⟩
  · rintro s ⟨⟩
    exact ⟨zero_le_one, rfl, Or.inl rfl, _, _, (BasicOperator.matrix ⟨1, [[3]], by simp⟩).adjointPair⟩
  · rintro s ⟨⟩
    exact ⟨zero_le_one, trivial⟩

theorem objective_regressionState (factor start v : ℝ) :
    (regressionState factor start).terms.objective [v] = some ((3 * v - 6) ^ 2 + |v|) := by
  have hmisfit : lineMisfit.value? [v] = some ((3 * v - 6) ^ 2) := by
    simp [LeastSquares.value?, LeastSquares.residual?, lineMisfit, LinearOperator.directInto,
      LinearOperator.matrix, Matrix.mulVec?, Vec.dot?_eq_pairing, Vec.pairing, Vec.write?, Vec.zeros,
      Vec.spread?, Vec.zip?, Vec.normSq_eq_pairing, pow_two]
  have hnorm : (OneNorm.functional (⟨1⟩ : OneNorm ℝ)).value [v] = some |v| := by
    simp [OneNorm.functional, OneNorm.value, Functional.ofProximal]
  exact Terms.objective_eq_some_iff.mpr ⟨_, _, hmisfit, hnorm, rfl⟩

/-- With a step far beyond the bound, the minimiser of `(3 x - 6)² + |x|` still stays where it is. -/
theorem ista_stays_iff_isMinimiser_on_the_line :
    ∃ m', (regressionState 18 (35 / 18)).terms.ConvexTerms 1 (18 / 18) (some (.leastSquares lineMisfit))
        (some (.oneNorm ⟨1⟩)) ∧
      Iterative.update (Ista.mk (regressionState 18 (35 / 18))) = .ok () m' ∧
      (regressionState 18 (35 / 18)).terms.IsMinimiser 1 [35 / 18] ∧
      Iterative.solution (Iterative.exchange m') = [35 / 18] := by
  have hterms := convexTerms_regressionState 18 (35 / 18)
  have hleast : (regressionState 18 (35 / 18)).terms.IsMinimiser 1 [35 / 18] := by
    refine ⟨rfl, fun u v w hu hv hw => ?_⟩
    obtain ⟨b, rfl⟩ := List.length_eq_one_iff.mp hu
    rw [objective_regressionState, Option.some.injEq] at hv hw
    rw [← hv, ← hw, abs_of_pos (by norm_num)]
    -- both sides differ by a square, up to the sign of `b`
    have hsquare := sq_nonneg (b - 35 / 18)
    linarith [le_abs_self b]
  have hpositive : (0 : ℝ) < 18 / 18 := by norm_num
  obtain ⟨m', hu, -, hstay⟩ := ista_stays_iff_isMinimiser (m := ⟨regressionState 18 (35 / 18)⟩)
    (x := [35 / 18]) hterms hpositive rfl rfl rfl
  exact ⟨m', hterms, hu, hleast, hstay.mpr hleast⟩

end Splitting
