import Splitting.Proofs.ForwardBackward.Step
import Splitting.Proofs.Functional.OnPoints
import Splitting.StepSize.Armijo

/-!
# `Splitting.Proofs.ForwardBackward.ExactStep` — forward-backward steps in exact arithmetic

With the terms of this library, a constant step and no preconditioner, a step of the program is the proximal
gradient step of a convex problem on Euclidean space, whatever its buffers held before, and it cannot fail.

* `LawfulStepRule` — a rule that reports a constant step answers it;
* `Terms.Computes` — terms that compute a problem on points, with a constant step;
* `Composite.AtPoint`, `Stepping.step_ofPoint` — a state whose solution is a point, and a step from a point;
* `Terms.WithinBound`, `Terms.Flat`, `Terms.exists_withinBound` — what a positive certificate says;
* `Setup.ConvexData`, `Setup.exists_problem` — the problem of a setup, and its Lipschitz constant.
-/

namespace Splitting

/-! ## Constant rules -/

/-- A rule that reports a constant step answers it whenever it is asked, and goes on to report it. -/
class LawfulStepRule (ρ : Type) {S : outParam Type} [StepRule ρ S] : Prop where
  query_of_constant : ∀ {r : ρ} {a : S} (ctx : StepContext S), StepRule.constant? r = some a →
    ∃ r', StepRule.query r ctx = .ok a r' ∧ StepRule.constant? r' = some a

instance {S : Type} : LawfulStepRule (ConstantStep S) where
  query_of_constant := by
    rintro r a ctx ⟨⟩
    exact ⟨r, rfl, rfl⟩

instance {S : Type} [Scalar S] : LawfulStepRule (Armijo S) where
  query_of_constant := nofun

instance {S ρ : Type} [StepRule ρ S] [LawfulStepRule ρ] : LawfulStepRule (StepChoice S ρ) where
  query_of_constant := by
    intro r a ctx h
    cases r with
    | fixed step =>
      obtain ⟨step', hquery, hconstant⟩ := LawfulStepRule.query_of_constant (r := step) ctx h
      exact ⟨.fixed step', Outcome.mapState_eq_ok_iff.mpr ⟨step', hquery, rfl⟩, hconstant⟩
    | adaptive rule =>
      obtain ⟨rule', hquery, hconstant⟩ := LawfulStepRule.query_of_constant (r := rule) ctx h
      exact ⟨.adaptive rule', Outcome.mapState_eq_ok_iff.mpr ⟨rule', hquery, rfl⟩, hconstant⟩

variable {ρ π : Type} [StepRule ρ ℝ] {n : ℕ}

/-! ## A step -/

/-- Terms that compute the problem `p` on points, with the constant step `a` and no preconditioner. -/
structure Terms.Computes (t : Terms ℝ ρ π) (p : Problem (Space n)) (a : ℝ) : Prop where
  smooth : ComputesSmooth t.smooth p.smooth p.gradient
  proximable : ComputesProximable t.proximable p.proximable p.proximal
  constant : StepRule.constant? t.rule = some a
  preconditioner : t.preconditioner = none

omit [StepRule ρ ℝ] in
theorem Terms.objective_eq_some_iff {t : Terms ℝ ρ π} {x : Vec ℝ} {v : ℝ} : t.objective x = some v ↔
    ∃ f g, valueOrZero t.smooth x = some f ∧ valueOrZero t.proximable x = some g ∧ f + g = v := by
  simp only [objective, Option.bind_eq_bind, Option.bind_eq_some_iff, Option.pure_def, Option.some.injEq]
  constructor
  · rintro ⟨f, hf, g, hg, hv⟩
    exact ⟨f, g, hf, hg, hv⟩
  · rintro ⟨f, g, hf, hg, hv⟩
    exact ⟨f, hf, g, hg, hv⟩

/-- The objective at a point. -/
theorem Terms.Computes.objective {t : Terms ℝ ρ π} {p : Problem (Space n)} {a : ℝ} (h : t.Computes p a)
    (x : Space n) : t.objective (Vec.ofPoint x) = some (p.objective x) :=
  Terms.objective_eq_some_iff.mpr ⟨_, _, h.smooth.value x, h.proximable.value x, rfl⟩

/-- The solution is the point `x` after `k` iterations. Of the buffers only the lengths are known. -/
structure Composite.AtPoint (c : Composite ℝ ρ π) (p : Problem (Space n)) (a : ℝ) (x : Space n) (k : ℕ) :
    Prop where
  iteration : c.iteration = k
  solution : c.solution = Vec.ofPoint x
  terms : c.terms.Computes p a
  length_next : c.next.length = n
  length_gradient : c.gradient.length = n

/-- A record at a point succeeds, and records the objective there. -/
theorem Composite.AtPoint.recordObjective {c : Composite ℝ ρ π} {p : Problem (Space n)} {a : ℝ} {x : Space n}
    {k : ℕ} (h : c.AtPoint p a x k) : ∃ c' : Composite ℝ ρ π, c.recordObjective = .ok () c' ∧
      c'.AtPoint p a x k ∧ c'.losses = c.losses.push (p.objective x) := by
  refine ⟨{ c with losses := c.losses.push (p.objective x) }, ?_, ?_, rfl⟩
  · rw [Composite.recordObjective, h.solution, h.terms.objective x]
    rfl
  · exact ⟨h.iteration, h.solution, h.terms, h.length_next, h.length_gradient⟩

/-- **A step from a point** succeeds and leads to the proximal gradient step. -/
theorem Stepping.step_ofPoint [LawfulStepRule ρ] [Preconditioner π ℝ] {s : Stepping ℝ ρ π}
    {p : Problem (Space n)} {a : ℝ} (h : s.terms.Computes p a) (ha : 0 < a) {y : Space n}
    (hpoint : s.point = Vec.ofPoint y) (hgradient : s.gradient.length = n) (hout : s.out.length = n)
    (iteration : ℕ) : ∃ terms : Terms ℝ ρ π, terms.Computes p a ∧
      s.step iteration = .ok a ⟨terms, Vec.ofPoint (y - a • p.gradient y), Vec.ofPoint (p.gradient y),
        Vec.ofPoint (p.step a y)⟩ := by
  obtain ⟨⟨smooth, proximable, rule, preconditioner⟩, point, gradient, out⟩ := s
  obtain ⟨hsmooth, hproximable, hconstant, hpreconditioner⟩ := h
  dsimp only at hsmooth hproximable hconstant hpreconditioner hpoint hgradient hout
  subst hpoint hpreconditioner
  obtain ⟨rule', hquery, hconstant'⟩ := LawfulStepRule.query_of_constant
    (r := rule) ⟨iteration, smooth, Vec.ofPoint y, Vec.ofPoint (p.gradient y)⟩ hconstant
  have hforward : Vec.zip? (fun x g => x + -a * g) (Vec.ofPoint y) (Vec.ofPoint (p.gradient y)) =
      some (Vec.ofPoint (y - a • p.gradient y)) := by
    refine Vec.zip?_ofPoint fun i => ?_
    show y i - a * p.gradient y i = y i + -a * p.gradient y i
    ring
  refine ⟨⟨smooth, proximable, rule', none⟩, ⟨hsmooth, hproximable, hconstant', rfl⟩, ?_⟩
  simp only [step, evaluate, hsmooth.gradient y gradient hgradient, Outcome.mapState_ok, Outcome.bind_ok,
    precondition, chooseStep, hquery, forward, hforward, Option.map_some, Outcome.put, backward,
    hproximable.proximal a _ out ha hout, Outcome.map_ok]
  rfl

/-! ## What the certificate says -/

namespace Terms

/-- A constant step `a` with `a L ≤ factor`, and no preconditioner. -/
structure WithinBound (t : Terms ℝ ρ π) (factor a : ℝ) : Prop where
  constant : StepRule.constant? t.rule = some a
  preconditioner : t.preconditioner = none
  bound : ∀ f ∈ t.smooth, ∀ l, f.lipschitz = some l → a * l ≤ factor

/-- A constant step and no preconditioner, for a smooth term with the Lipschitz constant zero. The bound
    `factor / 0` on the step, which is infinite in floating point, has no meaning in exact arithmetic. -/
def Flat (t : Terms ℝ ρ π) : Prop :=
  t.preconditioner = none ∧ (∃ a, t.stepSize = .ok a) ∧ ∃ f ∈ t.smooth, f.lipschitz = some 0

/-- **A positive certificate bounds the step.** -/
theorem exists_withinBound {t : Terms ℝ ρ π} {factor : ℝ} (hfactor : 0 ≤ factor)
    (hpos : ∀ a, t.stepSize = .ok a → 0 < a) (h : t.isProvablyConvergent factor = .ok true ∨ t.Flat) :
    ∃ a, 0 < a ∧ t.WithinBound factor a := by
  rcases h with h | ⟨hnone, ⟨a, ha⟩, f, hf, hl⟩
  · unfold isProvablyConvergent at h
    cases hp : t.preconditioner with
    | some p =>
      rw [hp] at h
      cases h
    | none =>
      rw [hp] at h
      obtain ⟨a, ha, h⟩ := Except.bind_eq_ok_iff.mp h
      refine ⟨a, hpos a ha, stepSize_eq_ok_iff.mp ha, hp, ?_⟩
      intro f hf l hl
      simp only [Option.mem_def.mp hf, hl, Except.ok.injEq, decide_eq_true_eq] at h
      -- the quotient means something for a positive constant only, and the product bounds the step anyway
      rcases lt_or_ge 0 l with hlpos | hlneg
      · exact (le_div_iff₀ hlpos).mp h
      · exact (mul_nonpos_of_nonneg_of_nonpos (hpos a ha).le hlneg).trans hfactor
  · refine ⟨a, hpos a ha, stepSize_eq_ok_iff.mp ha, hnone, ?_⟩
    intro f' hf' l hl'
    obtain rfl : f' = f := Option.mem_unique hf' hf
    rw [hl, Option.some.injEq] at hl'
    rw [← hl', mul_zero]
    exact hfactor

end Terms

/-! ## The problem of a setup -/

/-- A convex proximable term, or none, has a proximal map. -/
theorem exists_proximable {n : ℕ} {g : Option (BasicTerm ℝ)} (hg : ∀ t ∈ g, t.IsConvex ∧ t.Fits n) :
    ∃ (H : Space n → ℝ) (P : ℝ → Space n → Space n),
      ComputesProximable (g.map BasicTerm.functional) H P ∧ Problem.Subgradient H P := by
  cases g with
  | none => exact ⟨_, _, computesProximable_none, Problem.subgradient_zero⟩
  | some g =>
    obtain ⟨hconvex, hfit⟩ := hg g rfl
    exact BasicTerm.exists_subgradient hconvex hfit

namespace Setup

/-- The terms of a setup are functions of this library, absent or convex, and fit the starting point. -/
structure ConvexData (setup : Setup ℝ ρ π) (f : Option SmoothTerm) (g : Option (BasicTerm ℝ)) : Prop where
  smooth : setup.smooth = f.map SmoothTerm.functional
  proximable : setup.proximable = g.map BasicTerm.functional
  smooth_proper : ∀ t ∈ f, t.Proper setup.initial.length
  proximable_proper : ∀ t ∈ g, t.IsConvex ∧ t.Fits setup.initial.length

/-- A step that was not given by a rule is positive. -/
theorem pos_of_choice {setup : Setup ℝ ρ π} {factor : ℝ} {c : StepChoice ℝ ρ}
    (h : setup.choice factor = .ok c) (hrule : ∀ r ∈ setup.rule, ∀ a, StepRule.constant? r = some a → 0 < a)
    {a : ℝ} (ha : StepRule.constant? c = some a) : 0 < a := by
  have hfixed : ∀ b,
      StepChoice.fixed <$> ConstantStep.of b = (.ok c : Except Error (StepChoice ℝ ρ)) → 0 < a := by
    intro b hb
    unfold ConstantStep.of at hb
    split at hb
    · next hpos =>
      cases hb
      cases ha
      exact hpos.1
    · cases hb
  unfold choice at h
  split at h
  · cases h
  · next r hr _ =>
    cases h
    exact hrule r hr a ha
  · exact hfixed _ h
  · obtain ⟨b, -, h⟩ := Except.bind_eq_ok_iff.mp h
    exact hfixed b h

/-- A state that was built is at the starting point, with no records. -/
theorem atPoint_of_build {setup : Setup ℝ ρ π} {factor a : ℝ} {c : Composite ℝ ρ π}
    {p : Problem (Space setup.initial.length)} {x₀ : Space setup.initial.length}
    (h : setup.build factor = .ok c) (hterms : c.terms.Computes p a) (hx₀ : Vec.ofPoint x₀ = setup.initial) :
    c.AtPoint p a x₀ 0 ∧ c.losses = #[] := by
  obtain ⟨rule, -, rfl⟩ := terms_of_build h
  exact ⟨⟨rfl, hx₀.symm, hterms, rfl, rfl⟩, rfl⟩

/-- **A setup with convex data is a convex problem,** with `factor / a` as a Lipschitz constant where the step
    `a` is within its bound. -/
theorem exists_problem {setup : Setup ℝ ρ π} {f : Option SmoothTerm} {g : Option (BasicTerm ℝ)}
    (h : setup.ConvexData f g) {t : Terms ℝ ρ π} (hsmooth : t.smooth = setup.smooth)
    (hproximable : t.proximable = setup.proximable) {factor a : ℝ} (hfactor : 0 ≤ factor) (ha : 0 < a)
    (hbound : t.WithinBound factor a) :
    ∃ p : Problem (Space setup.initial.length), p.Convex (factor / a) ∧ t.Computes p a := by
  have hF : ∃ F G, ComputesSmooth (n := setup.initial.length) t.smooth F G ∧
      Problem.Smooth F G (factor / a) := by
    rw [hsmooth, h.smooth]
    cases f with
    | none => exact ⟨_, _, computesSmooth_none, Problem.smooth_zero (div_nonneg hfactor ha.le)⟩
    | some f =>
      obtain ⟨F, G, l, hcomputes, hl, hFG⟩ := SmoothTerm.exists_smooth (h.smooth_proper f rfl)
      have hal : a * l ≤ factor := by
        refine hbound.bound f.functional ?_ l hl
        rw [hsmooth, h.smooth]
        rfl
      refine ⟨F, G, hcomputes, hFG.mono ?_⟩
      rwa [le_div_iff₀ ha, mul_comm]
  obtain ⟨F, G, hcomputesF, hFG⟩ := hF
  obtain ⟨H, P, hcomputesH, hHP⟩ := exists_proximable h.proximable_proper
  rw [← h.proximable, ← hproximable] at hcomputesH
  exact ⟨⟨F, G, H, P⟩, ⟨hFG, hHP⟩, hcomputesF, hcomputesH, hbound.constant, hbound.preconditioner⟩

end Setup

/-! ## An instance -/

/-- The data term `(3 x - 6)²` on the real line, with the Lipschitz constant of its gradient. -/
noncomputable def lineMisfit : LeastSquares ℝ := ⟨.matrix ⟨1, [[3]], by simp⟩, [6], 1, 18⟩

/-- One-norm regression on the real line, with the default step. -/
noncomputable def regressionOnTheLine (start : ℝ) : Setup ℝ (ConstantStep ℝ) (Sensitivity ℝ) where
  initial := [start]
  smooth := some lineMisfit.functional
  proximable := some (OneNorm.functional ⟨1⟩)
  stepSize := none
  rule := none
  preconditioner := none

/-- The state of a method for it whose default step is `factor / L`. -/
noncomputable def regressionState (factor start : ℝ) : Composite ℝ (ConstantStep ℝ) (Sensitivity ℝ) :=
  ⟨⟨(regressionOnTheLine start).smooth, (regressionOnTheLine start).proximable, .fixed ⟨factor / 18⟩, none⟩,
    [start], [start], [start], #[], 0⟩

theorem build_regressionOnTheLine {factor : ℝ} (h : 0 < factor) (start : ℝ) :
    (regressionOnTheLine start).build factor = .ok (regressionState factor start) := by
  have hstep : 0 < factor / 18 := by positivity
  simp [Setup.build, Setup.choice, Setup.defaultStep, ConstantStep.of, regressionOnTheLine, regressionState,
    lineMisfit, LeastSquares.functional, Functional.ofProximal, hstep, Scalar.isFinite, bind, Except.bind,
    pure, Except.pure]

theorem isProvablyConvergent_regressionState (factor start : ℝ) :
    (regressionState factor start).terms.isProvablyConvergent factor = .ok true := by
  simp [Terms.isProvablyConvergent, Terms.stepSize, regressionState, regressionOnTheLine, lineMisfit,
    LeastSquares.functional, Functional.ofProximal, StepRule.constant?, bind, Except.bind]

theorem convexData_regressionOnTheLine (start : ℝ) : (regressionOnTheLine start).ConvexData
    (some (.leastSquares lineMisfit)) (some (.oneNorm ⟨1⟩)) := by
  refine ⟨rfl, rfl, ?_, ?_⟩
  · rintro t ⟨⟩
    refine ⟨one_pos, rfl, Or.inl rfl, _, _, (BasicOperator.matrix ⟨1, [[3]], by simp⟩).adjointPair, ?_⟩
    intro x hx
    obtain ⟨v, rfl⟩ := List.length_eq_one_iff.mp hx
    simp only [BasicOperator.image, lineMisfit, Vec.pairing, List.map_cons, List.map_nil,
      List.zipWith_cons_cons, List.zipWith_nil_left, List.sum_cons, List.sum_nil]
    linarith
  · rintro t ⟨⟩
    exact ⟨zero_le_one, trivial⟩

end Splitting
