import Splitting.Proofs.Convex.Momentum
import Splitting.Proofs.ForwardBackward.Acceleration
import Splitting.Proofs.ForwardBackward.ExactStep

/-!
# `Splitting.Proofs.ForwardBackward.AcceleratedRate` — how fast the accelerated method converges

In exact arithmetic, with a constant step that the method certifies, the accelerated method follows the
recursion on Euclidean space whose potential does not grow. After `k` iterations its objective is therefore
within `2 / (a (k + 1)²) · ‖x₀ - u‖²` of the objective at any point `u`.

* `Fista.OnPoints` — a method at a point of the recursion on Euclidean space;
* `Fista.OnPoints.update` — an update succeeds and moves it on;
* `Fista.productive` — along a run, in which nothing fails;
* `fista_converges_at_rate` — the rate.
-/

namespace Splitting

variable {ρ π : Type} [StepRule ρ ℝ] {n : ℕ}

namespace Fista

/-- The method is at the point `s` of the recursion after `k` iterations. -/
structure OnPoints (p : Problem (Space n)) (a : ℝ) (s : Accelerated (Space n)) (k : ℕ) (m : Fista ℝ ρ π) :
    Prop where
  state : m.state.AtPoint p a s.x k
  ahead : m.ahead = Vec.ofPoint s.y
  momentum : m.momentum = s.t

variable {p : Problem (Space n)} {a : ℝ} {s : Accelerated (Space n)} {k : ℕ} {m : Fista ℝ ρ π}

/-- **An update succeeds,** and after the exchange the method is at the next point. -/
theorem OnPoints.update [LawfulStepRule ρ] [Preconditioner π ℝ] (h : OnPoints p a s k m) (ha : 0 < a) :
    ∃ m', m.update = .ok () m' ∧
      OnPoints p a (s.next p a) (k + 1) { m' with state := m'.state.exchange } := by
  obtain ⟨terms, hterms, hstep⟩ := Stepping.step_ofPoint
    (s := ⟨m.state.terms, m.ahead, m.state.gradient, m.state.next⟩) h.state.terms ha h.ahead
    h.state.length_gradient h.state.length_next m.state.iteration
  have hahead : Vec.zip? (fun x old => x + (m.momentum - 1) / nextMomentum m.momentum * (x - old))
      (Vec.ofPoint (p.step a s.y)) m.state.solution = some (Vec.ofPoint (s.next p a).y) := by
    rw [h.state.solution, h.momentum]
    exact Vec.zip?_ofPoint fun _ => rfl
  have hlength : (Vec.ofPoint (s.next p a).y).length = (Vec.ofPoint (s.y - a • p.gradient s.y)).length := by
    rw [Vec.length_ofPoint, Vec.length_ofPoint]
  -- the exchange has made the last iterate the buffer
  have hbuffer : m.state.solution.length = n := by rw [h.state.solution, Vec.length_ofPoint]
  refine ⟨_, Outcome.bind_eq_ok_iff.mpr ⟨a, _, Outcome.mapState_eq_ok_iff.mpr ⟨_, hstep, rfl⟩,
    extrapolate_eq_ok_iff.mpr ⟨_, hahead, hlength, rfl⟩⟩, ?_⟩
  exact ⟨⟨congrArg (· + 1) h.state.iteration, rfl, hterms, hbuffer, Vec.length_ofPoint _⟩, rfl,
    congrArg nextMomentum h.momentum⟩

/-- **Nothing fails along a run, and the method follows the recursion on points.** -/
theorem productive [LawfulStepRule ρ] [Preconditioner π ℝ] (p : Problem (Space n)) (ha : 0 < a)
    (x₀ : Space n) : Productive fun k (m : Fista ℝ ρ π) => OnPoints p a (p.accelerated a x₀ k) k m where
  iteration := fun h => h.state.iteration
  update := fun h => h.update ha
  record := by
    intro k m h
    obtain ⟨c, hc, hpoint, -⟩ := h.state.recordObjective
    exact ⟨⟨c, m.ahead, m.momentum⟩, Outcome.mapState_eq_ok_iff.mpr ⟨c, hc, rfl⟩, hpoint, h.ahead, h.momentum⟩

/-- A method that was built is at the starting point. -/
theorem onPoints_of_build {setup : Setup ℝ ρ π} {p : Problem (Space setup.initial.length)}
    {x₀ : Space setup.initial.length} (h : Fista.build setup = .ok m) (hterms : m.state.terms.Computes p a)
    (hx₀ : Vec.ofPoint x₀ = setup.initial) : OnPoints p a (p.accelerated a x₀ 0) 0 m := by
  obtain ⟨c, hc, hm⟩ := Except.bind_eq_ok_iff.mp h
  cases hm
  have hpoint := (Setup.atPoint_of_build hc hterms hx₀).1
  exact ⟨hpoint, hpoint.solution, rfl⟩

end Fista

/-- The objective at `x` exceeds the one at any point `u` by no more than `rate · ‖x₀ - u‖²`. -/
def Terms.WithinRate (t : Terms ℝ ρ π) (x₀ : Vec ℝ) (rate : ℝ) (x : Vec ℝ) : Prop :=
  ∀ u : Vec ℝ, u.length = x₀.length → ∃ v w, t.objective x = some v ∧ t.objective u = some w ∧
    v - w ≤ rate * Vec.distance x₀ u ^ 2

/-- The recursion on points keeps to the rate. -/
theorem Problem.Convex.withinRate {t : Terms ℝ ρ π} {p : Problem (Space n)} {L a : ℝ} (h : p.Convex L)
    (hterms : t.Computes p a) (ha : 0 < a) (haL : a * L ≤ 1) {x₀ : Space n} {start : Vec ℝ}
    (hx₀ : Vec.ofPoint x₀ = start) {k : ℕ} (hk : 1 ≤ k) :
    t.WithinRate start (2 / (a * ((k : ℝ) + 1) ^ 2)) (Vec.ofPoint (p.accelerated a x₀ k).x) := by
  subst hx₀
  intro u hu
  obtain ⟨v, rfl⟩ := Vec.exists_ofPoint (hu.trans (Vec.length_ofPoint x₀))
  refine ⟨_, _, hterms.objective _, hterms.objective v, ?_⟩
  rw [Vec.distance_ofPoint]
  exact h.accelerated_rate ha haL x₀ v hk

/-- **The accelerated method converges at its rate.** Built from convex terms of this library with a constant
    step that it certifies, and perhaps run before, it completes every run; and after `k ≥ 1` iterations the
    objective at its solution, and at the solution that the watcher is shown, is within
    `2 / (a (k + 1)²) · ‖x₀ - u‖²` of the objective at every point `u`. -/
theorem fista_converges_at_rate {κ : Type} [LawfulStepRule ρ] [Preconditioner π ℝ] {setup : Setup ℝ ρ π}
    {m₀ m : Fista ℝ ρ π} {f : Option SmoothTerm} {g : Option (BasicTerm ℝ)} {a : ℝ}
    (hbuild : Fista.build setup = .ok m₀) (hdata : setup.ConvexData f g) (ha : 0 < a)
    (hstep : m₀.stepSize = .ok a)
    (hcertificate : m₀.isProvablyConvergent = .ok true ∨ m₀.state.terms.Flat) (hm : Resumed m₀ m)
    (budget interval : ℕ) (watcher : Watcher κ ℝ) (memory : κ) :
    ∃ k r, run m budget interval watcher memory = .ok k r ∧ Iterative.iteration r.method = k ∧
      (watcher.NeverStops → k = Iterative.iteration m + budget) ∧
      (1 ≤ k → m₀.state.terms.WithinRate setup.initial (2 / (a * ((k : ℝ) + 1) ^ 2))
        (Iterative.solution r.method)) ∧
      ∀ q ∈ r.shown, 1 ≤ q.2 →
        m₀.state.terms.WithinRate setup.initial (2 / (a * ((q.2 : ℝ) + 1) ^ 2)) q.1 := by
  obtain ⟨x₀, hx₀⟩ := Vec.exists_ofPoint (rfl : setup.initial.length = setup.initial.length)
  have hone : (0 : ℝ) ≤ Fista.stepFactor := zero_le_one
  have hpos : ∀ b, m₀.state.terms.stepSize = .ok b → 0 < b := by
    intro b hb
    obtain rfl : a = b := Except.ok.inj (hstep.symm.trans hb)
    exact ha
  obtain ⟨b, -, hbound⟩ := Terms.exists_withinBound hone hpos hcertificate
  obtain rfl : a = b := Except.ok.inj (hstep.symm.trans (Terms.stepSize_eq_ok_iff.mpr hbound.constant))
  obtain ⟨c, hc, hm₀⟩ := Except.bind_eq_ok_iff.mp hbuild
  obtain ⟨rule, -, rfl⟩ := Setup.terms_of_build hc
  obtain ⟨p, hconvex, hterms⟩ : ∃ p : Problem (Space setup.initial.length), p.Convex (Fista.stepFactor / a) ∧
      m₀.state.terms.Computes p a := by
    cases hm₀
    exact Setup.exists_problem hdata rfl rfl hone ha hbound
  have haL : a * (Fista.stepFactor / a) ≤ 1 := (mul_div_cancel₀ (1 : ℝ) ha.ne').le
  have hproductive := Fista.productive (ρ := ρ) (π := π) p ha x₀
  obtain ⟨k, hk⟩ := hm.holds hproductive.runInvariant (Fista.onPoints_of_build hbuild hterms hx₀)
  obtain ⟨j, r, hrun, hlast, hiterates, hnever⟩ := hproductive.run_ok hk budget interval watcher memory
  have hsolution : Iterative.solution r.method = Vec.ofPoint (p.accelerated a x₀ (k + j)).x :=
    hlast.state.solution
  refine ⟨k + j, r, hrun, hlast.state.iteration, ?_, ?_, ?_⟩
  · intro hw
    rw [hnever hw, hproductive.iteration hk]
  · intro hkj
    rw [hsolution]
    exact hconvex.withinRate hterms ha haL hx₀ hkj
  · intro q hq hq'
    obtain ⟨m', hm', hshown⟩ := hiterates q hq
    have hpoint : Iterative.solution m' = Vec.ofPoint (p.accelerated a x₀ q.2).x := hm'.state.solution
    rw [hshown, hpoint]
    exact hconvex.withinRate hterms ha haL hx₀ hq'

theorem fista_converges_at_rate_on_the_line :
    ∃ (m₀ : Fista ℝ (ConstantStep ℝ) (Sensitivity ℝ))
      (r : Run (Fista ℝ (ConstantStep ℝ) (Sensitivity ℝ)) Unit ℝ),
      Fista.build (regressionOnTheLine 3) = .ok m₀ ∧
      (regressionOnTheLine 3).ConvexData (some (.leastSquares lineMisfit)) (some (.oneNorm ⟨1⟩)) ∧
      m₀.stepSize = .ok (1 / 18) ∧ m₀.isProvablyConvergent = .ok true ∧
      run m₀ 10 1 Watcher.never () = .ok 10 r ∧
      m₀.state.terms.WithinRate [3] (2 / (1 / 18 * (((10 : ℕ) : ℝ) + 1) ^ 2))
        (Iterative.solution r.method) := by
  have hbuild : Fista.build (regressionOnTheLine 3) = .ok ⟨regressionState Fista.stepFactor 3, [3], 1⟩ := by
    have hone : (0 : ℝ) < Fista.stepFactor := zero_lt_one
    rw [Fista.build, build_regressionOnTheLine hone]
    rfl
  have hcertificate := isProvablyConvergent_regressionState Fista.stepFactor 3
  obtain ⟨k, r, hrun, -, hk, hrate, -⟩ := fista_converges_at_rate hbuild (convexData_regressionOnTheLine 3)
    (by norm_num : (0 : ℝ) < 1 / 18) rfl (Or.inl hcertificate) .start 10 1 Watcher.never ()
  obtain rfl : k = 10 := hk fun _ _ _ => rfl
  exact ⟨_, r, hbuild, convexData_regressionOnTheLine 3, rfl, hcertificate, hrun, hrate (by norm_num)⟩

end Splitting
