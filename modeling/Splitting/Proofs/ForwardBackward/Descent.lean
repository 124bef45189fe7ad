import Splitting.ForwardBackward.Ista
import Splitting.Proofs.ForwardBackward.ExactStep
import Splitting.Proofs.Iteration

/-!
# `Splitting.Proofs.ForwardBackward.Descent` — what the certificate of proximal gradient descent promises

In exact arithmetic, with a step that the method certifies, each iteration of proximal gradient descent is a
proximal gradient step of a convex problem, shorter than `2 / L`. The objective therefore never increases, nor
do the records of it, and the iterates move away from no minimiser.

* `Ista.update_atPoint` — an update at a point of Euclidean space succeeds;
* `Ista.Descending`, `Ista.Follows`, `Ista.productive` — along a run, in which nothing fails;
* `ista_certificate_sound` — the promise.
-/

namespace Splitting

variable {ρ π : Type} [StepRule ρ ℝ] {n : ℕ}

/-- The point after `k` proximal gradient steps. -/
noncomputable def Problem.iterate (p : Problem (Space n)) (a : ℝ) (x₀ : Space n) : ℕ → Space n
  | 0 => x₀
  | k + 1 => p.step a (p.iterate a x₀ k)

namespace Ista

variable {p : Problem (Space n)} {a : ℝ} {x : Space n} {k : ℕ} {m : Ista ℝ ρ π}

/-- **An update succeeds,** and after the exchange the method is at the next point, with the same records. -/
theorem update_atPoint [LawfulStepRule ρ] [Preconditioner π ℝ] (h : m.state.AtPoint p a x k) (ha : 0 < a) :
    ∃ m', m.update = .ok () m' ∧ m'.state.exchange.AtPoint p a (p.step a x) (k + 1) ∧
      m'.state.losses = m.state.losses := by
  obtain ⟨terms, hterms, hstep⟩ := Stepping.step_ofPoint
    (s := ⟨m.state.terms, m.state.solution, m.state.gradient, m.state.next⟩) h.terms ha h.solution
    h.length_gradient h.length_next m.state.iteration
  refine ⟨_, Outcome.bind_eq_ok_iff.mpr ⟨a, _, Outcome.mapState_eq_ok_iff.mpr ⟨_, hstep, rfl⟩, rfl⟩, ?_, rfl⟩
  -- the exchange has made the forward point the buffer
  exact ⟨congrArg (· + 1) h.iteration, rfl, hterms, Vec.length_ofPoint _, Vec.length_ofPoint _⟩

/-- The records never increased, and none of them is below the present objective. -/
structure Descending (v : ℝ) (losses : Array ℝ) : Prop where
  pairwise : losses.toList.Pairwise fun earlier later => later ≤ earlier
  above : ∀ w ∈ losses.toList, v ≤ w

theorem Descending.mono {v v' : ℝ} {losses : Array ℝ} (h : Descending v losses) (hv : v' ≤ v) :
    Descending v' losses :=
  ⟨h.pairwise, fun w hw => hv.trans (h.above w hw)⟩

/-- The present objective can be recorded. -/
theorem Descending.push {v : ℝ} {losses : Array ℝ} (h : Descending v losses) :
    Descending v (losses.push v) := by
  refine ⟨?_, ?_⟩
  · rw [Array.toList_push, List.pairwise_append]
    refine ⟨h.pairwise, List.pairwise_singleton _ _, fun w hw u hu => ?_⟩
    rw [List.mem_singleton.mp hu]
    exact h.above w hw
  · intro w hw
    rw [Array.toList_push] at hw
    rcases List.mem_append.mp hw with hw | hw
    · exact h.above w hw
    · exact (List.mem_singleton.mp hw).ge

/-- The method is at the iterate `k`, with records that never increased. -/
structure Follows (p : Problem (Space n)) (a : ℝ) (x₀ : Space n) (k : ℕ) (m : Ista ℝ ρ π) : Prop where
  state : m.state.AtPoint p a (p.iterate a x₀ k) k
  losses : Descending (p.objective (p.iterate a x₀ k)) m.state.losses

/-- **Nothing fails along a run, and the method follows the iterates,** if no step increases the objective. -/
theorem productive [LawfulStepRule ρ] [Preconditioner π ℝ] (ha : 0 < a) (x₀ : Space n)
    (hdescent : ∀ x, p.objective (p.step a x) ≤ p.objective x) :
    Productive fun k (m : Ista ℝ ρ π) => Follows p a x₀ k m where
  iteration := fun h => h.state.iteration
  update := by
    intro k m h
    obtain ⟨m', hu, hm', hlosses⟩ := update_atPoint h.state ha
    refine ⟨m', hu, hm', ?_⟩
    show Descending (p.objective (p.step a (p.iterate a x₀ k))) m'.state.losses
    rw [hlosses]
    exact h.losses.mono (hdescent _)
  record := by
    intro k m h
    obtain ⟨c, hc, hpoint, hlosses⟩ := h.state.recordObjective
    refine ⟨⟨c⟩, Outcome.mapState_eq_ok_iff.mpr ⟨c, hc, rfl⟩, hpoint, ?_⟩
    rw [hlosses]
    exact h.losses.push

/-- A method that was built is at the starting point. -/
theorem follows_of_build {setup : Setup ℝ ρ π} {p : Problem (Space setup.initial.length)}
    {x₀ : Space setup.initial.length} (h : Ista.build setup = .ok m) (hterms : m.state.terms.Computes p a)
    (hx₀ : Vec.ofPoint x₀ = setup.initial) : Follows p a x₀ 0 m := by
  obtain ⟨c, hc, rfl⟩ := Except.map_eq_ok_iff.mp h
  obtain ⟨hpoint, hlosses⟩ := Setup.atPoint_of_build hc hterms hx₀
  refine ⟨hpoint, ?_⟩
  rw [hlosses]
  exact ⟨List.Pairwise.nil, nofun⟩

end Ista

/-- A vector of length `n` at which the objective is least. -/
def Terms.IsMinimiser (t : Terms ℝ ρ π) (n : ℕ) (x : Vec ℝ) : Prop :=
  x.length = n ∧ ∀ u v w, u.length = n → t.objective x = some v → t.objective u = some w → v ≤ w

theorem Terms.IsMinimiser.onPoints {t : Terms ℝ ρ π} {p : Problem (Space n)} {a : ℝ} {x : Space n}
    (hx : t.IsMinimiser n (Vec.ofPoint x)) (h : t.Computes p a) : p.IsMinimiser x :=
  fun u => hx.2 _ _ _ (Vec.length_ofPoint u) (h.objective x) (h.objective u)

/-- **The certificate is sound.** Built from convex terms of this library with a step that it certifies, the
    method goes through points `x₀, x₁, …` of which the objective never increases, and the distance to any
    minimiser neither. It completes every run, however often it was run before; it ends and shows the points of
    this sequence, and its records never increase. -/
theorem ista_certificate_sound [LawfulStepRule ρ] [Preconditioner π ℝ] {setup : Setup ℝ ρ π} {m₀ : Ista ℝ ρ π}
    {f : Option SmoothTerm} {g : Option (BasicTerm ℝ)} (hbuild : Ista.build setup = .ok m₀)
    (hdata : setup.ConvexData f g) (hrule : ∀ r ∈ setup.rule, ∀ a, StepRule.constant? r = some a → 0 < a)
    (hcertificate : m₀.isProvablyConvergent = .ok true ∨ m₀.state.terms.Flat) :
    ∃ x : ℕ → Vec ℝ, x 0 = setup.initial ∧
      (∀ k, ∃ v w, m₀.state.terms.objective (x (k + 1)) = some v ∧ m₀.state.terms.objective (x k) = some w ∧
        v ≤ w) ∧
      (∀ k u, m₀.state.terms.IsMinimiser setup.initial.length u →
        Vec.distance (x (k + 1)) u ≤ Vec.distance (x k) u) ∧
      ∀ {m : Ista ℝ ρ π}, Resumed m₀ m →
        ∀ {κ : Type} (budget interval : ℕ) (watcher : Watcher κ ℝ) (memory : κ),
          ∃ k r, run m budget interval watcher memory = .ok k r ∧ Iterative.iteration r.method = k ∧
            (watcher.NeverStops → k = Iterative.iteration m + budget) ∧ Iterative.solution r.method = x k ∧
            (∀ q ∈ r.shown, q.1 = x q.2) ∧
            r.method.state.losses.toList.Pairwise fun earlier later => later ≤ earlier := by
  obtain ⟨x₀, hx₀⟩ := Vec.exists_ofPoint (rfl : setup.initial.length = setup.initial.length)
  have hfactor : (0 : ℝ) < Ista.stepFactor ∧ (Ista.stepFactor : ℝ) < 2 := by
    show (0 : ℝ) < 1.98 ∧ (1.98 : ℝ) < 2
    norm_num
  obtain ⟨c, hc, rfl⟩ := Except.map_eq_ok_iff.mp hbuild
  obtain ⟨rule, hchoice, rfl⟩ := Setup.terms_of_build hc
  obtain ⟨a, ha, hbound⟩ := Terms.exists_withinBound hfactor.1.le
    (fun b hb => Setup.pos_of_choice hchoice hrule (Terms.stepSize_eq_ok_iff.mp hb)) hcertificate
  obtain ⟨p, hconvex, hterms⟩ := Setup.exists_problem hdata rfl rfl hfactor.1.le ha hbound
  have hL : 0 < Ista.stepFactor / a := div_pos hfactor.1 ha
  have haL : a * (Ista.stepFactor / a) < 2 := (mul_div_cancel₀ Ista.stepFactor ha.ne').trans_lt hfactor.2
  have hdescent := hconvex.objective_step_le ha haL.le
  have hproductive := Ista.productive (ρ := ρ) (π := π) ha x₀ hdescent
  refine ⟨fun k => Vec.ofPoint (p.iterate a x₀ k), hx₀, fun k => ?_, fun k u hu => ?_, ?_⟩
  · exact ⟨_, _, hterms.objective _, hterms.objective _, hdescent _⟩
  · obtain ⟨v, rfl⟩ := Vec.exists_ofPoint hu.1
    rw [Vec.distance_ofPoint, Vec.distance_ofPoint]
    exact hconvex.norm_step_sub_le_of_isMinimiser hL ha haL (hu.onPoints hterms) _
  · intro m hm κ budget interval watcher memory
    obtain ⟨k, hk⟩ := hm.holds hproductive.runInvariant (Ista.follows_of_build hbuild hterms hx₀)
    obtain ⟨j, r, hrun, ⟨hlast, hlosses⟩, hiterates, hnever⟩ :=
      hproductive.run_ok hk budget interval watcher memory
    refine ⟨k + j, r, hrun, hlast.iteration, ?_, hlast.solution, ?_, hlosses.pairwise⟩
    · intro hw
      rw [hnever hw, hproductive.iteration hk]
    · intro q hq
      obtain ⟨m', hm', hshown⟩ := hiterates q hq
      exact hshown.trans hm'.state.solution

theorem ista_certificate_sound_on_the_line :
    ∃ (m₀ : Ista ℝ (ConstantStep ℝ) (Sensitivity ℝ))
      (r : Run (Ista ℝ (ConstantStep ℝ) (Sensitivity ℝ)) Unit ℝ),
      Ista.build (regressionOnTheLine 3) = .ok m₀ ∧
      (regressionOnTheLine 3).ConvexData (some (.leastSquares lineMisfit)) (some (.oneNorm ⟨1⟩)) ∧
      (∀ r ∈ (regressionOnTheLine 3).rule, ∀ a, StepRule.constant? r = some a → 0 < a) ∧
      m₀.isProvablyConvergent = .ok true ∧ run m₀ 10 1 Watcher.never () = .ok 10 r ∧
      r.method.state.losses.toList.Pairwise fun earlier later => later ≤ earlier := by
  have hbuild : Ista.build (regressionOnTheLine 3) = .ok ⟨regressionState Ista.stepFactor 3⟩ := by
    have hfactor : (0 : ℝ) < Ista.stepFactor := by
      show (0 : ℝ) < 1.98
      norm_num
    rw [Ista.build, build_regressionOnTheLine hfactor]
    rfl
  have hcertificate := isProvablyConvergent_regressionState Ista.stepFactor 3
  have hrule : ∀ r ∈ (regressionOnTheLine 3).rule, ∀ a, StepRule.constant? r = some a → 0 < a := nofun
  obtain ⟨x, -, -, -, hruns⟩ := ista_certificate_sound hbuild (convexData_regressionOnTheLine 3) hrule
    (Or.inl hcertificate)
  obtain ⟨k, r, hrun, -, hk, -, -, hlosses⟩ := hruns .start 10 1 Watcher.never ()
  obtain rfl : k = 10 := hk fun _ _ _ => rfl
  exact ⟨_, r, hbuild, convexData_regressionOnTheLine 3, hrule, hcertificate, hrun, hlosses⟩

end Splitting
