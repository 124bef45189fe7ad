import Splitting.Proofs.ForwardBackward.AcceleratedRate
import Splitting.Proofs.ForwardBackward.Configuration
import Splitting.Proofs.ForwardBackward.Descent
import Splitting.Proofs.LossHistory

/-!
# `Splitting.Proofs.ForwardBackward.SquaredDistances` — default steps on squared distances

The gradient `L (x - b)` of a squared distance grows at one rate in all directions. A forward step of length `a` is
then an exact contraction around the centre `b`, by the factor `1 - a L`, and a proximal map moves no two points
apart. In exact arithmetic the default steps make this factor zero for the accelerated method, and `-0.98` for the
plain one: the one is at the minimiser after an iteration, wherever the momentum leads, and the other comes closer by
two percent in each.

* `Problem.Radial`, `Problem.Radial.norm_step_sub_le` — such a gradient, and the contraction;
* `Problem.Convex.existsUnique_isMinimiser` — the minimiser;
* `Setup.ConvexData.exists_radial` — the problem of a setup, and that it is built with the default step;
* `Fista.logs_onPoints` — the losses of the accelerated method on points;
* `Fista.ArrivesAtOnce`, `Ista.Contracts` — what the two methods do;
* `Fista.exists_arrivesAtOnce`, `Ista.exists_contracts` — that they do;
* `default_steps_on_squared_distances` — the main statement.
-/

namespace Splitting

/-! ## Gradients that point away from a centre -/

namespace Problem

variable {E : Type} [NormedAddCommGroup E] [InnerProductSpace ℝ E] {p : Problem E} {L a : ℝ} {b : E}

/-- The gradient points away from `b`, and grows at the rate `L`. -/
def Radial (p : Problem E) (L : ℝ) (b : E) : Prop := ∀ x, p.gradient x = L • (x - b)

/-- **A step is a contraction** by the factor `1 - a L`. -/
theorem Radial.norm_step_sub_le (h : p.Radial L b) (hproximal : Subgradient p.proximable p.proximal) (ha : 0 < a)
    (x y : E) : ‖p.step a x - p.step a y‖ ≤ |1 - a * L| * ‖x - y‖ := by
  have hforward : (x - a • p.gradient x) - (y - a • p.gradient y) = (1 - a * L) • (x - y) := by
    rw [h x, h y]
    module
  calc ‖p.step a x - p.step a y‖ ≤ ‖(x - a • p.gradient x) - (y - a • p.gradient y)‖ :=
        hproximal.firm.norm_sub_le ha _ _
    _ = |1 - a * L| * ‖x - y‖ := by rw [hforward, norm_smul, Real.norm_eq_abs]

/-- A step of the length `1 / L` leads to the same point from everywhere. -/
theorem Radial.step_eq_step (h : p.Radial L b) (hproximal : Subgradient p.proximable p.proximal) (ha : 0 < a)
    (haL : a * L = 1) (x y : E) : p.step a x = p.step a y := by
  have hbound := h.norm_step_sub_le hproximal ha x y
  rw [haL, sub_self, abs_zero, zero_mul] at hbound
  exact sub_eq_zero.mp (norm_le_zero_iff.mp hbound)

/-- **There is one minimiser,** to which a step of the length `1 / L` leads. -/
theorem Convex.existsUnique_isMinimiser (h : p.Convex L) (hradial : p.Radial L b) (hL : 0 < L) :
    ∃! z, p.IsMinimiser z := by
  have ha : 0 < 1 / L := one_div_pos.mpr hL
  have haL : 1 / L * L = 1 := one_div_mul_cancel hL.ne'
  have hsame := hradial.step_eq_step h.subgradient ha haL
  refine ⟨p.step (1 / L) b, (h.step_eq_iff ha).mp (hsame _ _), fun z hz => ?_⟩
  rw [← (h.step_eq_iff ha).mpr hz]
  exact hsame _ _

/-- **The accelerated method is at the minimiser** from the first iteration on, if the step has the length `1 / L`. -/
theorem Convex.accelerated_eq (h : p.Convex L) (hradial : p.Radial L b) (ha : 0 < a) (haL : a * L = 1) {z : E}
    (hz : p.IsMinimiser z) (x₀ : E) {k : ℕ} (hk : 1 ≤ k) : (p.accelerated a x₀ k).x = z := by
  obtain ⟨k, rfl⟩ := Nat.exists_eq_add_of_le' hk
  -- wherever the point ahead is
  calc (p.accelerated a x₀ (k + 1)).x = p.step a z := hradial.step_eq_step h.subgradient ha haL _ _
    _ = z := (h.step_eq_iff ha).mpr hz

/-- **Steps come closer to a minimiser** by the factor `1 - a L`. -/
theorem Convex.norm_step_sub_le_mul (h : p.Convex L) (hradial : p.Radial L b) (ha : 0 < a) {z : E}
    (hz : p.IsMinimiser z) (x : E) : ‖p.step a x - z‖ ≤ |1 - a * L| * ‖x - z‖ := by
  calc ‖p.step a x - z‖ = ‖p.step a x - p.step a z‖ := by rw [(h.step_eq_iff ha).mpr hz]
    _ ≤ |1 - a * L| * ‖x - z‖ := hradial.norm_step_sub_le h.subgradient ha x z

end Problem

/-! ## Setups -/

variable {ρ π : Type} [StepRule ρ ℝ]

namespace Setup

variable {setup : Setup ℝ ρ π} {f : SquaredDistance ℝ} {g : Option (BasicTerm ℝ)}

/-- The objective has the value `least` at `best`, and larger values at all other vectors of that length. -/
structure LeastAt (setup : Setup ℝ ρ π) (best : Vec ℝ) (least : ℝ) : Prop where
  length : best.length = setup.initial.length
  value : setup.objective best = some least
  unique : ∀ u, u.length = setup.initial.length → u ≠ best → ∃ v, setup.objective u = some v ∧ least < v

omit [StepRule ρ ℝ] in
/-- A minimiser on points. -/
theorem leastAt_ofPoint {p : Problem (Space setup.initial.length)}
    (hobjective : ∀ x, setup.objective (Vec.ofPoint x) = some (p.objective x)) {z : Space setup.initial.length}
    (hz : p.IsMinimiser z) (hunique : ∀ u, p.IsMinimiser u → u = z) :
    setup.LeastAt (Vec.ofPoint z) (p.objective z) := by
  refine ⟨Vec.length_ofPoint z, hobjective z, fun u hu hne => ?_⟩
  obtain ⟨u, rfl⟩ := Vec.exists_ofPoint hu
  refine ⟨_, hobjective u, (hz u).lt_of_ne fun hsame => hne ?_⟩
  have hleast : p.IsMinimiser u := fun v => hsame ▸ hz v
  rw [hunique u hleast]

omit [StepRule ρ ℝ] in
/-- Whatever is not above the least value is where that is taken. -/
theorem LeastAt.eq_of_le {best u : Vec ℝ} {least v : ℝ} (h : setup.LeastAt best least)
    (hu : u.length = setup.initial.length) (hv : setup.objective u = some v) (hle : v ≤ least) : u = best := by
  by_contra hne
  obtain ⟨w, hw, hlt⟩ := h.unique u hu hne
  obtain rfl : v = w := Option.some.inj (hv.symm.trans hw)
  exact hlt.not_ge hle

/-- **The problem of a setup:** a squared distance with the Lipschitz constant `L`, and a method with the default step
    `factor / L` is built on it. -/
theorem ConvexData.exists_radial (hdata : setup.ConvexData (some (.squaredDistance f)) g)
    (hdefault : setup.StepIsDefault) (hpreconditioner : setup.preconditioner = none) :
    ∃ (p : Problem (Space setup.initial.length)) (L : ℝ) (b : Space setup.initial.length),
      0 < L ∧ p.Convex L ∧ p.Radial L b ∧
      (∀ x, setup.objective (Vec.ofPoint x) = some (p.objective x)) ∧
      ∀ factor : ℝ, 0 < factor → ∃ c, setup.build factor = .ok c ∧ c.terms.Computes p (factor / L) := by
  have hsmooth : setup.smooth = some f.functional := hdata.smooth
  obtain ⟨hscale, hcenter⟩ := hdata.smooth_proper _ rfl
  obtain ⟨b, hb⟩ := f.exists_center hcenter
  obtain ⟨H, P, hcomputes, hsubgradient⟩ := exists_proximable hdata.proximable_proper
  rw [← hdata.proximable] at hcomputes
  refine ⟨⟨_, _, H, P⟩, f.scale + f.scale, b, add_pos hscale hscale,
    ⟨Problem.smooth_squaredDistance hscale.le b, hsubgradient⟩, fun _ => rfl, fun x => ?_, fun factor hfactor => ?_⟩
  · rw [objective, hsmooth, hb.computesSmooth.value x, hcomputes.value x]
    rfl
  · have hstep : IsStep (factor / (f.scale + f.scale)) := ⟨div_pos hfactor (add_pos hscale hscale), rfl⟩
    obtain ⟨c, hc, hsize⟩ := exists_build_of_default hdefault hsmooth rfl hstep
    have hconstant := Terms.stepSize_eq_ok_iff.mp hsize
    obtain ⟨rule, -, rfl⟩ := terms_of_build hc
    exact ⟨_, hc, hsmooth ▸ hb.computesSmooth, hcomputes, hconstant, hpreconditioner⟩

end Setup

/-! ## The accelerated method -/

namespace Fista

variable [Preconditioner π ℝ] [LawfulStepRule ρ]

/-- On points the method records the objective of the problem. -/
theorem logs_onPoints {n : ℕ} (p : Problem (Space n)) {a : ℝ} (ha : 0 < a) (x₀ : Space n) :
    Logs (fun m : Fista ℝ ρ π => m.state.losses.toList) (fun k m => OnPoints p a (p.accelerated a x₀ k) k m)
      fun k => some (p.objective (p.accelerated a x₀ k).x) where
  keeps := keepsLosses
  moved := (productive p ha x₀).runInvariant.completed
  recorded := by
    intro k m m' h ho
    obtain ⟨c, hc, hpoint, hlosses⟩ := h.state.recordObjective
    obtain ⟨c', hc', rfl⟩ := Outcome.mapState_eq_ok_iff.mp ho
    obtain rfl : c = c' := (Outcome.ok.inj (hc.symm.trans hc')).2
    refine ⟨⟨hpoint, h.ahead, h.momentum⟩, _, rfl, ?_⟩
    exact (congrArg Array.toList hlosses).trans Array.toList_push

omit [LawfulStepRule ρ] in
/-- **From its first iteration on the method is at `best`,** where the objective is `least`. Run however often before,
    it completes every run; and of the losses that the run adds, all but that of the starting point are `least`. -/
def ArrivesAtOnce (setup : Setup ℝ ρ π) (best : Vec ℝ) (least : ℝ) (m₀ : Fista ℝ ρ π) : Prop :=
  ∀ {m : Fista ℝ ρ π}, Resumed m₀ m →
    ∀ {κ : Type} (budget interval : ℕ) (watcher : Watcher κ ℝ) (memory : κ),
      ∃ k r, run m budget interval watcher memory = .ok k r ∧ Iterative.iteration r.method = k ∧
        (watcher.NeverStops → k = Iterative.iteration m + budget) ∧
        (1 ≤ k → Iterative.solution r.method = best) ∧ (∀ q ∈ r.shown, 1 ≤ q.2 → q.1 = best) ∧
        r.method.state.losses.toList.map some = m.state.losses.toList.map some ++
          dueLosses interval (fun k => if k = 0 then setup.objective setup.initial else some least)
            (r.shown.map Prod.snd)

/-- It is enough that a step has the length `1 / L`. -/
theorem arrivesAtOnce {setup : Setup ℝ ρ π} {m₀ : Fista ℝ ρ π} {p : Problem (Space setup.initial.length)} {L a : ℝ}
    {b z : Space setup.initial.length} (hbuild : Fista.build setup = .ok m₀) (hconvex : p.Convex L)
    (hradial : p.Radial L b) (hterms : m₀.state.terms.Computes p a) (ha : 0 < a) (haL : a * L = 1)
    (hobjective : ∀ x, setup.objective (Vec.ofPoint x) = some (p.objective x)) (hz : p.IsMinimiser z) :
    ArrivesAtOnce setup (Vec.ofPoint z) (p.objective z) m₀ := by
  intro m hm κ budget interval watcher memory
  obtain ⟨x₀, hx₀⟩ := Vec.exists_ofPoint (rfl : setup.initial.length = setup.initial.length)
  have hbest : ∀ {k}, 1 ≤ k → (p.accelerated a x₀ k).x = z := hconvex.accelerated_eq hradial ha haL hz x₀
  obtain ⟨hat, k, r, hrun, hlast, hiterates, hnever⟩ := (productive p ha x₀).resumed_run_ok hm
    (onPoints_of_build hbuild hterms hx₀) budget interval watcher memory
  obtain ⟨hlosses, -, -⟩ := (logs_onPoints p ha x₀).run countsIterations hat (congrArg Outcome.state? hrun)
  have hrecorded : (fun k => some (p.objective (p.accelerated a x₀ k).x)) =
      fun k => if k = 0 then setup.objective setup.initial else some (p.objective z) := by
    funext k
    by_cases hk : k = 0
    · subst hk
      exact (hobjective x₀).symm.trans (congrArg setup.objective hx₀)
    · rw [if_neg hk, hbest (Nat.one_le_iff_ne_zero.mpr hk)]
  have hsolution : Iterative.solution r.method = Vec.ofPoint (p.accelerated a x₀ k).x := hlast.state.solution
  refine ⟨k, r, hrun, hlast.state.iteration, hnever, fun hk => ?_, fun q hq hq' => ?_, ?_⟩
  · rw [hsolution, hbest hk]
  · obtain ⟨m', hm', hshown⟩ := hiterates q hq
    have hpoint : Iterative.solution m' = Vec.ofPoint (p.accelerated a x₀ q.2).x := hm'.state.solution
    rw [hshown, hpoint, hbest hq']
  · rw [hlosses, hrecorded]

/-- The method with the default step is built, and does so. -/
theorem exists_arrivesAtOnce {setup : Setup ℝ ρ π} {p : Problem (Space setup.initial.length)} {L : ℝ}
    {b z : Space setup.initial.length} (hL : 0 < L) (hconvex : p.Convex L) (hradial : p.Radial L b)
    (hobjective : ∀ x, setup.objective (Vec.ofPoint x) = some (p.objective x))
    (hbuilds : ∀ factor : ℝ, 0 < factor → ∃ c, setup.build factor = .ok c ∧ c.terms.Computes p (factor / L))
    (hz : p.IsMinimiser z) : ∃ m₀, Fista.build setup = .ok m₀ ∧ m₀.state.losses = #[] ∧
      ArrivesAtOnce setup (Vec.ofPoint z) (p.objective z) m₀ := by
  have hfactor : (0 : ℝ) < stepFactor := one_pos
  obtain ⟨c, hc, hterms⟩ := hbuilds stepFactor hfactor
  have hbuild : Fista.build setup = .ok ⟨c, c.solution, 1⟩ := by
    rw [Fista.build, hc]
    rfl
  obtain ⟨rule, -, rfl⟩ := Setup.terms_of_build hc
  exact ⟨_, hbuild, rfl, arrivesAtOnce hbuild hconvex hradial hterms (div_pos hfactor hL)
    (div_mul_cancel₀ stepFactor hL.ne') hobjective hz⟩

end Fista

/-! ## The plain method -/

namespace Ista

variable [Preconditioner π ℝ]

/-- **The method goes through points that come closer to `best`** by the factor `rate` in each iteration. Run however
    often before, it completes every run; it ends and shows these points. -/
structure Contracts (setup : Setup ℝ ρ π) (best : Vec ℝ) (rate : ℝ) (x : ℕ → Vec ℝ) (m₀ : Ista ℝ ρ π) :
    Prop where
  start : x 0 = setup.initial
  closer : ∀ k, Vec.distance (x (k + 1)) best ≤ rate * Vec.distance (x k) best
  geometric : ∀ k, Vec.distance (x k) best ≤ rate ^ k * Vec.distance setup.initial best
  completes : ∀ {m : Ista ℝ ρ π}, Resumed m₀ m →
    ∀ {κ : Type} (budget interval : ℕ) (watcher : Watcher κ ℝ) (memory : κ),
      ∃ k r, run m budget interval watcher memory = .ok k r ∧ Iterative.iteration r.method = k ∧
        (watcher.NeverStops → k = Iterative.iteration m + budget) ∧ Iterative.solution r.method = x k ∧
        ∀ q ∈ r.shown, q.1 = x q.2

/-- The factor is that of the forward step. -/
theorem exists_contracts [LawfulStepRule ρ] {setup : Setup ℝ ρ π} {m₀ : Ista ℝ ρ π}
    {p : Problem (Space setup.initial.length)} {L a : ℝ} {b z : Space setup.initial.length}
    (hbuild : Ista.build setup = .ok m₀) (hconvex : p.Convex L) (hradial : p.Radial L b)
    (hterms : m₀.state.terms.Computes p a) (ha : 0 < a) (haL : a * L ≤ 2) (hz : p.IsMinimiser z) :
    ∃ x, Contracts setup (Vec.ofPoint z) |1 - a * L| x m₀ := by
  obtain ⟨x₀, hx₀⟩ := Vec.exists_ofPoint (rfl : setup.initial.length = setup.initial.length)
  have hproductive := productive (ρ := ρ) (π := π) ha x₀ (hconvex.objective_step_le ha haL)
  have hcloser : ∀ k, Vec.distance (Vec.ofPoint (p.iterate a x₀ (k + 1))) (Vec.ofPoint z) ≤
      |1 - a * L| * Vec.distance (Vec.ofPoint (p.iterate a x₀ k)) (Vec.ofPoint z) := by
    intro k
    rw [Vec.distance_ofPoint, Vec.distance_ofPoint]
    exact hconvex.norm_step_sub_le_mul hradial ha hz _
  refine ⟨fun k => Vec.ofPoint (p.iterate a x₀ k), hx₀, hcloser, fun k => ?_, ?_⟩
  · have hstart : Vec.distance setup.initial (Vec.ofPoint z) =
        Vec.distance (Vec.ofPoint (p.iterate a x₀ 0)) (Vec.ofPoint z) :=
      congrArg (Vec.distance · (Vec.ofPoint z)) hx₀.symm
    rw [hstart]
    exact le_geom (u := fun k => Vec.distance (Vec.ofPoint (p.iterate a x₀ k)) (Vec.ofPoint z)) (abs_nonneg _) k
      fun j _ => hcloser j
  · intro m hm κ budget interval watcher memory
    obtain ⟨-, k, r, hrun, hlast, hiterates, hnever⟩ := hproductive.resumed_run_ok hm
      (follows_of_build hbuild hterms hx₀) budget interval watcher memory
    refine ⟨k, r, hrun, hlast.state.iteration, hnever, hlast.state.solution, fun q hq => ?_⟩
    obtain ⟨m', hm', hshown⟩ := hiterates q hq
    exact hshown.trans hm'.state.solution

end Ista

/-! ## Both methods -/

variable [Preconditioner π ℝ] [LawfulStepRule ρ]

/-- **Default steps on squared distances.** Let the smooth term be a squared distance with a positive scale, the
    proximable term absent, a one-norm or a squared distance, and leave the step to the method and the gradient to
    itself. Then the objective has one minimiser. The accelerated method is there from its first iteration on, and the
    distance of the plain method to it shrinks by the factor 0.98 in every iteration. -/
theorem default_steps_on_squared_distances {setup : Setup ℝ ρ π} {f : SquaredDistance ℝ} {g : Option (BasicTerm ℝ)}
    (hdata : setup.ConvexData (some (.squaredDistance f)) g) (hdefault : setup.StepIsDefault)
    (hpreconditioner : setup.preconditioner = none) :
    ∃ best least, setup.LeastAt best least ∧
      (∃ m₀, Fista.build setup = .ok m₀ ∧ m₀.state.losses = #[] ∧ Fista.ArrivesAtOnce setup best least m₀) ∧
      ∃ m₀ x, Ista.build setup = .ok m₀ ∧ Ista.Contracts setup best 0.98 x m₀ := by
  obtain ⟨p, L, b, hL, hconvex, hradial, hobjective, hbuilds⟩ := hdata.exists_radial hdefault hpreconditioner
  obtain ⟨z, hz, hunique⟩ := hconvex.existsUnique_isMinimiser hradial hL
  refine ⟨_, _, Setup.leastAt_ofPoint hobjective hz hunique,
    Fista.exists_arrivesAtOnce hL hconvex hradial hobjective hbuilds hz, ?_⟩
  have hfactor : (0 : ℝ) < Ista.stepFactor := by
    show (0 : ℝ) < 1.98
    norm_num
  obtain ⟨c, hc, hterms⟩ := hbuilds Ista.stepFactor hfactor
  have hbuild : Ista.build setup = .ok ⟨c⟩ := by
    rw [Ista.build, hc]
    rfl
  have hlength : Ista.stepFactor / L * L = (1.98 : ℝ) := div_mul_cancel₀ Ista.stepFactor hL.ne'
  obtain ⟨x, hx⟩ := Ista.exists_contracts hbuild hconvex hradial hterms (div_pos hfactor hL)
    (hlength.trans_le (by norm_num)) hz
  have hrate : |1 - Ista.stepFactor / L * L| = (0.98 : ℝ) := by
    rw [hlength]
    norm_num
  exact ⟨_, x, hbuild, hrate ▸ hx⟩

/-- A lasso on the line: a multiple of the squared distance to a centre, and the absolute value. -/
noncomputable def lassoOnTheLine (start center scale : ℝ) : Setup ℝ (ConstantStep ℝ) (Sensitivity ℝ) where
  initial := [start]
  smooth := some (SquaredDistance.functional ⟨scale, some [center]⟩)
  proximable := some (OneNorm.functional ⟨1⟩)
  stepSize := none
  rule := none
  preconditioner := none

theorem convexData_lassoOnTheLine (start center : ℝ) {scale : ℝ} (hscale : 0 < scale) :
    (lassoOnTheLine start center scale).ConvexData (some (.squaredDistance ⟨scale, some [center]⟩))
      (some (.oneNorm ⟨1⟩)) := by
  refine ⟨rfl, rfl, ?_, ?_⟩
  · rintro t ⟨⟩
    refine ⟨hscale, ?_⟩
    rintro b ⟨⟩
    rfl
  · rintro t ⟨⟩
    exact ⟨zero_le_one, trivial⟩

theorem objective_lassoOnTheLine (start center scale v : ℝ) :
    (lassoOnTheLine start center scale).objective [v] = some (scale * (v - center) ^ 2 + |v|) := by
  simp [Setup.objective, lassoOnTheLine, valueOrZero, SquaredDistance.functional, SquaredDistance.value?,
    SquaredDistance.distanceSq?, Vec.zip?, Vec.sum_eq_sum, OneNorm.functional, OneNorm.value, Functional.ofProximal,
    pow_two]

/-- With half the squared distance to three, the minimiser is two: three, thresholded by one. From ten the accelerated
    method is there after an iteration, and stays; the plain one has come from the distance eight to `0.98⁷ · 8` at most
    after seven iterations. -/
theorem default_steps_on_squared_distances_on_the_line :
    (∃ (m₀ : Fista ℝ (ConstantStep ℝ) (Sensitivity ℝ)) (r : Run (Fista ℝ (ConstantStep ℝ) (Sensitivity ℝ)) Unit ℝ),
      Fista.build (lassoOnTheLine 10 3 (1 / 2)) = .ok m₀ ∧ run m₀ 7 1 Watcher.never () = .ok 7 r ∧
      Iterative.solution r.method = [2] ∧ ∀ q ∈ r.shown, 1 ≤ q.2 → q.1 = [2]) ∧
    ∃ (m₀ : Ista ℝ (ConstantStep ℝ) (Sensitivity ℝ)) (r : Run (Ista ℝ (ConstantStep ℝ) (Sensitivity ℝ)) Unit ℝ)
      (x : ℕ → Vec ℝ), Ista.build (lassoOnTheLine 10 3 (1 / 2)) = .ok m₀ ∧
      Ista.Contracts (lassoOnTheLine 10 3 (1 / 2)) [2] 0.98 x m₀ ∧ run m₀ 7 1 Watcher.never () = .ok 7 r ∧
      Iterative.solution r.method = x 7 ∧ Vec.distance (x 7) [2] ≤ 0.98 ^ 7 * 8 := by
  obtain ⟨best, least, hleast, ⟨m₀, hbuild, -, hruns⟩, n₀, x, hbuild', hcontracts⟩ :=
    default_steps_on_squared_distances (convexData_lassoOnTheLine 10 3 one_half_pos) ⟨rfl, rfl⟩ rfl
  obtain rfl : [2] = best := by
    obtain ⟨v, rfl⟩ := List.length_eq_one_iff.mp hleast.length
    have hvalue := objective_lassoOnTheLine 10 3 (1 / 2) v
    obtain rfl := Option.some.inj (hleast.value.symm.trans hvalue)
    refine hleast.eq_of_le rfl (objective_lassoOnTheLine 10 3 (1 / 2) 2) ?_
    -- both sides differ by half a square, up to the sign of `v`
    rw [abs_of_pos (by norm_num : (0 : ℝ) < 2)]
    linarith [sq_nonneg (v - 2), le_abs_self v]
  constructor
  · obtain ⟨p, -, hstart⟩ := Fista.at_of_build hbuild
    obtain ⟨k, r, hrun, -, hk, hsolution, hshown, -⟩ := hruns .start 7 1 Watcher.never ()
    obtain rfl : k = 7 := (hk fun _ _ _ => rfl).trans (congrArg (· + 7) hstart.iteration)
    exact ⟨m₀, r, hbuild, hrun, hsolution (by norm_num), hshown⟩
  · obtain ⟨p, -, hstart, -⟩ := Ista.at_of_build hbuild'
    obtain ⟨k, r, hrun, -, hk, hsolution, -⟩ := hcontracts.completes .start 7 1 Watcher.never ()
    obtain rfl : k = 7 := (hk fun _ _ _ => rfl).trans (congrArg (· + 7) hstart.iteration)
    have hdistance : Vec.distance [10] [2] = 8 := by
      have hsquare : Vec.pairing (List.zipWith (· - ·) [10] [2]) (List.zipWith (· - ·) [10] [2]) = 8 ^ 2 := by
        norm_num [Vec.pairing]
      rw [Vec.distance, hsquare, Real.sqrt_sq (by norm_num)]
    exact ⟨n₀, r, x, hbuild', hcontracts, hrun, hsolution, hdistance ▸ hcontracts.geometric 7⟩

end Splitting
