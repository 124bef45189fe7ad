import Splitting.ForwardBackward.Fista
import Splitting.Functional.SquaredDistance
import Splitting.Proofs.Exact.Reals
import Splitting.Proofs.ForwardBackward.Step
import Splitting.Proofs.Iteration

/-!
# `Splitting.Proofs.ForwardBackward.Acceleration` — a run computes the accelerated recursion

The accelerated method keeps two buffers for its iterates. An update writes the new iterate into the one
while the other still holds the last iterate, from which it extrapolates; the loop of a run then exchanges
the two. Along every run, and in any arithmetic, the current solution, the momentum and the point ahead are
those of the documented recursion, and so is every iterate that the watcher is shown.

* `Fista.Point`, `Fista.Point.next?`, `Fista.recursion?` — the documented recursion, without buffers;
* `Fista.At` — a method between two iterations is at the recursion's point;
* `Fista.runInvariant` — a round of a run moves it on to the next point;
* `fista_run_computes_recursion` — the main statement.
-/

namespace Splitting

namespace Fista

variable {S ρ π : Type} [Scalar S]

/-! ## The recursion -/

/-- What the recursion carries from one iteration to the next: the iterate, the point ahead of it, the
    momentum, and the terms with the state of the rule and of the preconditioner. -/
structure Point (S ρ π : Type) where
  x : Vec S
  y : Vec S
  t : S
  terms : Terms S ρ π

section

variable [StepRule ρ S] [Preconditioner π S]

/-- **Iteration `k` as it is documented:**

      `x' = prox (a g) (y - a ∇f y)`,
      `t' = (1 + √(1 + 4 t²)) / 2`,
      `y' = x' + (t - 1) / t' · (x' - x)`. -/
def Point.next? (k : Nat) (p : Point S ρ π) : Option (Point S ρ π) := do
  let (terms, x) ← p.terms.advance? k p.y
  let t := (1 + Scalar.sqrt (1 + ((4 : Nat) : S) * p.t * p.t)) / ((2 : Nat) : S)
  let y ← Vec.zip? (fun new old => new + (p.t - 1) / t * (new - old)) x p.x
  return ⟨x, y, t, terms⟩

/-- The recursion's point after `k` iterations, from `y₀ = x₀` and `t₀ = 1`. -/
def recursion? (setup : Setup S ρ π) : Nat → Option (Point S ρ π)
  | 0 =>
    match setup.choice stepFactor with
    | .ok rule => some ⟨setup.initial, setup.initial, 1,
        ⟨setup.smooth, setup.proximable, rule, setup.preconditioner⟩⟩
    | .error _ => none
  | k + 1 => (recursion? setup k).bind (Point.next? k)

end

/-! ## The method at the recursion's point -/

/-- The method is at the point of the recursion after `k` iterations. Of the buffers only the lengths are
    known. -/
structure At (setup : Setup S ρ π) (p : Point S ρ π) (k : Nat) (m : Fista S ρ π) : Prop where
  iteration : m.state.iteration = k
  solution : m.state.solution = p.x
  ahead : m.ahead = p.y
  momentum : m.momentum = p.t
  terms : m.state.terms = p.terms
  smooth : p.terms.smooth = setup.smooth
  proximable : p.terms.proximable = setup.proximable
  length_solution : p.x.length = setup.initial.length
  length_ahead : p.y.length = setup.initial.length
  length_next : m.state.next.length = setup.initial.length
  length_gradient : m.state.gradient.length = setup.initial.length

/-- The method has completed `k` iterations, with the recursion's iterate and momentum. -/
structure Shows (p : Point S ρ π) (k : Nat) (m : Fista S ρ π) : Prop where
  iteration : m.state.iteration = k
  solution : m.state.solution = p.x
  momentum : m.momentum = p.t

omit [Scalar S] in
theorem At.shows {setup : Setup S ρ π} {p : Point S ρ π} {k : Nat} {m : Fista S ρ π} (h : At setup p k m) :
    Shows p k m :=
  ⟨h.iteration, h.solution, h.momentum⟩

/-- The extrapolation, where the lengths fit. -/
theorem extrapolate_eq_ok_iff {m m' : Fista S ρ π} : m.extrapolate = .ok () m' ↔
    ∃ y, Vec.zip? (fun x old => x + (m.momentum - 1) / nextMomentum m.momentum * (x - old)) m.state.next
        m.state.solution = some y ∧ y.length = m.ahead.length ∧
      m' = ⟨{ m.state with iteration := m.state.iteration + 1 }, y, nextMomentum m.momentum⟩ := by
  simp only [extrapolate, Outcome.put_eq_ok_iff, Option.map_eq_some_iff, Option.bind_eq_some_iff,
    Vec.write?_eq_some_iff]
  constructor
  · rintro ⟨y, ⟨_, hy, hlen, rfl⟩, rfl⟩
    exact ⟨_, hy, hlen, rfl⟩
  · rintro ⟨y, hy, hlen, rfl⟩
    exact ⟨y, ⟨y, hy, hlen, rfl⟩, rfl⟩

variable [StepRule ρ S] [Preconditioner π S]

/-- **An update** is a step from the point ahead, then the extrapolation. -/
theorem update_eq_ok {m m' : Fista S ρ π} (h : m.update = .ok () m') :
    ∃ a s y, Stepping.step m.state.iteration ⟨m.state.terms, m.ahead, m.state.gradient, m.state.next⟩ =
      .ok a s ∧
      Vec.zip? (fun x old => x + (m.momentum - 1) / nextMomentum m.momentum * (x - old)) s.out
        m.state.solution = some y ∧ y.length = s.point.length ∧
      m' = ⟨{ m.state with
        terms := s.terms
        gradient := s.gradient
        next := s.out
        iteration := m.state.iteration + 1 }, y, nextMomentum m.momentum⟩ := by
  obtain ⟨a, m₁, h₁, h⟩ := Outcome.bind_eq_ok_iff.mp h
  obtain ⟨s, hs, rfl⟩ := Outcome.mapState_eq_ok_iff.mp h₁
  obtain ⟨y, hy, hlen, rfl⟩ := extrapolate_eq_ok_iff.mp h
  exact ⟨a, s, y, hs, hy, hlen, rfl⟩

/-- An update that fails leaves the solution and the momentum alone. -/
theorem frame_of_update_error {m m' : Fista S ρ π} {e : Error} (h : m.update = .error e m') :
    m'.state.iteration = m.state.iteration ∧ m'.state.solution = m.state.solution ∧
      m'.momentum = m.momentum := by
  rcases Outcome.bind_eq_error_iff.mp h with h | ⟨a, m₁, -, h⟩
  · obtain ⟨s, -, rfl⟩ := Outcome.mapState_eq_error_iff.mp h
    exact ⟨rfl, rfl, rfl⟩
  · exact absurd h Outcome.put_ne_error

theorem record_ne_error {m m' : Fista S ρ π} {e : Error} : Iterative.recordObjective m ≠ .error e m' := by
  intro h
  obtain ⟨c, hc, -⟩ := Outcome.mapState_eq_error_iff.mp h
  exact Outcome.put_ne_error hc

/-- A method that was built is at the starting point. -/
theorem at_of_build {setup : Setup S ρ π} {m : Fista S ρ π} (h : Fista.build setup = .ok m) :
    ∃ p, recursion? setup 0 = some p ∧ At setup p 0 m := by
  unfold Fista.build Setup.build at h
  by_cases habsent : setup.smooth.isNone ∧ setup.proximable.isNone
  · rw [if_pos habsent] at h
    cases h
  · rw [if_neg habsent] at h
    cases hrule : setup.choice stepFactor with
    | error e =>
      rw [hrule] at h
      cases h
    | ok rule =>
      rw [hrule] at h
      cases h
      exact ⟨⟨setup.initial, setup.initial, 1, ⟨setup.smooth, setup.proximable, rule, setup.preconditioner⟩⟩,
        by rw [recursion?, hrule], rfl, rfl, rfl, rfl, rfl, rfl, rfl, rfl, rfl, rfl, rfl⟩

variable {setup : Setup S ρ π} {p : Point S ρ π} {k : Nat} {m m' : Fista S ρ π}

/-- **One round moves on to the next point.** The update reads the last iterate where the exchange before
    has put it, and what the other buffer held does not matter. -/
theorem At.next (h : At setup p k m) (hf : ∀ f ∈ setup.smooth, ∀ x, Fills (f.gradient x))
    (hg : ∀ g ∈ setup.proximable, ∀ x tau, Fills (g.proximal x tau)) (hu : m.update = .ok () m') :
    ∃ p', p.next? k = some p' ∧ At setup p' (k + 1) { m' with state := m'.state.exchange } := by
  obtain ⟨a, s, y, hs, hy, hlen, rfl⟩ := update_eq_ok hu
  have hahead : m.ahead.length = setup.initial.length := h.ahead ▸ h.length_ahead
  rw [← h.smooth, ← h.terms] at hf
  rw [← h.proximable, ← h.terms] at hg
  obtain ⟨hstep, hpoint, hgradient, hout⟩ := Stepping.advance?_of_step hs hf hg
    (h.length_gradient.trans hahead.symm) (h.length_next.trans hahead.symm)
  obtain ⟨hsmooth, hproximable⟩ := Terms.smooth_of_advance? hstep
  -- the step starts from the point ahead, and the extrapolation from the iterate before it
  have hnext : p.next? k = some ⟨s.out, y, nextMomentum m.momentum, s.terms⟩ := by
    rw [h.terms, h.ahead, h.iteration] at hstep
    rw [h.solution, h.momentum] at hy
    simp only [Point.next?, hstep, Option.bind_eq_bind, Option.bind_some, Option.pure_def]
    rw [h.momentum]
    exact Option.bind_eq_some_iff.mpr ⟨y, hy, rfl⟩
  refine ⟨_, hnext, congrArg (· + 1) h.iteration, rfl, rfl, rfl, rfl, ?_, ?_, hout.trans hahead, ?_, ?_, ?_⟩
  · exact hsmooth.trans (h.terms ▸ h.smooth)
  · exact hproximable.trans (h.terms ▸ h.proximable)
  · exact hlen.trans (hpoint.trans hahead)
  · -- the exchange has made the last iterate the buffer
    show m.state.solution.length = setup.initial.length
    rw [h.solution]
    exact h.length_solution
  · exact hgradient.trans hahead

/-- **Along a run the method is at the recursion's points.** -/
theorem runInvariant (hf : ∀ f ∈ setup.smooth, ∀ x, Fills (f.gradient x))
    (hg : ∀ g ∈ setup.proximable, ∀ x tau, Fills (g.proximal x tau)) :
    RunInvariant (fun k (m : Fista S ρ π) => ∃ p, recursion? setup k = some p ∧ At setup p k m)
      (fun k m => ∃ p, recursion? setup k = some p ∧ Shows p k m) where
  iteration := fun ⟨_, _, h⟩ => h.iteration
  completed := by
    rintro k m m' ⟨p, hp, h⟩ hu
    obtain ⟨p', hp', h'⟩ := h.next hf hg hu
    refine ⟨p', ?_, h'⟩
    rw [recursion?, hp, Option.bind_some, hp']
  failed := by
    rintro k m m' e ⟨p, hp, h⟩ hu
    obtain ⟨hiteration, hsolution, hmomentum⟩ := frame_of_update_error hu
    exact ⟨p, hp, hiteration.trans h.iteration, hsolution.trans h.solution, hmomentum.trans h.momentum⟩
  recorded := by
    rintro k m m' ⟨p, hp, h⟩ ho
    obtain ⟨c, hc, rfl⟩ := Outcome.mapState_eq_ok_iff.mp ho
    obtain ⟨v, -, rfl⟩ := Option.map_eq_some_iff.mp (Outcome.put_eq_ok_iff.mp hc)
    exact ⟨p, hp, h.iteration, h.solution, h.ahead, h.momentum, h.terms, h.smooth, h.proximable,
      h.length_solution, h.length_ahead, h.length_next, h.length_gradient⟩
  records := fun _ => record_ne_error

end Fista

variable {S κ ρ π : Type} [Scalar S] [StepRule ρ S] [Preconditioner π S]

open Fista in
/-- **A run computes the accelerated recursion,** in any arithmetic, for every rule and preconditioner. A
    method that was built, and perhaps run before, ends a run with the iterate and the momentum that the
    recursion has after as many iterations as are completed, also if the run is broken off by a failure; and
    its watcher is shown the recursion's iterates, each once and in order. -/
theorem fista_run_computes_recursion {setup : Setup S ρ π} {m₀ m : Fista S ρ π}
    (hbuild : Fista.build setup = .ok m₀) (hf : ∀ f ∈ setup.smooth, ∀ x, Fills (f.gradient x))
    (hg : ∀ g ∈ setup.proximable, ∀ x tau, Fills (g.proximal x tau)) (hm : Resumed m₀ m)
    {budget interval : Nat} {watcher : Watcher κ S} {memory : κ} {r : Run (Fista S ρ π) κ S}
    (hr : (run m budget interval watcher memory).state? = some r) :
    (∃ p, recursion? setup (Iterative.iteration r.method) = some p ∧ Iterative.solution r.method = p.x ∧
        r.method.momentum = p.t) ∧
      (∀ n, run m budget interval watcher memory = .ok n r → n = Iterative.iteration r.method) ∧
      r.shown.map Prod.snd = List.range' (RunInvariant.firstShown (Iterative.iteration m))
        (Iterative.iteration r.method + 1 - RunInvariant.firstShown (Iterative.iteration m)) ∧
      ∀ q ∈ r.shown, ∃ p, recursion? setup q.2 = some p ∧ q.1 = p.x := by
  have hinv := runInvariant (S := S) (ρ := ρ) (π := π) hf hg
  obtain ⟨k, hk⟩ := hm.holds hinv (at_of_build hbuild)
  obtain ⟨n, hnumbers, hiterates, hends⟩ := hinv.run hk hr
  -- whether the run ends or breaks off, `n` iterations were completed after the `k` before it
  obtain ⟨p, hp, hshows⟩ : ∃ p, recursion? setup (k + n) = some p ∧ Shows p (k + n) r.method := by
    rcases hends with ⟨-, p, hp, h⟩ | ⟨-, h⟩
    · exact ⟨p, hp, h.shows⟩
    · exact h
  have hcount : Iterative.iteration r.method = k + n := hshows.iteration
  rw [hcount, hinv.iteration hk]
  refine ⟨⟨p, hp, hshows.solution, hshows.momentum⟩, ?_, hnumbers, ?_⟩
  · intro n' hn'
    rcases hends with ⟨hok, -⟩ | ⟨⟨e, herror⟩, -⟩
    · rw [hok] at hn'
      cases hn'
      rfl
    · rw [herror] at hn'
      cases hn'
  · intro q hq
    obtain ⟨m', ⟨p', hp', h'⟩, hq'⟩ := hiterates q hq
    exact ⟨p', hp', hq'.trans h'.solution⟩

/-- The squared norm on the real line, with the default step. -/
noncomputable def squareOnTheLine (start : ℝ) : Setup ℝ (ConstantStep ℝ) (Sensitivity ℝ) where
  initial := [start]
  smooth := some SquaredDistance.unit.functional
  proximable := none
  stepSize := none
  rule := none
  preconditioner := none

/-- The method that belongs to it, before its first iteration. -/
noncomputable def squareOnTheLineMethod (start : ℝ) : Fista ℝ (ConstantStep ℝ) (Sensitivity ℝ) where
  state := ⟨⟨(squareOnTheLine start).smooth, none, .fixed ⟨1 / (1 + 1)⟩, none⟩,
    [start], [start], [start], #[], 0⟩
  ahead := [start]
  momentum := 1

theorem build_squareOnTheLine (start : ℝ) :
    Fista.build (squareOnTheLine start) = .ok (squareOnTheLineMethod start) := by
  simp [Fista.build, Setup.build, Setup.choice, Setup.defaultStep, Fista.stepFactor, ConstantStep.of,
    squareOnTheLine, squareOnTheLineMethod, SquaredDistance.functional, SquaredDistance.unit,
    Scalar.isFinite, bind, Except.bind, pure, Except.pure]

/-- The first iteration goes to the minimum, whatever has been recorded before. -/
theorem squareOnTheLine_update (start : ℝ) (losses : Array ℝ) :
    Fista.update { squareOnTheLineMethod start with
      state := { (squareOnTheLineMethod start).state with losses := losses } } =
    .ok () ⟨{ (squareOnTheLineMethod start).state with
      next := [0]
      gradient := [2 * start]
      losses := losses
      iteration := 1 }, [0], Fista.nextMomentum 1⟩ := by
  have hgradient : SquaredDistance.unit.functional.gradientInto [start] [start] =
      (.ok () [2 * start] : Outcome (Vec ℝ) Unit) := by
    simp only [Functional.gradientInto, Functional.sameLength_eq_ok_iff, SquaredDistance.functional,
      Functional.overwrite_eq_ok_iff, SquaredDistance.gradient?, SquaredDistance.entries,
      SquaredDistance.unit]
    norm_num
  have hpoint : start + -((1 + 1)⁻¹ * (2 * start)) = 0 := by ring
  simp [Fista.update, Stepping.step, Stepping.evaluate, Stepping.precondition, Stepping.chooseStep,
    Stepping.forward, Stepping.backward, squareOnTheLineMethod, squareOnTheLine, gradientOrZero,
    hgradient, StepRule.query, hpoint, proximalOrIdentity, Functional.overwrite, Vec.spread?,
    Outcome.put, Fista.extrapolate, Vec.zip?, Vec.write?]

/-- The first iteration goes to the minimum, from wherever it starts. -/
theorem squareOnTheLine_first_iteration (start : ℝ) : ∃ m, (squareOnTheLineMethod start).update = .ok () m ∧
    m.state.next = [0] ∧ m.state.iteration = 1 :=
  ⟨_, squareOnTheLine_update start #[], rfl, rfl⟩

theorem fista_run_computes_recursion_on_the_line :
    ∃ r : Run (Fista ℝ (ConstantStep ℝ) (Sensitivity ℝ)) Unit ℝ,
    Fista.build (squareOnTheLine 3) = .ok (squareOnTheLineMethod 3) ∧
    (∀ f ∈ (squareOnTheLine 3).smooth, ∀ x, Fills (f.gradient x)) ∧
    (∀ g ∈ (squareOnTheLine 3).proximable, ∀ x tau, Fills (g.proximal x tau)) ∧
    Resumed (squareOnTheLineMethod 3) (squareOnTheLineMethod 3) ∧
    (run (squareOnTheLineMethod 3) 1 0 Watcher.never ()).state? = some r ∧
    ∃ p, Fista.recursion? (squareOnTheLine 3) 1 = some p ∧ [0] = p.x := by
  obtain ⟨m, hu, hnext, hcount⟩ := squareOnTheLine_first_iteration 3
  have hf : ∀ f ∈ (squareOnTheLine 3).smooth, ∀ x, Fills (f.gradient x) := by
    rintro f ⟨⟩
    exact (SquaredDistance.overwrites _).gradient
  have hg : ∀ g ∈ (squareOnTheLine 3).proximable, ∀ x tau, Fills (g.proximal x tau) := nofun
  let r : Run (Fista ℝ (ConstantStep ℝ) (Sensitivity ℝ)) Unit ℝ :=
    ⟨Iterative.exchange m, (), #[.watch [3] 0, .update, .exchange, .watch [0] 1]⟩
  have hrun : (run (squareOnTheLineMethod 3) 1 0 Watcher.never ()).state? = some r := by
    have hupdate : Iterative.update (squareOnTheLineMethod 3) = .ok () m := hu
    have hstart : Iterative.iteration (squareOnTheLineMethod 3) = 0 := rfl
    have hshown : Iterative.solution (squareOnTheLineMethod 3) = [3] := rfl
    have hsolution : Iterative.solution (Iterative.exchange m) = [0] := hnext
    have hone : Iterative.iteration (Iterative.exchange m) = 1 := hcount
    simp [run, hstart, Run.watch, Watcher.never, Run.iterate, Run.update, hupdate, Run.exchange,
      Run.recordIfDue, hshown, hsolution, hone, Outcome.state?, r]
  obtain ⟨⟨p, hp, hx, -⟩, -⟩ := fista_run_computes_recursion (build_squareOnTheLine 3) hf hg .start hrun
  refine ⟨r, build_squareOnTheLine 3, hf, hg, .start, hrun, p, ?_, ?_⟩
  · have hone : Iterative.iteration r.method = 1 := hcount
    rw [hone] at hp
    exact hp
  · rw [← hnext]
    exact hx

end Splitting
