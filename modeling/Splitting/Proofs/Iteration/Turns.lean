import Splitting.ForwardBackward.Ista
import Splitting.Proofs.ForwardBackward.Acceleration
import Splitting.Proofs.Iteration.Chronicle
import Splitting.Proofs.PrimalDual.Frames

/-!
# `Splitting.Proofs.Iteration.Turns` — the order of the calls in a run

All three methods count the updates that succeed, and nothing else. For such a method a run is told by its turns:
which calls it makes and in which order, what the watcher is shown, how many objectives are recorded, and how
it ends.

* `Ista.recordObjective_eq`, `Fista.recordObjective_eq` — what a record leaves of a proximal gradient method;
* `Ista.countsIterations`, `Fista.countsIterations`, `Spdhg.countsIterations` — the methods count;
* `run_takes_turns` — the main statement.
-/

namespace Splitting

/-! ## The methods count their iterations -/

section

variable {S W ρ π σ : Type} [Scalar S]

/-- A record of the objective leaves all but the records as it was. -/
theorem Composite.recordObjective_eq {c c' : Composite S ρ π} (h : c.recordObjective.state? = some c') :
    ∃ losses, c' = { c with losses := losses } := by
  unfold recordObjective at h
  cases hv : c.terms.objective c.solution with
  | none =>
    rw [hv] at h
    cases h
  | some v =>
    rw [hv] at h
    cases h
    exact ⟨_, rfl⟩

/-- A record of the plain method leaves all but the records as it was. -/
theorem Ista.recordObjective_eq {m m' : Ista S ρ π} [StepRule ρ S] [Preconditioner π S]
    (h : (Iterative.recordObjective m).state? = some m') :
    ∃ losses, m' = ⟨{ m.state with losses := losses }⟩ := by
  obtain ⟨c, hc, rfl⟩ := Option.map_eq_some_iff.mp (Outcome.state?_mapState.symm.trans h)
  obtain ⟨losses, rfl⟩ := Composite.recordObjective_eq hc
  exact ⟨losses, rfl⟩

/-- A record of the accelerated method leaves all but the records as it was. -/
theorem Fista.recordObjective_eq {m m' : Fista S ρ π} [StepRule ρ S] [Preconditioner π S]
    (h : (Iterative.recordObjective m).state? = some m') :
    ∃ losses, m' = { m with state := { m.state with losses := losses } } := by
  obtain ⟨c, hc, rfl⟩ := Option.map_eq_some_iff.mp (Outcome.state?_mapState.symm.trans h)
  obtain ⟨losses, rfl⟩ := Composite.recordObjective_eq hc
  exact ⟨losses, rfl⟩

theorem Ista.countsIterations [StepRule ρ S] [Preconditioner π S] : CountsIterations (Ista S ρ π) where
  update h := by
    obtain ⟨a, m₁, h₁, h⟩ := Outcome.bind_eq_ok_iff.mp h
    obtain ⟨s, -, rfl⟩ := Outcome.mapState_eq_ok_iff.mp h₁
    cases h
    rfl
  failed h := by
    rcases Outcome.bind_eq_error_iff.mp h with h | ⟨a, m₁, -, h⟩
    · obtain ⟨s, -, rfl⟩ := Outcome.mapState_eq_error_iff.mp h
      rfl
    · cases h
  exchange _ := rfl
  record h := by
    obtain ⟨losses, rfl⟩ := Ista.recordObjective_eq h
    rfl

theorem Fista.countsIterations [StepRule ρ S] [Preconditioner π S] : CountsIterations (Fista S ρ π) where
  update h := by
    obtain ⟨a, s, y, -, -, -, rfl⟩ := Fista.update_eq_ok h
    rfl
  failed h := (Fista.frame_of_update_error h).1
  exchange _ := rfl
  record h := by
    obtain ⟨losses, rfl⟩ := Fista.recordObjective_eq h
    rfl

theorem Spdhg.countsIterations [IndexSource σ W] : CountsIterations (Spdhg S σ) where
  update h := by
    obtain ⟨point, x, b, image, ascent, y, delta, -, -, -, -, -, -, -, -, -, -, rfl⟩ :=
      Spdhg.update_eq_ok_iff_equations.mp h
    rfl
  failed h := by
    obtain ⟨x, scratch, source, blocks, rfl, -, -, -⟩ := Spdhg.frame_of_update_error h
    rfl
  exchange _ := rfl
  record h := by
    obtain ⟨scratch, blocks, losses, rfl, -, -⟩ := Spdhg.frame_of_recordObjective h
    rfl

end

/-! ## The turns of a run -/

variable {A κ S : Type} [Iterative A S]

/-- **The calls of a run.** Let updates that succeed count iterations, and nothing else. Then a run takes turns.
    The first is turn 0 if the method has not moved yet, and else the turn after its last iteration; the last is
    the one that uses the budget up, at most.

    For a turn the run updates and exchanges, except for turn 0; then it records the objective, if a positive
    interval divides the number of the turn; and then it shows the watcher the solution of the method as it is
    then. The run ends when the watcher says so, or when the budget is used up; the value is then the number of
    completed iterations. Or it ends with the first error, of which the failed call is the last event.

    So the watcher is shown consecutive numbers. A run without an interval makes no record; and one that
    succeeds after iteration `e`, having begun after iteration `s`, has made `⌊e / I⌋ - ⌊s / I⌋` of them, and one
    more for a method that had not moved yet. -/
theorem run_takes_turns (h : CountsIterations A) (m : A) (budget interval : Nat) (watcher : Watcher κ S)
    (memory : κ) : ∃ turns, Leads interval m (RunInvariant.firstShown (Iterative.iteration m)) turns ∧
    Ending interval watcher (RunInvariant.firstShown (Iterative.iteration m)) (Iterative.iteration m + budget)
      ⟨m, memory, #[]⟩ turns (run m budget interval watcher memory) ∧
    (∀ r, (run m budget interval watcher memory).state? = some r →
      r.shown = told (RunInvariant.firstShown (Iterative.iteration m)) turns ∧
      r.shown.map Prod.snd = List.range' (RunInvariant.firstShown (Iterative.iteration m)) turns.length ∧
      (interval = 0 → r.recordCount = 0)) ∧
    ∀ e r, run m budget interval watcher memory = .ok e r → Iterative.iteration r.method = e ∧
      (0 < interval → r.recordCount = e / interval - Iterative.iteration m / interval +
        if Iterative.iteration m = 0 then 1 else 0) := by
  obtain ⟨turns, hleads, hends⟩ := run_chronicled h m budget interval watcher memory
  refine ⟨turns, hleads, hends, fun r hr => ?_, fun e r hr => ?_⟩
  · obtain ⟨m', rest, htells, hshown, hrecords⟩ := hends.tells hr
    have hshows := htells.shown hshown rfl
    refine ⟨hshows, by rw [hshows, map_snd_told], fun hzero => ?_⟩
    subst hzero
    rw [Run.recordCount, htells.trace, List.countP_append, List.countP_append, countP_story_zero, hrecords rfl]
    rfl
  · rw [hr] at hends
    obtain ⟨hlength, htells⟩ := hends.value
    have hfirst : Iterative.iteration m = RunInvariant.firstShown (Iterative.iteration m) - 1 := by
      unfold RunInvariant.firstShown
      split <;> omega
    refine ⟨?_, fun hinterval => ?_⟩
    · rw [htells.method, hleads.iteration h hfirst]
      omega
    · rw [Run.recordCount, htells.trace, List.append_nil]
      exact countP_story hinterval hlength

/-- The method for the square on the real line before its first iteration, with records. -/
noncomputable def squareOnTheLineWith (start : ℝ) (losses : Array ℝ) : Fista ℝ (ConstantStep ℝ) (Sensitivity ℝ) :=
  { squareOnTheLineMethod start with state := { (squareOnTheLineMethod start).state with losses := losses } }

/-- The method after its first iteration, which has gone to the minimum. -/
noncomputable def squareOnTheLineMoved (start : ℝ) (gradient : Vec ℝ) (losses : Array ℝ) :
    Fista ℝ (ConstantStep ℝ) (Sensitivity ℝ) :=
  ⟨{ (squareOnTheLineMethod start).state with
    solution := [0]
    next := [start]
    gradient := gradient
    losses := losses
    iteration := 1 }, [0], Fista.nextMomentum 1⟩

theorem record_squareOnTheLineWith (start : ℝ) (losses : Array ℝ) :
    Iterative.recordObjective (squareOnTheLineWith start losses) =
      .ok () (squareOnTheLineWith start (losses.push (start * start))) := by
  simp [Iterative.recordObjective, Composite.recordObjective, Terms.objective, valueOrZero, squareOnTheLineWith,
    squareOnTheLineMethod, squareOnTheLine, SquaredDistance.functional, SquaredDistance.value?,
    SquaredDistance.distanceSq?, SquaredDistance.unit, Vec.normSq_eq_pairing, Vec.pairing, Outcome.put]

theorem record_squareOnTheLineMoved (start : ℝ) (gradient : Vec ℝ) (losses : Array ℝ) :
    Iterative.recordObjective (squareOnTheLineMoved start gradient losses) =
      .ok () (squareOnTheLineMoved start gradient (losses.push 0)) := by
  simp [Iterative.recordObjective, Composite.recordObjective, Terms.objective, valueOrZero, squareOnTheLineMoved,
    squareOnTheLineMethod, squareOnTheLine, SquaredDistance.functional, SquaredDistance.value?,
    SquaredDistance.distanceSq?, SquaredDistance.unit, Vec.normSq_eq_pairing, Vec.pairing, Outcome.put]

theorem advance_squareOnTheLineWith (start : ℝ) (losses : Array ℝ) :
    advance 1 (squareOnTheLineWith start losses) = .ok () (squareOnTheLineMoved start [2 * start] losses) := by
  have hupdate : Iterative.update (squareOnTheLineWith start losses) = _ := squareOnTheLine_update start losses
  rw [advance, if_neg Nat.one_ne_zero, hupdate]
  rfl

/-- With a record in every turn, turn 0 shows the starting point. -/
theorem comesTo_squareOnTheLineWith (start : ℝ) (losses : Array ℝ) :
    comesTo 1 0 (squareOnTheLineWith start losses) =
      .ok () (squareOnTheLineWith start (losses.push (start * start))) :=
  record_squareOnTheLineWith start losses

/-- Turn 1 shows the minimum. -/
theorem comesTo_squareOnTheLineMoved (start : ℝ) (losses : Array ℝ) :
    comesTo 1 1 (squareOnTheLineWith start losses) =
      .ok () (squareOnTheLineMoved start [2 * start] (losses.push 0)) := by
  rw [comesTo, advance_squareOnTheLineWith, Outcome.bind_ok]
  exact record_squareOnTheLineMoved start [2 * start] losses

/-- The part of these turns before the watcher's. -/
theorem turn_squareOnTheLineWith {κ : Type} (start : ℝ) (losses : Array ℝ) (memory : κ)
    (trace : Array (Event ℝ)) : Run.turn 1 0 ⟨squareOnTheLineWith start losses, memory, trace⟩ =
      .ok () ⟨squareOnTheLineWith start (losses.push (start * start)), memory, trace ++ #[.objective]⟩ := by
  rw [Run.turn_of_advance (k := 0) (m := squareOnTheLineWith start losses) rfl rfl]
  exact congrArg _ (comesTo_squareOnTheLineWith start losses)

theorem turn_squareOnTheLineMoved {κ : Type} (start : ℝ) (losses : Array ℝ) (memory : κ)
    (trace : Array (Event ℝ)) : Run.turn 1 1 ⟨squareOnTheLineWith start losses, memory, trace⟩ =
      .ok () ⟨squareOnTheLineMoved start [2 * start] (losses.push 0), memory,
        trace ++ #[.update, .exchange, .objective]⟩ := by
  rw [Run.turn_of_advance (k := 1) (advance_squareOnTheLineWith start losses) rfl]
  exact congrArg _ (comesTo_squareOnTheLineMoved start losses)

/-- A run on the real line that its watcher stops when it is shown a second solution, with a record in each
    turn. -/
theorem run_squareOnTheLineMethod :
    run (squareOnTheLineMethod 3) 5 1 (fun seen _ _ => (seen == 1, seen + 1)) 0 =
      .ok 1 ⟨squareOnTheLineMoved 3 [2 * 3] #[3 * 3, 0], 2,
        #[.objective, .watch [3] 0, .update, .exchange, .objective, .watch [0] 1]⟩ := by
  have hfirst := turn_squareOnTheLineWith 3 #[] 0 #[]
  have hsecond := turn_squareOnTheLineMoved 3 #[3 * 3] 1 #[.objective, .watch [3] 0]
  rw [run_eq_turn rfl]
  refine (congrArg (Outcome.bind · _) hfirst).trans ?_
  rw [Outcome.bind_ok, Run.goOn, if_neg (by simp [Run.watch]), Run.watch]
  refine (Run.iterate_eq_turn (k := 0) Fista.countsIterations rfl).trans ?_
  exact congrArg (Outcome.bind · _) hsecond

/-- A run on the real line that its watcher stops when it is shown a second solution. The first iteration goes to
    the minimum, and each turn has a record. -/
theorem run_takes_turns_on_the_line : ∃ r : Run (Fista ℝ (ConstantStep ℝ) (Sensitivity ℝ)) Nat ℝ,
    CountsIterations (Fista ℝ (ConstantStep ℝ) (Sensitivity ℝ)) ∧
    run (squareOnTheLineMethod 3) 5 1 (fun seen _ _ => (seen == 1, seen + 1)) 0 = .ok 1 r ∧
    r.shown = [([3], 0), ([0], 1)] ∧ Iterative.iteration r.method = 1 ∧ r.recordCount = 1 / 1 - 0 / 1 + 1 := by
  have hcounts : CountsIterations (Fista ℝ (ConstantStep ℝ) (Sensitivity ℝ)) := Fista.countsIterations
  have hrun := run_squareOnTheLineMethod
  obtain ⟨turns, -, -, -, hvalue⟩ :=
    run_takes_turns hcounts (squareOnTheLineMethod 3) 5 1 (fun seen _ _ => (seen == 1, seen + 1)) 0
  obtain ⟨hcount, hrecords⟩ := hvalue 1 _ hrun
  exact ⟨_, hcounts, hrun, rfl, hcount, hrecords Nat.one_pos⟩

end Splitting
