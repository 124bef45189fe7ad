import Splitting.Proofs.ForwardBackward.Recursion
import Splitting.Proofs.Iteration.Losses
import Splitting.Proofs.Observation

/-!
# `Splitting.Proofs.LossHistory` — what runs with one interval leave of losses

A run asks its method for the number of completed iterations, to know whether the starting point was looked at
before. A method that was run without completing an iteration answers zero again, and records the starting point
again. So the losses of several runs are those of the starting point, one for each run that begins before the first
iteration, and then one for each multiple of the interval: loss `j` belongs to iteration `j` times the interval
exactly if there was one such run.

* `Fista.keepsLosses`, `Spdhg.keepsLosses` — no other call changes the losses;
* `Ista.lossHistory`, `Fista.lossHistory` — the losses of the proximal gradient methods;
* `Spdhg.objectives?`, `Spdhg.lossHistory` — the objectives without buffers, and the losses of the primal-dual method;
* `losses_of_runs`, `losses_repeat_start` — the main statement, and losses that are out of step with the iterations.
-/

namespace Splitting

variable {S W ρ π σ : Type} [Scalar S]

/-! ## Proximal gradient methods -/

section

variable [StepRule ρ S] [Preconditioner π S] {setup : Setup S ρ π} {interval : Nat} {shown : List (Vec S × Nat)}

/-- **The plain method** records the objectives of its setup. -/
theorem Ista.lossHistory {start m : Ista S ρ π} (hbuild : Ista.build setup = .ok start) (hinterval : 0 < interval)
    (hruns : RunsEvery interval start shown m) :
    LossHistory (fun m : Ista S ρ π => m.state.losses.toList) (fun n => setup.objective n.state.solution) start
      interval shown m := by
  obtain ⟨c, hc, rfl⟩ := Except.map_eq_ok_iff.mp hbuild
  obtain ⟨rule, -, rfl⟩ := Setup.terms_of_build hc
  refine Ista.unobtrusive.lossHistory Ista.countsIterations (Ista.unobtrusive.logs
    (fun m => m.state.terms.Of setup) Ista.keepsLosses ?_ ?_ _) rfl ⟨rfl, rfl⟩ rfl rfl hinterval hruns
  · intro m m' hm hu
    obtain ⟨a, s, hs, rfl⟩ := Ista.update_eq_ok_iff.mp hu
    exact hm.step hs
  · intro m n m' halike hm ho
    have hsolution : m.state.solution = n.state.solution := Ista.unobtrusive.solution halike
    obtain ⟨c, hc, rfl⟩ := Outcome.mapState_eq_ok_iff.mp ho
    rw [← hsolution]
    exact hm.record hc

namespace Fista

theorem keepsLosses : KeepsLosses fun m : Fista S ρ π => m.state.losses.toList where
  update {m m'} h := by
    rcases Outcome.state?_eq_some_iff.mp h with ⟨⟨⟩, h⟩ | ⟨e, h⟩
    · obtain ⟨a, s, y, -, -, -, rfl⟩ := update_eq_ok h
      rfl
    · rcases Outcome.bind_eq_error_iff.mp h with h | ⟨a, m₁, -, h⟩
      · obtain ⟨s, -, rfl⟩ := Outcome.mapState_eq_error_iff.mp h
        rfl
      · exact absurd h Outcome.put_ne_error
  exchange _ := rfl
  recorded h := by
    obtain ⟨c, hc, rfl⟩ := Outcome.mapState_eq_ok_iff.mp h
    obtain ⟨v, -, rfl⟩ := Composite.recordObjective_eq_ok_iff.mp hc
    exact ⟨v, Array.toList_push⟩
  failed h := absurd h record_ne_error

/-- **The accelerated method** records the objectives of its setup. -/
theorem lossHistory {start m : Fista S ρ π} (hbuild : Fista.build setup = .ok start) (hinterval : 0 < interval)
    (hruns : RunsEvery interval start shown m) :
    LossHistory (fun m : Fista S ρ π => m.state.losses.toList) (fun n => setup.objective n.state.solution) start
      interval shown m := by
  obtain ⟨c, hc, hstart⟩ := Except.bind_eq_ok_iff.mp hbuild
  obtain ⟨rule, -, rfl⟩ := Setup.terms_of_build hc
  cases hstart
  refine unobtrusive.lossHistory countsIterations (unobtrusive.logs (fun m => m.state.terms.Of setup) keepsLosses
    ?_ ?_ _) rfl ⟨rfl, rfl⟩ rfl rfl hinterval hruns
  · intro m m' hm hu
    obtain ⟨a, s, y, hs, -, -, rfl⟩ := update_eq_ok hu
    exact hm.step hs
  · intro m n m' halike hm ho
    have hsolution : m.state.solution = n.state.solution := unobtrusive.solution halike
    obtain ⟨c, hc, rfl⟩ := Outcome.mapState_eq_ok_iff.mp ho
    rw [← hsolution]
    exact hm.record hc

end Fista

end

/-! ## The primal-dual method -/

namespace Spdhg

/-- The sums `∑ fᵢ (Kᵢ x)` and `∑ fᵢ* yᵢ` added to `primal` and taken off `dual`, with each image a fresh vector. -/
def blockObjectives? (x : Vec S) (primal dual : S) : List (DualBlock S) → Option (S × S)
  | [] => some (primal, dual)
  | b :: rest => do
    let v ← b.term.value (← b.operator.direct? x)
    let c ← (b.term.conjugate b.dual).toOption
    blockObjectives? x (primal + v) (dual - c) rest

/-- **The objectives** at the solution and the dual variables: `∑ fᵢ (Kᵢ x) + g x`, `-∑ fᵢ* yᵢ - g* (-Kᵀ y)`, and the
    gap between them. -/
def objectives? (m : Spdhg S σ) : Option (ObjectiveRecord S) := do
  let g ← m.primalTerm.value m.x
  let (primal, dual) ← blockObjectives? m.x g 0 m.blocks
  let c ← (m.primalTerm.conjugate (← m.negatedAdjoint?)).toOption
  return ⟨primal, dual - c, primal - (dual - c)⟩

/-- The objectives of the blocks do not depend on what their buffers held. -/
theorem blockObjectives?_of_eq_ok {x : Vec S} {p d : S} {n : Nat} {bs bs' : List (DualBlock S)} {v : S × S}
    (hshaped : ∀ b ∈ bs, b.Shaped n) (hfills : ∀ b ∈ bs, ∀ x, Fills? (b.operator.direct x))
    (h : blockObjectives x p d bs = .ok v bs') : blockObjectives? x p d bs = some v := by
  induction bs generalizing p d bs' with
  | nil =>
    cases h
    rfl
  | cons b rest ih =>
    rw [blockObjectives] at h
    split at h
    · cases h
    · next image himage =>
      dsimp only at h
      split at h
      · cases h
      · cases h
      · cases h
      · next a c hvalue hconjugate =>
        obtain ⟨bs₁, hrest, -⟩ := Outcome.mapState_eq_ok_iff.mp h
        have hlength : (Vec.zeros b.operator.rangeDim : Vec S).length = b.image.length :=
          (Vec.length_zeros _).trans (hshaped b List.mem_cons_self).image.symm
        have hdirect : b.operator.direct? x = some image :=
          LinearOperator.fills?_into (hfills b List.mem_cons_self x) hlength himage
        have htail := ih (fun b hb => hshaped b (List.mem_cons_of_mem _ hb))
          (fun b hb => hfills b (List.mem_cons_of_mem _ hb)) hrest
        simp [blockObjectives?, hdirect, hvalue, hconjugate, htail, Except.toOption]

/-- They do not depend on the buffers at all. -/
theorem blockObjectives?_congr {x : Vec S} {p d : S} {bs cs : List (DualBlock S)}
    (h : cs.map DualBlock.imageless = bs.map DualBlock.imageless) :
    blockObjectives? x p d cs = blockObjectives? x p d bs := by
  induction bs generalizing cs p d with
  | nil => rw [List.map_eq_nil_iff.mp h]
  | cons b bs ih =>
    obtain ⟨c, cs', rfl, hc, hcs⟩ := List.map_eq_cons_iff.mp h
    obtain ⟨image, -, rfl⟩ := DualBlock.imageless_eq_iff.mp hc
    simp only [blockObjectives?, ih hcs]

theorem objectives?_of_alike {m n : Spdhg S σ} (h : m.Alike n) : n.objectives? = m.objectives? := by
  obtain ⟨scratch, blocks, losses, rfl, hscratch, hblocks⟩ := h
  have hadjoint : negatedAdjoint? { m with scratch := scratch, blocks := blocks, losses := losses } =
      m.negatedAdjoint? :=
    negatedAdjoint?_of_map_outline hscratch (DualBlock.map_outline_of_map_imageless hblocks)
  simp only [objectives?, hadjoint, blockObjectives?_congr hblocks]

/-- **A record adds the objectives.** -/
theorem record_eq_ok {m m' : Spdhg S σ} (hshaped : m.Shaped) (hfills : m.FillsImages)
    (h : m.recordObjective = .ok () m') :
    ∃ v, m.objectives? = some v ∧ m'.losses.toList = m.losses.toList ++ [v] := by
  obtain ⟨g, primal, dual, blocks, v, c, hg, hblocks, hv, hc, rfl⟩ := recordObjective_eq_ok_iff.mp h
  refine ⟨⟨primal, dual - c, primal - (dual - c)⟩, ?_, Array.toList_push⟩
  have hadjoint : negatedAdjoint? { m with blocks := blocks } = m.negatedAdjoint? :=
    negatedAdjoint?_of_map_outline rfl (outline_of_blockObjectives (by rw [hblocks]; rfl))
  rw [hadjoint] at hv
  have hvalues := blockObjectives?_of_eq_ok hshaped.block hfills hblocks
  simp [objectives?, hg, hvalues, hv, hc, Except.toOption]

variable [IndexSource σ W]

theorem keepsLosses : KeepsLosses fun m : Spdhg S σ => m.losses.toList where
  update {m m'} h := by
    rcases Outcome.state?_eq_some_iff.mp h with ⟨⟨⟩, h⟩ | ⟨e, h⟩
    · obtain ⟨point, x, b, image, ascent, y, delta, -, -, -, -, -, -, -, -, -, -, rfl⟩ :=
        update_eq_ok_iff_equations.mp h
      rfl
    · obtain ⟨x, scratch, source, blocks, rfl, -, -, -⟩ := frame_of_update_error h
      rfl
  exchange _ := rfl
  recorded h := by
    obtain ⟨g, primal, dual, blocks, v, c, -, -, -, -, rfl⟩ := recordObjective_eq_ok_iff.mp h
    exact ⟨_, Array.toList_push⟩
  failed h := by
    rcases recordObjective_eq_error h with ⟨g, blocks, -, rfl⟩ | ⟨g, primal, dual, blocks, v, -, -, -, rfl⟩
    · rfl
    · rfl

/-- **The primal-dual method** records the objectives. -/
theorem lossHistory {start m : Spdhg S σ} {interval : Nat} {shown : List (Vec S × Nat)}
    (hstart : start.iteration = 0) (hempty : start.losses = #[]) (hshaped : start.Shaped)
    (hfills : start.FillsImages) (hinterval : 0 < interval) (hruns : RunsEvery interval start shown m) :
    LossHistory (fun m : Spdhg S σ => m.losses.toList) objectives? start interval shown m := by
  refine unobtrusive.lossHistory countsIterations (unobtrusive.logs Shaped keepsLosses ?_ ?_ _) hstart hshaped
    ⟨.refl _, hfills⟩ (congrArg Array.toList hempty) hinterval hruns
  · intro m m' hm hu
    exact hm.of_update hu
  · rintro m n m' ⟨halike, hm₂⟩ hm ho
    obtain ⟨v, hv, hlosses⟩ := record_eq_ok hm hm₂ ho
    refine ⟨hm.perform (c := .recordObjective) (congrArg Outcome.state? ho), v, ?_, hlosses⟩
    rw [objectives?_of_alike halike, hv]

end Spdhg

/-! ## All three methods -/

/-- **The losses of runs with one interval,** in any arithmetic. Take a proximal gradient method, plain or
    accelerated, or a primal-dual method, as it was built, and runs with one positive interval, one after another,
    none of which fails. Budgets and watchers may be any.

    The method then has as many losses as it has completed iterations that the interval divides, and one more for each
    time that the starting point was shown. These are all losses of the starting point, and come first; after them
    comes the objective at each iterate whose number the interval divides. So if the starting point was shown once,
    loss `j` is the objective at iterate `j` times the interval.

    Of the primal-dual method the objectives are told if its operators write images that do not depend on what the
    buffer held, and the number of losses in any case. -/
theorem losses_of_runs [Scalar W] [Precision S W] [StepRule ρ S] [Preconditioner π S] [IndexSource σ W] :
    (∀ {setup : Setup S ρ π} {start m : Ista S ρ π} {interval : Nat} {shown : List (Vec S × Nat)},
      Ista.build setup = .ok start → 0 < interval → RunsEvery interval start shown m →
      m.state.losses.toList.length = looks shown + m.state.iteration / interval ∧
      LossHistory (fun m => m.state.losses.toList) (fun n => setup.objective n.state.solution) start interval shown
        m) ∧
    (∀ {setup : Setup S ρ π} {start m : Fista S ρ π} {interval : Nat} {shown : List (Vec S × Nat)},
      Fista.build setup = .ok start → 0 < interval → RunsEvery interval start shown m →
      m.state.losses.toList.length = looks shown + m.state.iteration / interval ∧
      LossHistory (fun m => m.state.losses.toList) (fun n => setup.objective n.state.solution) start interval shown
        m) ∧
    ∀ {setup : SpdhgSetup S σ} {start m : Spdhg S (BlockSource σ W)} {interval : Nat} {shown : List (Vec S × Nat)},
      setup.build = .ok start → 0 < interval → RunsEvery interval start shown m →
      m.losses.toList.length = looks shown + m.iteration / interval ∧
      (start.FillsImages →
        LossHistory (fun m => m.losses.toList) Spdhg.objectives? start interval shown m) := by
  refine ⟨?_, ?_, ?_⟩
  · intro setup start m interval shown hbuild hinterval hruns
    obtain ⟨p, -, hstart, hempty⟩ := Ista.at_of_build hbuild
    exact ⟨Ista.keepsLosses.length_of_runs Ista.countsIterations hstart.iteration (congrArg Array.toList hempty)
      hinterval hruns, Ista.lossHistory hbuild hinterval hruns⟩
  · intro setup start m interval shown hbuild hinterval hruns
    obtain ⟨c, hc, hstart⟩ := Except.bind_eq_ok_iff.mp hbuild
    obtain ⟨rule, -, rfl⟩ := Setup.terms_of_build hc
    cases hstart
    exact ⟨Fista.keepsLosses.length_of_runs Fista.countsIterations rfl rfl hinterval hruns,
      Fista.lossHistory hbuild hinterval hruns⟩
  · intro setup start m interval shown hbuild hinterval hruns
    have hshaped := SpdhgSetup.shaped_of_build hbuild
    obtain ⟨given, weights, source, norms, steps, x, -, -, -, -, -, -, rfl⟩ := SpdhgSetup.build_eq_ok hbuild
    exact ⟨Spdhg.keepsLosses.length_of_runs Spdhg.countsIterations rfl rfl hinterval hruns,
      fun hfills => Spdhg.lossHistory rfl rfl hshaped hfills hinterval hruns⟩

/-- Two runs on the real line with a record in each turn, of which the first has no iteration to make. -/
theorem runsEvery_squareOnTheLine : RunsEvery 1 (squareOnTheLineMethod 3) [([3], 0), ([3], 0), ([0], 1)]
    (squareOnTheLineMoved 3 [2 * 3] #[3 * 3, 3 * 3, 0]) := by
  have hlook : run (squareOnTheLineMethod 3) 0 1 Watcher.never () =
      .ok 0 ⟨squareOnTheLineWith 3 #[3 * 3], (), #[.objective, .watch [3] 0]⟩ := by
    rw [run_eq_turn rfl]
    exact congrArg (Outcome.bind · _) (turn_squareOnTheLineWith 3 #[] () #[])
  have hmove : run (squareOnTheLineWith 3 #[3 * 3]) 1 1 Watcher.never () =
      .ok 1 ⟨squareOnTheLineMoved 3 [2 * 3] #[3 * 3, 3 * 3, 0], (),
        #[.objective, .watch [3] 0, .update, .exchange, .objective, .watch [0] 1]⟩ := by
    have hpasses : ∀ r : Run (Fista ℝ (ConstantStep ℝ) (Sensitivity ℝ)) Unit ℝ, (r.watch Watcher.never 0).1 ≠ true :=
      fun _ => Bool.false_ne_true
    rw [run_eq_turn rfl, turn_squareOnTheLineWith, Outcome.bind_ok, Run.goOn, if_neg (hpasses _)]
    refine (Run.iterate_eq_turn (k := 0) Fista.countsIterations rfl).trans ?_
    exact congrArg (Outcome.bind · _) (turn_squareOnTheLineMoved 3 #[3 * 3, 3 * 3] () #[.objective, .watch [3] 0])
  exact .run (.run .none hlook) hmove

/-- A look at the starting point of two blocks on the real line. -/
theorem runsEvery_oneDimensional :
    ∃ m, RunsEvery 1 (oneDimensionalMethod 3 2 3) [([3], 0)] m ∧ m.iteration = 0 := by
  obtain ⟨m, hm⟩ := record_oneDimensional 3 2 3
  have hstart : m.x = [3] ∧ m.iteration = 0 := by
    obtain ⟨scratch, blocks, losses, rfl, -, -⟩ := Spdhg.frame_of_recordObjective (congrArg Outcome.state? hm)
    exact ⟨rfl, rfl⟩
  have hfirst : Run.turn 1 0 ⟨oneDimensionalMethod 3 2 3, (), #[]⟩ = .ok () ⟨m, (), #[.objective]⟩ :=
    congrArg (Outcome.mapState fun m => (⟨m, (), #[.objective]⟩ : Run _ Unit ℝ)) hm
  have hlook : run (oneDimensionalMethod 3 2 3) 0 1 Watcher.never () =
      .ok m.iteration ⟨m, (), #[.objective, .watch m.x 0]⟩ := by
    rw [run_eq_turn rfl, hfirst]
    rfl
  have hruns : RunsEvery 1 (oneDimensionalMethod 3 2 3) [(m.x, 0)] m := .run .none hlook
  rw [hstart.1] at hruns
  exact ⟨m, hruns, hstart.2⟩

/-- On the line: a run of the plain method, two runs of the accelerated method of which the first makes no iteration,
    and a look at the starting point of the primal-dual method. -/
theorem losses_of_runs_on_the_line :
    RunsEvery 1 (searchOnTheLineAt 3 3 3 [] #[] 0) [([3], 0), ([0], 1)]
      (searchOnTheLineAt 0 0 (2 * 3) [0] #[3 * 3, 0 * 0] 1) ∧
    (searchOnTheLineAt 0 0 (2 * 3) [0] #[3 * 3, 0 * 0] 1).state.losses.toList.length = 1 + 1 / 1 ∧
    RunsEvery 1 (squareOnTheLineMethod 3) [([3], 0), ([3], 0), ([0], 1)]
      (squareOnTheLineMoved 3 [2 * 3] #[3 * 3, 3 * 3, 0]) ∧
    (squareOnTheLineMoved 3 [2 * 3] #[3 * 3, 3 * 3, 0]).state.losses.toList.length = 2 + 1 / 1 ∧
    (oneDimensionalMethod 3 2 3).FillsImages ∧
    ∃ m, RunsEvery 1 (oneDimensionalMethod 3 2 3) [([3], 0)] m ∧
      m.losses.toList.map some = [(oneDimensionalMethod 3 2 3).objectives?] := by
  have hsearch : RunsEvery 1 (searchOnTheLineAt 3 3 3 [] #[] 0) [([3], 0), ([0], 1)]
    (searchOnTheLineAt 0 0 (2 * 3) [0] #[3 * 3, 0 * 0] 1) := .run .none run_searchOnTheLine
  have hfills := fillsImages_oneDimensional 3 2 3
  obtain ⟨m, hlook, hcount⟩ := runsEvery_oneDimensional
  obtain ⟨hplain, -, -⟩ := losses_of_runs (S := ℝ) (W := ℝ) (ρ := Armijo ℝ) (π := Sensitivity ℝ) (σ := Sampler ℝ)
  obtain ⟨-, haccelerated, hsplit⟩ :=
    losses_of_runs (S := ℝ) (W := ℝ) (ρ := ConstantStep ℝ) (π := Sensitivity ℝ) (σ := Sampler ℝ)
  obtain ⟨hone, -⟩ := hplain (build_searchOnTheLine 3) Nat.one_pos hsearch
  obtain ⟨htwo, -⟩ := haccelerated (build_squareOnTheLine 3) Nat.one_pos runsEvery_squareOnTheLine
  obtain ⟨-, hhistory⟩ := hsplit (build_oneDimensional 3 2 3) Nat.one_pos hlook
  have hrecorded := (hhistory hfills).recorded
  have hiteration : Iterative.iteration m / 1 = 0 := (Nat.div_one _).trans hcount
  rw [hiteration] at hrecorded
  exact ⟨hsearch, hone, runsEvery_squareOnTheLine, htwo, hfills, m, hlook, hrecorded⟩

/-- **The starting point may be recorded twice.** After a run without an iteration and a run with one there are three
    losses, and loss 1 is not the objective at iterate 1. -/
theorem losses_repeat_start : ∃ (shown : List (Vec ℝ × Nat)) (m : Fista ℝ (ConstantStep ℝ) (Sensitivity ℝ)),
    Fista.build (squareOnTheLine 3) = .ok (squareOnTheLineMethod 3) ∧
    RunsEvery 1 (squareOnTheLineMethod 3) shown m ∧ m.state.losses = #[3 * 3, 3 * 3, 0] ∧
    m.state.solution = [0] ∧ m.state.losses.size ≠ 1 + m.state.iteration / 1 := by
  exact ⟨_, _, build_squareOnTheLine 3, runsEvery_squareOnTheLine, rfl, rfl, by decide⟩

end Splitting
