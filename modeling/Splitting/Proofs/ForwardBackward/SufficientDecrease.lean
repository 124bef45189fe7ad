import Splitting.Proofs.ForwardBackward.Descent
import Splitting.Proofs.ForwardBackward.Recursion
import Splitting.Proofs.Observation
import Splitting.Proofs.StepSize.Backtracking

/-!
# `Splitting.Proofs.ForwardBackward.SufficientDecrease` — searching for a step

The backtracking rule tests trial points in a buffer of its own. The step that it accepts is then taken elsewhere, by
another expression on another buffer. In exact arithmetic both arrive at the same point, so that without a proximable
term every iteration decreases the smooth term as much as the test has asked for, whatever the function and its
gradient are, and whatever the preconditioner has made of the gradient.

* `Armijo.query_eq_ok` — what a search promises that succeeds;
* `Ista.Searching`, `Ista.Searches`, `Ista.Searching.next` — a method with a search, and an iteration of it;
* `Ista.sum_le_of_decrease` — the decreases add up;
* `Ista.Descends`, `Ista.searchInvariant` — along a run;
* `armijo_run_descends` — the main statement.
-/

namespace Splitting

variable {π : Type}

/-! ## What a search promises -/

namespace Armijo

/-- **A search that succeeds** answers a positive step. Along the opposite of the gradient, it decreases the term by
    at least half of the step times the squared norm of the gradient. -/
theorem query_eq_ok {ctx : StepContext ℝ} {b : ℝ} {rule rule' : Armijo ℝ} (hmade : rule.Made)
    (h : rule.query ctx = .ok b rule') :
    0 < b ∧ ∃ fx point fTrial, valueOrZero ctx.smooth ctx.point = some fx ∧
      Vec.zip? (fun x g => x + -b * g) ctx.point ctx.gradient = some point ∧
      valueOrZero ctx.smooth point = some fTrial ∧ fTrial ≤ fx - b / 2 * ctx.gradient.normSq := by
  obtain ⟨k, -, rfl, fx, fTrial, htrial, hle⟩ := exists_of_query h
  -- the trial point subtracts where the step adds the opposite
  have hsame : (fun x g : ℝ => x - rule.trialStep k * g) = fun x g => x + -rule.trialStep k * g := by
    funext x g
    ring
  have hpoint := htrial.point
  rw [hsame] at hpoint
  have hhalf : -(0.5 * rule.trialStep k) * ctx.gradient.normSq = -(rule.trialStep k / 2 * ctx.gradient.normSq) := by
    ring
  exact ⟨hmade.trialStep_pos k, fx, _, fTrial, htrial.value, hpoint, htrial.value_trial, by linarith⟩

end Armijo

/-! ## An iteration -/

namespace Ista

variable [Preconditioner π ℝ] {f : Functional ℝ} {k : ℕ} {m m' m₀ : Ista ℝ (Armijo ℝ) π}

omit [Preconditioner π ℝ] in
/-- The method searches for its steps, and has no term but `f`. -/
structure Searching (f : Functional ℝ) (k : ℕ) (m : Ista ℝ (Armijo ℝ) π) : Prop where
  iteration : m.state.iteration = k
  smooth : m.state.terms.smooth = some f
  proximable : m.state.terms.proximable = none
  rule : ∃ rule, m.state.terms.rule = .adaptive rule ∧ rule.Made
  length_next : m.state.next.length = m.state.solution.length

/-- Iteration `k` leads from `n` to `n'`, with the preconditioned gradient `g` and the step `a` that the search has
    accepted for it. The step is positive, and decreases the value enough. -/
structure Searches (f : Functional ℝ) (k : ℕ) (n n' : Ista ℝ (Armijo ℝ) π) (g : Vec ℝ) (a : ℝ) : Prop where
  gradient : ∃ raw p, f.gradientInto n.state.solution n.state.gradient = .ok () raw ∧
    preconditioned? k n.state.solution raw n.state.terms.preconditioner = some (p, g)
  accepted : ∃ rule rule', n.state.terms.rule = .adaptive rule ∧
    rule.query ⟨k, some f, n.state.solution, g⟩ = .ok a rule'
  positive : 0 < a
  moves : Vec.zip? (fun x g => x + -a * g) n.state.solution g = some n'.state.solution
  decrease : ∃ v w, f.value n.state.solution = some v ∧ f.value n'.state.solution = some w ∧
    w ≤ v - a / 2 * g.normSq

/-- **An iteration takes the step that the search has accepted,** and arrives at the point that it was accepted
    for. -/
theorem Searching.next (h : Searching f k m) (hu : m.update = .ok () m') :
    Searching f (k + 1) ⟨m'.state.exchange⟩ ∧ ∃ a, Searches f k m ⟨m'.state.exchange⟩ m'.state.gradient a := by
  obtain ⟨a, s, hs, rfl⟩ := update_eq_ok_iff.mp hu
  obtain ⟨raw, p, g, choice, forward, x, hraw, hp, -, hquery, hforward, hx, rfl⟩ := Stepping.step_eq_ok_iff.mp hs
  obtain ⟨rule, hrule, hmade⟩ := h.rule
  dsimp only at hraw hp hquery hforward hx
  rw [h.smooth] at hraw hquery
  rw [h.iteration] at hp hquery
  rw [hrule] at hquery
  obtain ⟨rule', hrule', rfl⟩ := Outcome.mapState_eq_ok_iff.mp hquery
  obtain ⟨hpos, fx, point, fTrial, hfx, hpoint, hvalue, hle⟩ := Armijo.query_eq_ok hmade hrule'
  -- without a proximable term the new iterate is the forward point, which the trial point was
  obtain rfl : forward = point := Option.some.inj (hforward.symm.trans hpoint)
  have hlength : forward.length = m.state.solution.length := Vec.length_of_zip? hforward
  rw [h.proximable] at hx
  obtain ⟨hspread, hxLength⟩ := Functional.overwrite_eq_ok_iff.mp hx
  rw [Vec.spread?_eq_self (hlength.trans h.length_next.symm)] at hspread
  obtain rfl : forward = x := Option.some.inj hspread
  refine ⟨⟨congrArg (· + 1) h.iteration, h.smooth, h.proximable, ⟨rule', rfl, ?_⟩, rfl⟩, a, ?_⟩
  · exact hmade.searched (congrArg Outcome.state? hrule')
  · exact ⟨⟨raw, p, hraw, hp⟩, ⟨rule, rule', hrule, hrule'⟩, hpos, hforward, fx, fTrial, hfx, hvalue, hle⟩

/-! ## The method without its records -/

/-- An update without records is the update, without records. -/
theorem update_forget (hu : m.update = .ok () m') : m.withoutRecords.update = .ok () m'.withoutRecords := by
  rw [← update_withoutRecords, hu, Outcome.mapState_ok]

/-- The method on its orbit searches for its steps, -/
theorem Searching.of_orbit? (h : Searching f 0 m₀) (hm : orbit? m₀ k = some m) : Searching f k m := by
  induction k generalizing m with
  | zero =>
    cases hm
    exact h
  | succ k ih =>
    obtain ⟨n, n', hn, hu, rfl⟩ := orbit?_succ_eq_some_iff.mp hm
    exact ((ih hn).next hu).1

/-- and each iteration on it takes a step that was accepted. -/
theorem Searching.exists_searches (h : Searching f 0 m₀) (hm : orbit? m₀ (k + 1) = some m) :
    ∃ n, orbit? m₀ k = some n ∧ ∃ a, Searches f k n m m.state.gradient a := by
  obtain ⟨n, n', hn, hu, rfl⟩ := orbit?_succ_eq_some_iff.mp hm
  exact ⟨n, hn, ((h.of_orbit? hn).next hu).2⟩

omit [Preconditioner π ℝ] in
/-- **The decreases add up.** -/
theorem sum_le_of_decrease {x : ℕ → Vec ℝ} {d : ℕ → ℝ} {K : ℕ}
    (h : ∀ k < K, ∃ v w, f.value (x k) = some v ∧ f.value (x (k + 1)) = some w ∧ w ≤ v - d k) {v w : ℝ}
    (hv : f.value (x 0) = some v) (hw : f.value (x K) = some w) : ∑ k ∈ Finset.range K, d k ≤ v - w := by
  induction K generalizing w with
  | zero =>
    obtain rfl : v = w := Option.some.inj (hv.symm.trans hw)
    simp
  | succ K ih =>
    obtain ⟨u, w', hu, hw', hle⟩ := h K (Nat.lt_succ_self K)
    obtain rfl : w' = w := Option.some.inj (hw'.symm.trans hw)
    have hsum := ih (fun k hk => h k (Nat.lt_succ_of_lt hk)) hu
    rw [Finset.sum_range_succ]
    linarith

/-! ## Along a run -/

/-- The method is on its orbit, and its losses never increased. -/
structure Descends (f : Functional ℝ) (m₀ : Ista ℝ (Armijo ℝ) π) (k : ℕ) (m : Ista ℝ (Armijo ℝ) π) : Prop where
  searching : Searching f k m
  orbit : orbit? m₀ k = some m.withoutRecords
  pairwise : m.state.losses.toList.Pairwise fun earlier later => later ≤ earlier
  above : ∀ v, f.value m.state.solution = some v → Descending v m.state.losses

/-- What is left of it when an iteration fails. -/
structure Descended (m₀ : Ista ℝ (Armijo ℝ) π) (k : ℕ) (m : Ista ℝ (Armijo ℝ) π) : Prop where
  iteration : m.state.iteration = k
  orbit : (orbit? m₀ k).isSome
  pairwise : m.state.losses.toList.Pairwise fun earlier later => later ≤ earlier

theorem Descends.next (h : Descends f m₀ k m) (hu : m.update = .ok () m') :
    Descends f m₀ (k + 1) ⟨m'.state.exchange⟩ := by
  obtain ⟨hsearching, a, hsearches⟩ := h.searching.next hu
  obtain ⟨v, w, hv, hw, hle⟩ := hsearches.decrease
  have hlosses : m'.state.losses = m.state.losses := losses_of_update (congrArg Outcome.state? hu)
  have hdescending : Descending w m'.state.losses := by
    have hnonneg : 0 ≤ a / 2 * m'.state.gradient.normSq :=
      mul_nonneg (half_pos hsearches.positive).le (Vec.normSq_nonneg _)
    rw [hlosses]
    exact (h.above v hv).mono (hle.trans (sub_le_self v hnonneg))
  refine ⟨hsearching, ?_, hdescending.pairwise, ?_⟩
  · exact orbit?_succ_eq_some_iff.mpr ⟨_, _, h.orbit, update_forget hu, rfl⟩
  · intro w' hw'
    obtain rfl : w = w' := Option.some.inj (hw.symm.trans hw')
    exact hdescending

theorem Descends.record (h : Descends f m₀ k m) (ho : Iterative.recordObjective m = .ok () m') :
    Descends f m₀ k m' := by
  obtain ⟨v, hv, rfl⟩ := record_eq_ok ho
  -- without a proximable term the objective is the value of the smooth one
  have hvalue : f.value m.state.solution = some v := by
    obtain ⟨u, z, hu, hz, rfl⟩ := Terms.objective_eq_some_iff.mp hv
    rw [h.searching.smooth] at hu
    rw [h.searching.proximable] at hz
    cases hz
    exact hu.trans (congrArg some (add_zero u).symm)
  have hpush := (h.above v hvalue).push
  refine ⟨⟨h.searching.iteration, h.searching.smooth, h.searching.proximable, h.searching.rule,
    h.searching.length_next⟩, h.orbit, hpush.pairwise, ?_⟩
  intro w hw
  obtain rfl : v = w := Option.some.inj (hvalue.symm.trans hw)
  exact hpush

/-- **Along a run the losses never increase.** -/
theorem searchInvariant : RunInvariant (Descends f m₀) (Descended m₀) where
  iteration := fun h => h.searching.iteration
  completed := fun h hu => h.next hu
  failed := by
    intro k m m' e h hu
    have hlosses : m'.state.losses = m.state.losses := losses_of_update (congrArg Outcome.state? hu)
    exact ⟨(Ista.countsIterations.failed hu).trans h.searching.iteration, Option.isSome_of_eq_some h.orbit,
      hlosses ▸ h.pairwise⟩
  recorded := fun h ho => h.record ho
  records := fun _ => record_ne_error

/-- A method that was built with such a rule, for a smooth term alone. -/
theorem descends_of_build {setup : Setup ℝ (Armijo ℝ) π} {rule : Armijo ℝ} (hbuild : Ista.build setup = .ok m₀)
    (hsmooth : setup.smooth = some f) (hproximable : setup.proximable = none) (hrule : setup.rule = some rule)
    (hmade : rule.Made) : Descends f m₀ 0 m₀ := by
  obtain ⟨c, hc, rfl⟩ := Except.map_eq_ok_iff.mp hbuild
  obtain ⟨choice, hchoice, rfl⟩ := Setup.terms_of_build hc
  obtain rfl : .adaptive rule = choice := by
    unfold Setup.choice at hchoice
    rw [hrule] at hchoice
    cases hstep : setup.stepSize with
    | none =>
      rw [hstep] at hchoice
      exact Except.ok.inj hchoice
    | some a =>
      rw [hstep] at hchoice
      cases hchoice
  exact ⟨⟨rfl, hsmooth, hproximable, ⟨rule, rfl, hmade⟩, rfl⟩, rfl, List.Pairwise.nil,
    fun v _ => ⟨List.Pairwise.nil, nofun⟩⟩

end Ista

/-- **A search for the step makes the method descend,** in exact arithmetic. Let there be no proximable term, and
    let the rule be any that can be made, whether or not it has searched before. The smooth term may have any value and
    any gradient, and may fail; the preconditioner, too, may do anything to the gradient.

    The method then goes through `n 0`, `n 1`, …, of which a run shows the solutions and ends with one. Every
    iteration `k` that a run completes, now or before, takes a positive step `a k` that the search has accepted for
    the preconditioned gradient `g k`, with

      `f (x (k+1)) ≤ f (x k) - (a k / 2) ‖g k‖²`.

    So the losses never increase, over all runs and with any intervals; and for as many iterations as were completed
    the sum of the decreases is at most `f (x 0) - f (x K)`. -/
theorem armijo_run_descends [Preconditioner π ℝ] {setup : Setup ℝ (Armijo ℝ) π} {m₀ : Ista ℝ (Armijo ℝ) π}
    {f : Functional ℝ} {rule : Armijo ℝ} (hbuild : Ista.build setup = .ok m₀) (hsmooth : setup.smooth = some f)
    (hproximable : setup.proximable = none) (hrule : setup.rule = some rule) (hmade : rule.Made) :
    ∃ (n : ℕ → Ista ℝ (Armijo ℝ) π) (g : ℕ → Vec ℝ) (a : ℕ → ℝ), n 0 = m₀ ∧
      ∀ {m : Ista ℝ (Armijo ℝ) π}, Resumed m₀ m → ∀ {κ : Type} {budget interval : ℕ} {watcher : Watcher κ ℝ}
        {memory : κ} {r : Run (Ista ℝ (Armijo ℝ) π) κ ℝ}, (run m budget interval watcher memory).state? = some r →
        (∀ q ∈ r.shown, q.1 = Iterative.solution (n q.2)) ∧
        (∀ e, run m budget interval watcher memory = .ok e r →
          e = Iterative.iteration r.method ∧ Iterative.solution r.method = Iterative.solution (n e)) ∧
        (∀ k < Iterative.iteration r.method, Ista.Searches f k (n k) (n (k + 1)) (g k) (a k)) ∧
        (r.method.state.losses.toList.Pairwise fun earlier later => later ≤ earlier) ∧
        ∀ K ≤ Iterative.iteration r.method, ∀ v w, f.value (Iterative.solution (n 0)) = some v →
          f.value (Iterative.solution (n K)) = some w →
          ∑ k ∈ Finset.range K, a k / 2 * (g k).normSq ≤ v - w := by
  have hstart := Ista.descends_of_build hbuild hsmooth hproximable hrule hmade
  have hinv : RunInvariant (Ista.Descends f m₀) (Ista.Descended m₀) := Ista.searchInvariant
  let n : ℕ → Ista ℝ (Armijo ℝ) π := fun k => (orbit? m₀ k).getD m₀
  have hn : ∀ {k m}, orbit? m₀ k = some m → n k = m := fun h => by
    simp only [n, h, Option.getD_some]
  -- the steps of the orbit, as far as it goes
  have hsteps : ∀ k, ∃ a, (orbit? m₀ (k + 1)).isSome →
      Ista.Searches f k (n k) (n (k + 1)) (n (k + 1)).state.gradient a := by
    intro k
    cases hnext : orbit? m₀ (k + 1) with
    | none => exact ⟨0, nofun⟩
    | some m' =>
      obtain ⟨m, hm, a, hsearches⟩ := hstart.searching.exists_searches hnext
      rw [hn hm, hn hnext]
      exact ⟨a, fun _ => hsearches⟩
  choose a ha using hsteps
  refine ⟨n, fun k => (n (k + 1)).state.gradient, a, hn rfl, ?_⟩
  intro m hm κ budget interval watcher memory r hr
  obtain ⟨k, hk⟩ := hm.holds hinv hstart
  obtain ⟨j, -, hiterates, hends⟩ := hinv.run hk hr
  -- whether the run ends or breaks off, the orbit goes as far as the iterations that were completed
  have hdescended : Ista.Descended m₀ (k + j) r.method := by
    rcases hends with ⟨-, h⟩ | ⟨-, h⟩
    · exact ⟨h.searching.iteration, Option.isSome_of_eq_some h.orbit, h.pairwise⟩
    · exact h
  have hcount : Iterative.iteration r.method = k + j := hdescended.iteration
  have hsearches : ∀ i < k + j, Ista.Searches f i (n i) (n (i + 1)) (n (i + 1)).state.gradient (a i) := fun i hi =>
    ha i (isSome_orbit?_of_le hi hdescended.orbit)
  rw [hcount]
  refine ⟨?_, ?_, hsearches, hdescended.pairwise, ?_⟩
  · intro q hq
    obtain ⟨m', hm', hshown⟩ := hiterates q hq
    rw [hshown, hn hm'.orbit]
    rfl
  · intro e he
    rcases hends with ⟨hok, h⟩ | ⟨⟨e', herror⟩, -⟩
    · obtain rfl : k + j = e := (Outcome.ok.inj (hok.symm.trans he)).1
      refine ⟨rfl, ?_⟩
      rw [hn h.orbit]
      rfl
    · rw [herror] at he
      cases he
  · intro K hK v w hv hw
    exact Ista.sum_le_of_decrease (x := fun i => Iterative.solution (n i))
      (fun i hi => (hsearches i (Nat.lt_of_lt_of_le hi hK)).decrease) hv hw

/-- An iteration for the square on the real line, of which the first trial step goes to the minimum. -/
theorem armijo_run_descends_on_the_line : ∃ (r : Run (Ista ℝ (Armijo ℝ) (Sensitivity ℝ)) Unit ℝ),
    Ista.build (searchOnTheLine 3) = .ok (searchOnTheLineAt 3 3 3 [] #[] 0) ∧
    (searchOnTheLine 3).smooth = some SquaredDistance.unit.functional ∧ (searchOnTheLine 3).proximable = none ∧
    (searchOnTheLine 3).rule = some (oneTrial []) ∧ (oneTrial []).Made ∧
    Resumed (searchOnTheLineAt 3 3 3 [] #[] 0) (searchOnTheLineAt 3 3 3 [] #[] 0) ∧
    run (searchOnTheLineAt 3 3 3 [] #[] 0) 1 1 Watcher.never () = .ok 1 r ∧
    (∃ n n' g a, Ista.Searches (π := Sensitivity ℝ) SquaredDistance.unit.functional 0 n n' g a ∧
      Iterative.solution n = [3] ∧ Iterative.solution n' = [0]) ∧
    [(3 * 3 : ℝ), 0 * 0].Pairwise fun earlier later => later ≤ earlier := by
  have hmade : (oneTrial []).Made := by
    have hof : Armijo.of (0.5 : ℝ) 0.5 = .ok ⟨0.5, 0.5, Armijo.budget (0.5 : ℝ) 0.5, []⟩ := by
      rw [Armijo.of, if_neg (by norm_num), if_neg (by norm_num)]
    exact Armijo.Made.withMaxTrials 1 (Armijo.Made.of hof)
  have hbuild := build_searchOnTheLine 3
  have hrun := run_searchOnTheLine
  obtain ⟨n, g, a, -, hruns⟩ := armijo_run_descends hbuild rfl rfl rfl hmade
  obtain ⟨hshown, -, hsearches, hlosses, -⟩ := hruns .start (congrArg Outcome.state? hrun)
  have hfirst : Iterative.solution (n 0) = [3] := (hshown ([3], 0) (.head _)).symm
  have hsecond : Iterative.solution (n 1) = [0] := (hshown ([0], 1) (.tail _ (.head _))).symm
  exact ⟨_, hbuild, rfl, rfl, rfl, hmade, .start, hrun,
    ⟨n 0, n 1, g 0, a 0, hsearches 0 Nat.one_pos, hfirst, hsecond⟩, hlosses⟩

end Splitting
