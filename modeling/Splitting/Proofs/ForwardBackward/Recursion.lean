import Splitting.ForwardBackward.Ista
import Splitting.Proofs.ForwardBackward.Step
import Splitting.Proofs.Iteration.Losses
import Splitting.Proofs.Iteration.Turns
import Splitting.StepSize.Armijo

/-!
# `Splitting.Proofs.ForwardBackward.Recursion` — a run computes the proximal gradient recursion

An update of the plain method overwrites the current solution with the forward point, and puts the new iterate into
the buffer that the exchange brings forward. The forward point is then what the next update finds in that buffer.
Along every run, and in any arithmetic, the current solution is all the same that of the documented recursion, and so
are the rule and the preconditioner with what they remember; each loss is the objective at its iterate.

* `Setup.objective`, `Terms.Of` — the objective of a setup, and what steps and records leave of its terms;
* `Ista.Point`, `Ista.Point.next?`, `Ista.recursion?` — the documented recursion, without buffers;
* `Ista.At`, `Ista.At.next` — a method between two iterations is at the recursion's point, and a round moves it on;
* `Ista.keepsLosses`, `Ista.runInvariant`, `Ista.logs` — what a run keeps and records;
* `ista_run_computes_recursion` — the main statement.
-/

namespace Splitting

variable {S κ ρ π : Type} [Scalar S]

/-- `f x + g x`. -/
def Setup.objective (setup : Setup S ρ π) (x : Vec S) : Option S := do
  let f ← valueOrZero setup.smooth x
  let g ← valueOrZero setup.proximable x
  return f + g

/-- The two terms are those of the setup, whatever the rule and the preconditioner have come to. -/
structure Terms.Of (t : Terms S ρ π) (setup : Setup S ρ π) : Prop where
  smooth : t.smooth = setup.smooth
  proximable : t.proximable = setup.proximable

section

variable {setup : Setup S ρ π} {t : Terms S ρ π} {c c' : Composite S ρ π}

theorem Terms.Of.objective (h : t.Of setup) : t.objective = setup.objective := by
  funext x
  rw [Terms.objective, h.smooth, h.proximable, Setup.objective]

theorem Terms.Of.step [StepRule ρ S] [Preconditioner π S] {s s' : Stepping S ρ π} {k : Nat} {a : S}
    (h : s.terms.Of setup) (hs : s.step k = .ok a s') : s'.terms.Of setup := by
  obtain ⟨hsmooth, hproximable⟩ := Stepping.smooth_of_step hs
  exact ⟨hsmooth.trans h.smooth, hproximable.trans h.proximable⟩

/-- A record that succeeds adds the objective at the current solution. -/
theorem Composite.recordObjective_eq_ok_iff : c.recordObjective = .ok () c' ↔
    ∃ v, c.terms.objective c.solution = some v ∧ { c with losses := c.losses.push v } = c' := by
  rw [recordObjective, Outcome.put_eq_ok_iff, Option.map_eq_some_iff]

theorem Terms.Of.record (h : c.terms.Of setup) (ho : c.recordObjective = .ok () c') :
    c'.terms.Of setup ∧ ∃ v, setup.objective c.solution = some v ∧ c'.losses.toList = c.losses.toList ++ [v] := by
  obtain ⟨v, hv, rfl⟩ := Composite.recordObjective_eq_ok_iff.mp ho
  rw [h.objective] at hv
  exact ⟨h, v, hv, Array.toList_push⟩

end

namespace Ista

/-! ## The recursion -/

/-- What the recursion carries from one iteration to the next: the iterate, and the terms with the state of the rule
    and of the preconditioner. -/
structure Point (S ρ π : Type) where
  x : Vec S
  terms : Terms S ρ π

variable [StepRule ρ S] [Preconditioner π S]

/-- **Iteration `k` as it is documented:**

      `x' = prox (a g) (x + (-a) · gradient)`,

    with the gradient of `f` at `x` that the preconditioner returns in iteration `k`, and the step `a` that the rule
    answers to it. Each of the two is asked once, in this order, and is then as that has left it. -/
def Point.next? (k : Nat) (p : Point S ρ π) : Option (Point S ρ π) :=
  (p.terms.advance? k p.x).map fun (terms, x) => ⟨x, terms⟩

/-- The recursion's point after `k` iterations. -/
def recursion? (setup : Setup S ρ π) : Nat → Option (Point S ρ π)
  | 0 =>
    match setup.choice stepFactor with
    | .ok rule => some ⟨setup.initial, ⟨setup.smooth, setup.proximable, rule, setup.preconditioner⟩⟩
    | .error _ => none
  | k + 1 => (recursion? setup k).bind (Point.next? k)

/-- The objective at the iterate `k`. -/
def loss? (setup : Setup S ρ π) (k : Nat) : Option S :=
  (recursion? setup k).bind fun p => setup.objective p.x

/-! ## The method at the recursion's point -/

omit [Scalar S] [StepRule ρ S] [Preconditioner π S] in
/-- The method is at the point of the recursion after `k` iterations. Of the buffers only the lengths are known. -/
structure At (setup : Setup S ρ π) (p : Point S ρ π) (k : Nat) (m : Ista S ρ π) : Prop where
  iteration : m.state.iteration = k
  solution : m.state.solution = p.x
  terms : m.state.terms = p.terms
  smooth : p.terms.smooth = setup.smooth
  proximable : p.terms.proximable = setup.proximable
  length_solution : p.x.length = setup.initial.length
  length_next : m.state.next.length = setup.initial.length
  length_gradient : m.state.gradient.length = setup.initial.length

/-- **An update** is a step from the current solution. -/
theorem update_eq_ok_iff {m m' : Ista S ρ π} : m.update = .ok () m' ↔ ∃ a s,
    Stepping.step m.state.iteration ⟨m.state.terms, m.state.solution, m.state.gradient, m.state.next⟩ = .ok a s ∧
      m' = ⟨{ m.state with
        terms := s.terms
        solution := s.point
        gradient := s.gradient
        next := s.out
        iteration := m.state.iteration + 1 }⟩ := by
  constructor
  · intro h
    obtain ⟨a, m₁, h₁, h⟩ := Outcome.bind_eq_ok_iff.mp h
    obtain ⟨s, hs, rfl⟩ := Outcome.mapState_eq_ok_iff.mp h₁
    cases h
    exact ⟨a, s, hs, rfl⟩
  · rintro ⟨a, s, hs, rfl⟩
    exact Outcome.bind_eq_ok_iff.mpr ⟨a, _, Outcome.mapState_eq_ok_iff.mpr ⟨s, hs, rfl⟩, rfl⟩

/-- What an update leaves, also if it fails. -/
theorem losses_of_update {m m' : Ista S ρ π} (h : m.update.state? = some m') :
    m'.state.losses = m.state.losses := by
  rcases Outcome.state?_eq_some_iff.mp h with ⟨⟨⟩, h⟩ | ⟨e, h⟩
  · obtain ⟨a, s, -, rfl⟩ := update_eq_ok_iff.mp h
    rfl
  · rcases Outcome.bind_eq_error_iff.mp h with h | ⟨a, m₁, -, h⟩
    · obtain ⟨s, -, rfl⟩ := Outcome.mapState_eq_error_iff.mp h
      rfl
    · cases h

/-- A record adds the objective, and cannot fail. -/
theorem record_eq_ok {m m' : Ista S ρ π} (h : Iterative.recordObjective m = .ok () m') :
    ∃ v, m.state.terms.objective m.state.solution = some v ∧
      m' = ⟨{ m.state with losses := m.state.losses.push v }⟩ := by
  obtain ⟨c, hc, rfl⟩ := Outcome.mapState_eq_ok_iff.mp h
  obtain ⟨v, hv, rfl⟩ := Composite.recordObjective_eq_ok_iff.mp hc
  exact ⟨v, hv, rfl⟩

theorem record_ne_error {m m' : Ista S ρ π} {e : Error} : Iterative.recordObjective m ≠ .error e m' := by
  intro h
  obtain ⟨c, hc, -⟩ := Outcome.mapState_eq_error_iff.mp h
  exact Outcome.put_ne_error hc

theorem keepsLosses : KeepsLosses fun m : Ista S ρ π => m.state.losses.toList where
  update h := congrArg Array.toList (losses_of_update h)
  exchange _ := rfl
  recorded h := by
    obtain ⟨v, -, rfl⟩ := record_eq_ok h
    exact ⟨v, Array.toList_push⟩
  failed h := absurd h record_ne_error

/-- A method that was built is at the starting point. -/
theorem at_of_build {setup : Setup S ρ π} {m : Ista S ρ π} (h : Ista.build setup = .ok m) :
    ∃ p, recursion? setup 0 = some p ∧ At setup p 0 m ∧ m.state.losses = #[] := by
  obtain ⟨c, hc, rfl⟩ := Except.map_eq_ok_iff.mp h
  obtain ⟨rule, hrule, rfl⟩ := Setup.terms_of_build hc
  exact ⟨⟨setup.initial, ⟨setup.smooth, setup.proximable, rule, setup.preconditioner⟩⟩,
    by rw [recursion?, hrule], ⟨rfl, rfl, rfl, rfl, rfl, rfl, rfl, rfl⟩, rfl⟩

variable {setup : Setup S ρ π} {p : Point S ρ π} {k : Nat} {m m' : Ista S ρ π}

/-- **One round moves on to the next point.** The exchange makes the forward point the buffer of the next iterate,
    and what that buffer holds does not matter. -/
theorem At.next (h : At setup p k m) (hf : ∀ f ∈ setup.smooth, ∀ x, Fills (f.gradient x))
    (hg : ∀ g ∈ setup.proximable, ∀ x tau, Fills (g.proximal x tau)) (hu : m.update = .ok () m') :
    ∃ p', p.next? k = some p' ∧ At setup p' (k + 1) ⟨m'.state.exchange⟩ := by
  obtain ⟨a, s, hs, rfl⟩ := update_eq_ok_iff.mp hu
  have hsolution : m.state.solution.length = setup.initial.length := h.solution ▸ h.length_solution
  rw [← h.smooth, ← h.terms] at hf
  rw [← h.proximable, ← h.terms] at hg
  obtain ⟨hstep, hpoint, hgradient, hout⟩ := Stepping.advance?_of_step hs hf hg
    (h.length_gradient.trans hsolution.symm) (h.length_next.trans hsolution.symm)
  obtain ⟨hsmooth, hproximable⟩ := Terms.smooth_of_advance? hstep
  refine ⟨⟨s.out, s.terms⟩, ?_, congrArg (· + 1) h.iteration, rfl, rfl, ?_, ?_, hout.trans hsolution,
    hpoint.trans hsolution, hgradient.trans hsolution⟩
  · rw [h.terms, h.solution, h.iteration] at hstep
    rw [Point.next?, hstep]
    rfl
  · exact hsmooth.trans (h.terms ▸ h.smooth)
  · exact hproximable.trans (h.terms ▸ h.proximable)

/-- A record keeps the method where it is, and adds the objective there. -/
theorem At.record (h : At setup p k m) (ho : Iterative.recordObjective m = .ok () m') :
    At setup p k m' ∧ ∃ v, setup.objective p.x = some v ∧
      m'.state.losses.toList = m.state.losses.toList ++ [v] := by
  obtain ⟨v, hv, rfl⟩ := record_eq_ok ho
  have hterms : p.terms.Of setup := ⟨h.smooth, h.proximable⟩
  rw [h.terms, h.solution, hterms.objective] at hv
  exact ⟨⟨h.iteration, h.solution, h.terms, h.smooth, h.proximable, h.length_solution, h.length_next,
    h.length_gradient⟩, v, hv, Array.toList_push⟩

/-- **Along a run the method is at the recursion's points.** -/
theorem runInvariant (hf : ∀ f ∈ setup.smooth, ∀ x, Fills (f.gradient x))
    (hg : ∀ g ∈ setup.proximable, ∀ x tau, Fills (g.proximal x tau)) :
    RunInvariant (fun k (m : Ista S ρ π) => ∃ p, recursion? setup k = some p ∧ At setup p k m)
      (fun k m => m.state.iteration = k) where
  iteration := fun ⟨_, _, h⟩ => h.iteration
  completed := by
    rintro k m m' ⟨p, hp, h⟩ hu
    obtain ⟨p', hp', h'⟩ := h.next hf hg hu
    refine ⟨p', ?_, h'⟩
    rw [recursion?, hp, Option.bind_some, hp']
  failed := by
    rintro k m m' e ⟨p, -, h⟩ hu
    exact (Ista.countsIterations.failed hu).trans h.iteration
  recorded := by
    rintro k m m' ⟨p, hp, h⟩ ho
    exact ⟨p, hp, (h.record ho).1⟩
  records := fun _ => record_ne_error

/-- **Along a run the method records the objectives** at the recursion's iterates. -/
theorem logs (hf : ∀ f ∈ setup.smooth, ∀ x, Fills (f.gradient x))
    (hg : ∀ g ∈ setup.proximable, ∀ x tau, Fills (g.proximal x tau)) :
    Logs (fun m : Ista S ρ π => m.state.losses.toList)
      (fun k m => ∃ p, recursion? setup k = some p ∧ At setup p k m) (loss? setup) where
  keeps := keepsLosses
  moved := (runInvariant hf hg).completed
  recorded := by
    rintro k m m' ⟨p, hp, h⟩ ho
    obtain ⟨h', v, hv, hlosses⟩ := h.record ho
    refine ⟨⟨p, hp, h'⟩, v, ?_, hlosses⟩
    rw [loss?, hp, Option.bind_some, hv]

end Ista

variable [StepRule ρ S] [Preconditioner π S]

open Ista in
/-- **A run computes the proximal gradient recursion,** in any arithmetic, for every rule and preconditioner. Let a
    method be built, and perhaps be run before. A run that succeeds ends with the recursion's iterate after as many
    iterations as are completed, and with the rule and the preconditioner as the recursion has them then. A run that
    ends or breaks off has shown its watcher the recursion's iterates, each once and in order.

    A run with an interval of a method that was not run before leaves the objectives at the recursion's iterates whose
    numbers the interval divides, one after another, up to the last iteration that it has completed. -/
theorem ista_run_computes_recursion {setup : Setup S ρ π} {m₀ m : Ista S ρ π}
    (hbuild : Ista.build setup = .ok m₀) (hf : ∀ f ∈ setup.smooth, ∀ x, Fills (f.gradient x))
    (hg : ∀ g ∈ setup.proximable, ∀ x tau, Fills (g.proximal x tau)) (hm : Resumed m₀ m)
    {budget interval : Nat} {watcher : Watcher κ S} {memory : κ} {r : Run (Ista S ρ π) κ S}
    (hr : (run m budget interval watcher memory).state? = some r) :
    (∀ e, run m budget interval watcher memory = .ok e r → e = Iterative.iteration r.method ∧
        ∃ p, recursion? setup e = some p ∧ Iterative.solution r.method = p.x ∧ r.method.state.terms = p.terms) ∧
      r.shown.map Prod.snd = List.range' (RunInvariant.firstShown (Iterative.iteration m))
        (Iterative.iteration r.method + 1 - RunInvariant.firstShown (Iterative.iteration m)) ∧
      (∀ q ∈ r.shown, ∃ p, recursion? setup q.2 = some p ∧ q.1 = p.x) ∧
      (m = m₀ → 0 < interval → r.method.state.losses.toList.map some =
        (List.range (Iterative.iteration r.method / interval + 1)).map fun j => loss? setup (j * interval)) := by
  have hinv := runInvariant (S := S) (ρ := ρ) (π := π) hf hg
  obtain ⟨p₀, hp₀, hstart, hempty⟩ := at_of_build hbuild
  obtain ⟨k, hk⟩ := hm.holds hinv ⟨p₀, hp₀, hstart⟩
  obtain ⟨n, hnumbers, hiterates, hends⟩ := hinv.run hk hr
  -- whether the run ends or breaks off, `n` iterations were completed after the `k` before it
  have hcount : Iterative.iteration r.method = k + n := by
    rcases hends with ⟨-, p, -, h⟩ | ⟨-, h⟩
    · exact h.iteration
    · exact h
  rw [hcount, hinv.iteration hk]
  refine ⟨?_, hnumbers, ?_, ?_⟩
  · intro e he
    rcases hends with ⟨hok, p, hp, h⟩ | ⟨⟨e', herror⟩, -⟩
    · obtain rfl : k + n = e := (Outcome.ok.inj (hok.symm.trans he)).1
      exact ⟨rfl, p, hp, h.solution, h.terms⟩
    · rw [herror] at he
      cases he
  · intro q hq
    obtain ⟨m', ⟨p', hp', h'⟩, hq'⟩ := hiterates q hq
    exact ⟨p', hp', hq'.trans h'.solution⟩
  · rintro rfl hinterval
    obtain rfl : 0 = k := hstart.iteration.symm.trans (hinv.iteration hk)
    have hat : ∃ p, recursion? setup (Iterative.iteration m) = some p ∧ At setup p (Iterative.iteration m) m := by
      rw [hinv.iteration hk]
      exact hk
    obtain ⟨hlosses, -, -⟩ := (logs hf hg).run Ista.countsIterations hat hr
    -- the turns of the run are those from 0 to its last iteration
    have hshown : r.shown.map Prod.snd = List.range' 0 (n + 1) := hnumbers.trans (by rw [Nat.zero_add]; rfl)
    rw [hlosses, hempty, hshown, dueLosses_range' hinterval, Nat.zero_add]
    rfl

/-- A rule that looks at one step only, of a half. -/
noncomputable def oneTrial (trial : Vec ℝ) : Armijo ℝ := ⟨0.5, 0.5, 1, trial⟩

/-- The squared norm on the real line, with a search for the step. -/
noncomputable def searchOnTheLine (start : ℝ) : Setup ℝ (Armijo ℝ) (Sensitivity ℝ) where
  initial := [start]
  smooth := some SquaredDistance.unit.functional
  proximable := none
  stepSize := none
  rule := some (oneTrial [])
  preconditioner := none

/-- The method that belongs to it, with these vectors, losses and trial point, after `k` iterations. -/
noncomputable def searchOnTheLineAt (x next gradient : ℝ) (trial : Vec ℝ) (losses : Array ℝ) (k : ℕ) :
    Ista ℝ (Armijo ℝ) (Sensitivity ℝ) where
  state := ⟨⟨some SquaredDistance.unit.functional, none, .adaptive (oneTrial trial), none⟩,
    [x], [next], [gradient], losses, k⟩

theorem build_searchOnTheLine (start : ℝ) :
    Ista.build (searchOnTheLine start) = .ok (searchOnTheLineAt start start start [] #[] 0) := by
  simp [Ista.build, Setup.build, Setup.choice, searchOnTheLine, searchOnTheLineAt, Functor.map, Except.map, bind,
    Except.bind, pure, Except.pure]

/-- The squared norm of a vector with one entry. -/
theorem value_unit_one (x : ℝ) : SquaredDistance.unit.functional.value [x] = some (x * x) := by
  simp [SquaredDistance.functional, SquaredDistance.value?, SquaredDistance.distanceSq?, SquaredDistance.unit,
    Vec.normSq_eq_pairing, Vec.pairing]

/-- The first trial step goes to the minimum, and is accepted. -/
theorem query_searchOnTheLine (start : ℝ) :
    (oneTrial []).query ⟨0, some SquaredDistance.unit.functional, [start], [2 * start]⟩ =
      .ok 0.5 (oneTrial [0]) := by
  have htrial : Armijo.trialPoint? ⟨0, some SquaredDistance.unit.functional, [start], [2 * start]⟩ 0.5 =
      some [0] := by
    simp only [Armijo.trialPoint?, Vec.zip?, List.length_singleton, if_true, List.zipWith_cons_cons,
      List.zipWith_nil_left, Option.some.injEq, List.cons.injEq, and_true]
    ring
  have hnormSq : Vec.normSq [2 * start] = 2 * start * (2 * start) := by
    simp [Vec.normSq_eq_pairing, Vec.pairing]
  have haccepts : Armijo.accepts (start * start) (2 * start * (2 * start)) 0.5 (0 * 0) = true := by
    rw [Armijo.accepts, decide_eq_true_iff]
    norm_num
    linarith
  simp only [Armijo.query, Armijo.search, oneTrial, valueOrZero, value_unit_one, hnormSq, htrial, Option.bind_eq_bind,
    Option.bind_some, haccepts, if_true]

theorem update_searchOnTheLine (start : ℝ) (losses : Array ℝ) :
    (searchOnTheLineAt start start start [] losses 0).update =
      .ok () (searchOnTheLineAt 0 0 (2 * start) [0] losses 1) := by
  have hgradient : SquaredDistance.unit.functional.gradientInto [start] [start] =
      (.ok () [2 * start] : Outcome (Vec ℝ) Unit) := by
    simp only [Functional.gradientInto, Functional.sameLength_eq_ok_iff, SquaredDistance.functional,
      Functional.overwrite_eq_ok_iff, SquaredDistance.gradient?, SquaredDistance.entries, SquaredDistance.unit]
    norm_num
  have hforward : Vec.zip? (fun x g => x + -0.5 * g) [start] [2 * start] = some [0] := by
    simp only [Vec.zip?, List.length_singleton, if_true, List.zipWith_cons_cons, List.zipWith_nil_left,
      Option.some.injEq, List.cons.injEq, and_true]
    ring
  let moved : Stepping ℝ (Armijo ℝ) (Sensitivity ℝ) :=
    ⟨(searchOnTheLineAt 0 0 (2 * start) [0] losses 1).state.terms, [0], [2 * start], [0]⟩
  refine Ista.update_eq_ok_iff.mpr ⟨0.5, moved, Stepping.step_eq_ok_iff.mpr ?_, rfl⟩
  refine ⟨[2 * start], none, [2 * start], .adaptive (oneTrial [0]), [0], [0], hgradient, rfl, rfl, ?_,
    hforward, rfl, rfl⟩
  exact Outcome.mapState_eq_ok_iff.mpr ⟨_, query_searchOnTheLine start, rfl⟩

theorem record_searchOnTheLine (x next gradient : ℝ) (trial : Vec ℝ) (losses : Array ℝ) (k : ℕ) :
    Iterative.recordObjective (searchOnTheLineAt x next gradient trial losses k) =
      .ok () (searchOnTheLineAt x next gradient trial (losses.push (x * x)) k) := by
  simp [Iterative.recordObjective, Composite.recordObjective, Terms.objective, valueOrZero, searchOnTheLineAt,
    value_unit_one, Outcome.put]

/-- An iteration of the method, with a record before and after it. -/
theorem run_searchOnTheLine : run (searchOnTheLineAt 3 3 3 [] #[] 0) 1 1 Watcher.never () =
    .ok 1 ⟨searchOnTheLineAt 0 0 (2 * 3) [0] #[3 * 3, 0 * 0] 1, (),
      #[.objective, .watch [3] 0, .update, .exchange, .objective, .watch [0] 1]⟩ := by
  have hupdate : Iterative.update (searchOnTheLineAt 3 3 3 [] #[3 * 3] 0) = _ := update_searchOnTheLine 3 #[3 * 3]
  have hexchange : Iterative.exchange (searchOnTheLineAt 0 0 (2 * 3) [0] #[3 * 3] 1) =
      searchOnTheLineAt 0 0 (2 * 3) [0] #[3 * 3] 1 := rfl
  have hsolution : ∀ x next gradient trial losses k,
      Iterative.solution (searchOnTheLineAt x next gradient trial losses k) = [x] := fun _ _ _ _ _ _ => rfl
  have hiteration : ∀ x next gradient trial losses k,
      Iterative.iteration (searchOnTheLineAt x next gradient trial losses k) = k := fun _ _ _ _ _ _ => rfl
  simp [run, Run.recordObjective, record_searchOnTheLine, Run.watch, Watcher.never, Run.iterate, Run.update, hupdate,
    Run.exchange, hexchange, Run.recordIfDue, hsolution, hiteration]

theorem ista_run_computes_recursion_on_the_line :
    ∃ r : Run (Ista ℝ (Armijo ℝ) (Sensitivity ℝ)) Unit ℝ,
    Ista.build (searchOnTheLine 3) = .ok (searchOnTheLineAt 3 3 3 [] #[] 0) ∧
    (∀ f ∈ (searchOnTheLine 3).smooth, ∀ x, Fills (f.gradient x)) ∧
    (∀ g ∈ (searchOnTheLine 3).proximable, ∀ x tau, Fills (g.proximal x tau)) ∧
    Resumed (searchOnTheLineAt 3 3 3 [] #[] 0) (searchOnTheLineAt 3 3 3 [] #[] 0) ∧
    run (searchOnTheLineAt 3 3 3 [] #[] 0) 1 1 Watcher.never () = .ok 1 r ∧
    (∃ p, Ista.recursion? (searchOnTheLine 3) 1 = some p ∧ [0] = p.x ∧
      p.terms.rule = .adaptive (oneTrial [0])) ∧
    [some (3 * 3), some (0 * 0)] = [Ista.loss? (searchOnTheLine 3) 0, Ista.loss? (searchOnTheLine 3) 1] := by
  have hf : ∀ f ∈ (searchOnTheLine 3).smooth, ∀ x, Fills (f.gradient x) := by
    rintro f ⟨⟩
    exact (SquaredDistance.overwrites _).gradient
  have hg : ∀ g ∈ (searchOnTheLine 3).proximable, ∀ x tau, Fills (g.proximal x tau) := nofun
  have hbuild := build_searchOnTheLine 3
  have hrun := run_searchOnTheLine
  obtain ⟨hends, -, -, hlosses⟩ :=
    ista_run_computes_recursion hbuild hf hg .start (congrArg Outcome.state? hrun)
  obtain ⟨-, p, hp, hx, hterms⟩ := hends 1 hrun
  exact ⟨_, hbuild, hf, hg, .start, hrun, ⟨p, hp, hx, by rw [← hterms]; rfl⟩, hlosses rfl Nat.one_pos⟩

end Splitting
