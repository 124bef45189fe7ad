import Splitting.Proofs.Convex.Momentum
import Splitting.Proofs.ForwardBackward.Retry

/-!
# `Splitting.Proofs.ForwardBackward.CompletedUpdates` — the momentum counts completed updates

The momentum of the accelerated method is moved by an update that completes, and by nothing else: not by an update
that fails, and not by the exchanges and records in between. So it is the same number after as many completed updates,
whatever else was called.

* `Advanced` — a method that calls lead to, and how many updates among them completed;
* `Advanced.of_used`, `Advanced.run` — every method that calls or runs lead to is one;
* `Fista.momentum_of_advanced` — its momentum, in any arithmetic;
* `fista_momentum_counts_completed_updates` — the main statement.
-/

namespace Splitting

variable {A C S ρ π : Type}

/-! ## Completed updates -/

section

variable [Iterative A S] {change : A → C → Outcome A Unit} {start m m' : A} {k : ℕ}

/-- A method that calls lead to, `k` of which are updates that completed. -/
inductive Advanced (change : A → C → Outcome A Unit) (start : A) : ℕ → A → Prop where
  | start : Advanced change start 0 start
  | update {k : ℕ} {m m' : A} : Advanced change start k m → Iterative.update m = .ok () m' →
      Advanced change start (k + 1) m'
  | failed {k : ℕ} {m m' : A} {e : Error} : Advanced change start k m → Iterative.update m = .error e m' →
      Advanced change start k m'
  | exchange {k : ℕ} {m : A} : Advanced change start k m → Advanced change start k (Iterative.exchange m)
  | record {k : ℕ} {m m' : A} : Advanced change start k m → (Iterative.recordObjective m).state? = some m' →
      Advanced change start k m'
  | change {k : ℕ} {m m' : A} {c : C} : Advanced change start k m → (change m c).state? = some m' →
      Advanced change start k m'

namespace Advanced

/-- **Calls complete some number of updates.** -/
theorem of_used (h : Advanced change start k m) (hm : Used change m m') : ∃ l, Advanced change start l m' := by
  induction hm with
  | start => exact ⟨k, h⟩
  | @call m₁ m₂ c _ hc ih =>
    obtain ⟨l, hl⟩ := ih
    cases c with
    | update =>
      rcases Outcome.state?_eq_some_iff.mp hc with ⟨⟨⟩, hu⟩ | ⟨e, hu⟩
      · exact ⟨l + 1, hl.update hu⟩
      · exact ⟨l, hl.failed hu⟩
    | exchange =>
      cases hc
      exact ⟨l, hl.exchange⟩
    | recordObjective => exact ⟨l, hl.record hc⟩
    | change c => exact ⟨l, hl.change hc⟩

/-- **A run completes some number of updates,** also if it is broken off by a failure. -/
theorem run {κ : Type} {budget interval : ℕ} {watcher : Watcher κ S} {memory : κ} {r : Run A κ S}
    (h : Advanced change start k m) (hr : (Splitting.run m budget interval watcher memory).state? = some r) :
    ∃ l, Advanced change start l r.method :=
  h.of_used (Used.start.run hr)

end Advanced

end

/-! ## The momentum -/

namespace Fista

variable [Scalar S] [StepRule ρ S] [Preconditioner π S] {setup : Setup S ρ π} {m₀ m : Fista S ρ π} {k : ℕ}

omit [StepRule ρ S] [Preconditioner π S] in
theorem start_of_build (h : Fista.build setup = .ok m₀) : m₀.momentum = 1 ∧ m₀.state.iteration = 0 := by
  obtain ⟨c, hc, h⟩ := Except.bind_eq_ok_iff.mp h
  obtain ⟨rule, -, rfl⟩ := Setup.terms_of_build hc
  cases h
  exact ⟨rfl, rfl⟩

/-- **The momentum and the count of iterations** after `k` completed updates, in any arithmetic. -/
theorem momentum_of_advanced (hbuild : Fista.build setup = .ok m₀) (h : Advanced unchangeable m₀ k m) :
    m.momentum = momentumAfter k ∧ m.state.iteration = k := by
  induction h with
  | start => exact start_of_build hbuild
  | update _ hu ih =>
    obtain ⟨a, s, y, -, -, -, rfl⟩ := update_eq_ok hu
    exact ⟨congrArg nextMomentum ih.1, congrArg (· + 1) ih.2⟩
  | failed _ hu ih =>
    obtain ⟨hiteration, -, hmomentum⟩ := frame_of_update_error hu
    exact ⟨hmomentum.trans ih.1, hiteration.trans ih.2⟩
  | exchange _ ih => exact ih
  | record _ ho ih =>
    obtain ⟨losses, rfl⟩ := Fista.recordObjective_eq ho
    exact ih
  | @change _ _ _ c _ hc ih => exact nomatch c

end Fista

open Fista in
/-- **The momentum counts completed updates.** In exact arithmetic, let the accelerated method be built, and let calls
    complete `k` of its updates, with failed updates, exchanges and records in between. Its momentum is then `t k` of
    the recursion from `t 0 = 1`, between `(k + 2) / 2` and `k + 1`, and `t (k+1)² - t (k+1) = t k²`. The weight
    `(t k - 1) / t (k+1)` is at least zero and less than one; it is with this weight that the next update, if it
    completes, extrapolates from the solution through the new iterate, and `t (k+1)` is what it leaves. -/
theorem fista_momentum_counts_completed_updates [StepRule ρ ℝ] [Preconditioner π ℝ] {setup : Setup ℝ ρ π}
    {m₀ m : Fista ℝ ρ π} {k : ℕ} (hbuild : Fista.build setup = .ok m₀) (h : Advanced unchangeable m₀ k m) :
    m.state.iteration = k ∧ m.momentum = momentumAfter k ∧
      ((k : ℝ) + 2) / 2 ≤ m.momentum ∧ m.momentum ≤ k + 1 ∧
      (momentumAfter (k + 1) : ℝ) ^ 2 - momentumAfter (k + 1) = m.momentum ^ 2 ∧
      (m.momentum - 1) / momentumAfter (k + 1) ∈ Set.Ico 0 1 ∧
      ∀ m', m.update = .ok () m' → m'.momentum = momentumAfter (k + 1) ∧
        Vec.zip? (fun x old => x + (m.momentum - 1) / momentumAfter (k + 1) * (x - old)) m'.state.next
          m.state.solution = some m'.ahead := by
  obtain ⟨hmomentum, hcount⟩ := momentum_of_advanced hbuild h
  have hnext : (momentumAfter (k + 1) : ℝ) = nextMomentum m.momentum := by
    rw [hmomentum]
    rfl
  rw [hnext]
  refine ⟨hcount, hmomentum, ?_, ?_, nextMomentum_sq_sub m.momentum, weight_mem_Ico ?_, ?_⟩
  · exact hmomentum ▸ le_momentumAfter k
  · exact hmomentum ▸ momentumAfter_le k
  · exact hmomentum ▸ one_le_momentumAfter k
  · intro m' hu
    obtain ⟨a, s, y, -, hy, -, rfl⟩ := update_eq_ok hu
    exact ⟨rfl, hy⟩

/-- An update that fails for want of a proximal map leaves the momentum at one. An update that completes takes it to a
    number between three halves and two, and an exchange keeps it there. -/
theorem fista_momentum_counts_completed_updates_on_the_line :
    (∃ m, Fista.build (unproximableOnTheLine 3) = .ok (unproximableMethod 3) ∧
      Advanced unchangeable (unproximableMethod 3) 0 m ∧
      (unproximableMethod 3).update = .error (.unsupported "proximal") m ∧ m.momentum = 1) ∧
    ∃ m, Fista.build (squareOnTheLine 3) = .ok (squareOnTheLineMethod 3) ∧
      Advanced unchangeable (squareOnTheLineMethod 3) 1 m ∧ m.state.solution = [0] ∧
      3 / 2 ≤ m.momentum ∧ m.momentum ≤ 2 ∧ m.momentum ^ 2 - m.momentum = 1 := by
  constructor
  · obtain ⟨s, hstop, -⟩ := stopsAt_unproximableMethod
    have hupdate : (unproximableMethod 3).update = .error (.unsupported "proximal") _ :=
      Fista.update_eq_error_iff.mpr ⟨.proximal, s, hstop, rfl⟩
    have hadvanced : Advanced unchangeable (unproximableMethod 3) 0 _ := .failed .start hupdate
    obtain ⟨-, hmomentum, -⟩ := fista_momentum_counts_completed_updates (build_unproximableOnTheLine 3) hadvanced
    exact ⟨_, build_unproximableOnTheLine 3, hadvanced, hupdate, hmomentum⟩
  · obtain ⟨m, hu, hnext, -⟩ := squareOnTheLine_first_iteration 3
    have hadvanced : Advanced unchangeable (squareOnTheLineMethod 3) 1 (Iterative.exchange m) :=
      .exchange (.update .start hu)
    obtain ⟨-, -, hlow, hhigh, -⟩ := fista_momentum_counts_completed_updates (build_squareOnTheLine 3) hadvanced
    obtain ⟨-, -, -, -, hequation, -, hmoves⟩ :=
      fista_momentum_counts_completed_updates (build_squareOnTheLine 3) .start
    obtain ⟨hfirst, -⟩ := hmoves m hu
    rw [← hfirst] at hequation
    refine ⟨_, build_squareOnTheLine 3, hadvanced, hnext, ?_, ?_, ?_⟩
    · norm_num at hlow
      exact hlow
    · norm_num at hhigh
      exact hhigh
    · exact hequation.trans (one_pow 2)

end Splitting
