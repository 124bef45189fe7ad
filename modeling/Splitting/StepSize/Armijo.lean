import Splitting.StepSize.Basic
import Splitting.Vec.Dot

/-!
# `Splitting.StepSize.Armijo` — backtracking to a sufficient decrease

From a first trial step, steps are shrunk by a constant factor until one decreases the smooth term enough:

  `f (x - a g) - f x ≤ -(a / 2) · ‖g‖²`.

Every search begins with the first trial step again.

* `Armijo.of` — the rule, with a budget of trials large enough to shrink the first step by a factor of
  `max (alpha ^ 2) (10 ^ 12)`;
* `Armijo.search` — the trials of one search;
* `StepRule (Armijo S)` — the first step that is accepted, or an error when the budget is spent.
-/

namespace Splitting

/-- A backtracking rule. `trial` is a buffer for trial points, and holds the last one that was looked at. -/
structure Armijo (S : Type) where
  /-- The first trial step. -/
  alpha : S
  /-- The factor by which trial steps shrink. -/
  beta : S
  maxTrials : Nat
  trial : Vec S

namespace Armijo

variable {S : Type} [Scalar S]

/-- The number of trials that a rule is given: twice the decades of `alpha`, or twelve, over the decades that
    one trial gains, rounded up. It is one where that is no machine number. -/
def budget (alpha beta : S) : Nat :=
  let decades := Scalar.max (((2 : Nat) : S) * Scalar.log10 alpha) ((12 : Nat) : S)
  max ((Scalar.ceilNat? (decades / -Scalar.log10 beta)).getD 0) 1

/-- A rule with a positive first step and a shrink factor in (0, 1). -/
def of (alpha beta : S) : Except Error (Armijo S) :=
  if ¬ 0 < alpha then .error (.invalidParameter (.initialStepNotPositive (Scalar.text alpha)))
  else if ¬ (0 < beta ∧ beta < 1) then .error (.invalidParameter (.shrinkFactorOutside (Scalar.text beta)))
  else .ok ⟨alpha, beta, budget alpha beta, []⟩

/-- The rule that halves its step from a million, forty times at most. -/
def standard : Armijo S := ⟨((1000000 : Nat) : S), 0.5, 40, []⟩

/-- The rule with another number of trials. -/
def withMaxTrials (rule : Armijo S) (n : Nat) : Armijo S := { rule with maxTrials := n }

/-- The point at distance `a` along the search direction. -/
def trialPoint? (ctx : StepContext S) (a : S) : Option (Vec S) :=
  Vec.zip? (fun x g => x - a * g) ctx.point ctx.gradient

/-- Whether the step `a` decreases the term enough, from the value `fx` to `fTrial`. -/
def accepts (fx normSq a fTrial : S) : Bool := fTrial - fx ≤ -(0.5 * a) * normSq

/-- The trials that remain, beginning with the step `a`: the step that is accepted, if any, and the last trial
    point. -/
def search (ctx : StepContext S) (fx normSq beta : S) : Nat → S → Vec S → Option (Option S × Vec S)
  | 0, _, trial => some (none, trial)
  | n + 1, a, _ => do
    let trial ← trialPoint? ctx a
    let fTrial ← valueOrZero ctx.smooth trial
    if accepts fx normSq a fTrial then some (some a, trial)
    else search ctx fx normSq beta n (a * beta) trial

/-- The buffer for trial points before a search at `point`: zeros if it had another length. -/
def resized (rule : Armijo S) (point : Vec S) : Vec S :=
  if rule.trial.length = point.length then rule.trial else Vec.zeros point.length

/-- One search. -/
def query (rule : Armijo S) (ctx : StepContext S) : Outcome (Armijo S) S :=
  match valueOrZero ctx.smooth ctx.point with
  | none => .mismatch
  | some fx =>
    match search ctx fx ctx.gradient.normSq rule.beta rule.maxTrials rule.alpha (rule.resized ctx.point) with
    | none => .mismatch
    | some (some a, trial) => .ok a { rule with trial := trial }
    | some (none, trial) => .error (.stepSizeSearchFailed rule.maxTrials) { rule with trial := trial }

instance : StepRule (Armijo S) S where
  query := query
  constant? _ := none

/-- A search changes the trial point only. -/
theorem frame_of_query {rule rule' : Armijo S} {ctx : StepContext S}
    (h : (rule.query ctx).state? = some rule') : ∃ trial, rule' = { rule with trial := trial } := by
  unfold query at h
  split at h
  · cases h
  · split at h
    · cases h
    · next a trial _ =>
      cases h
      exact ⟨trial, rfl⟩
    · next trial _ =>
      cases h
      exact ⟨trial, rfl⟩

end Armijo

end Splitting
