import Splitting.Functional.SquaredDistance
import Splitting.Proofs.Checks
import Splitting.Proofs.ForwardBackward.FailedSteps
import Splitting.Proofs.Scalars
import Splitting.StepSize.Armijo

/-!
# `Splitting.Proofs.ForwardBackward.Configuration` — which setups build, and what step they settle

A setup of a proximal gradient method has five options. Building looks at them in a fixed order, and computes a
default step from the Lipschitz constant of the smooth term. Later the method is asked for its step and whether that
step is provably convergent, and compares it with a bound that it computes anew. Both come from one factor, so the
default step meets the bound exactly, in rounded arithmetic as well.

* `Condition`, `Setup.Meets`, `Setup.complaint` — what a setup has to meet, in order, and the errors;
* `Setup.checks_build` — building checks the conditions in order;
* `Setup.exists_build_of_default` — what it takes that the default step is settled;
* `LibraryRule` — the rules that this library makes, whose constant step is positive and finite for ever;
* `Terms.Settled`, `Terms.Settled.of_step` — the terms of a setup, as every step keeps them;
* `Setup.Answers`, `Setup.Answers.of_default` — what is answered about convergence, and the default step;
* `setups_decide` — the main statement, for both methods.
-/

namespace Splitting

variable {S ρ π : Type}

/-! ## The conditions -/

/-- What building requires of a setup, in the order in which it is checked. -/
inductive Condition where
  /-- There is a term. -/
  | term
  /-- A step and a rule are not given at once. -/
  | oneStep
  /-- A step that is given is positive and finite. -/
  | givenStep
  /-- Where neither is given, the smooth term knows its Lipschitz constant. -/
  | lipschitz
  /-- Where neither is given, the factor of the method over that constant is positive and finite. -/
  | defaultStep
deriving DecidableEq, Repr

/-- The conditions, the first one first. -/
def Condition.inOrder : List Condition := [term, oneStep, givenStep, lipschitz, defaultStep]

variable [Scalar S]

/-- What a constant step has to be: positive and finite. -/
def IsStep (a : S) : Prop := 0 < a ∧ Scalar.isFinite a = true

theorem ConstantStep.of_eq_ok_iff {a : S} {r : ConstantStep S} :
    ConstantStep.of a = .ok r ↔ IsStep a ∧ r = ⟨a⟩ := by
  unfold ConstantStep.of
  split
  · next h => exact ⟨fun hr => ⟨h, (Except.ok.inj hr).symm⟩, fun hr => congrArg Except.ok hr.2.symm⟩
  · next h => exact ⟨fun hr => (nomatch hr), fun hr => absurd hr.1 h⟩

theorem StepChoice.fixed_of_isStep {a : S} (h : IsStep a) :
    StepChoice.fixed (ρ := ρ) <$> ConstantStep.of a = .ok (.fixed ⟨a⟩) := by
  rw [ConstantStep.of_eq_ok_iff.mpr ⟨h, rfl⟩]
  rfl

theorem StepChoice.fixed_of_not_isStep {a : S} (h : ¬ IsStep a) : StepChoice.fixed (ρ := ρ) <$> ConstantStep.of a =
    .error (.invalidParameter (.stepNotPositive (Scalar.text a))) := by
  have hrefused : ConstantStep.of a = .error (.invalidParameter (.stepNotPositive (Scalar.text a))) := if_neg h
  rw [hrefused]
  rfl

theorem isStep_one [LawfulScalar S] : IsStep (1 : S) := ⟨LawfulScalar.zero_lt_one, LawfulScalar.isFinite_one⟩

namespace Setup

/-- Neither a step nor a rule is given. -/
def StepIsDefault (setup : Setup S ρ π) : Prop := setup.rule = none ∧ setup.stepSize = none

/-- What a condition asks of a setup of a method with the default step `factor / L`. -/
def Meets (setup : Setup S ρ π) (factor : S) : Condition → Prop
  | .term => setup.smooth ≠ none ∨ setup.proximable ≠ none
  | .oneStep => setup.rule = none ∨ setup.stepSize = none
  | .givenStep => ∀ a ∈ setup.stepSize, IsStep a
  | .lipschitz => setup.StepIsDefault → ∀ f ∈ setup.smooth, f.lipschitz ≠ none
  | .defaultStep => setup.StepIsDefault → ∀ f ∈ setup.smooth, ∀ l ∈ f.lipschitz, IsStep (factor / l)

/-- The error where a condition is not met. -/
def complaint (setup : Setup S ρ π) (factor : S) : Condition → Error
  | .term => .bothTermsAbsent
  | .oneStep => .conflictingStepSize
  | .givenStep => .invalidParameter (.stepNotPositive (setup.stepSize.elim "" Scalar.text))
  | .lipschitz => .unknownLipschitz
  | .defaultStep => .invalidParameter
      (.stepNotPositive ((setup.smooth.bind Functional.lipschitz).elim "" fun l => Scalar.text (factor / l)))

variable {setup : Setup S ρ π} {factor : S}

theorem meets_lipschitz {l : S} {f : Functional S} (hsmooth : setup.smooth = some f) (hl : f.lipschitz = some l) :
    setup.Meets factor .lipschitz := by
  rintro - f' hf'
  cases hsmooth.symm.trans hf'
  exact hl ▸ Option.some_ne_none l

/-- Nothing is wrong with a setup that leaves the step to the method, if the default step is one. -/
theorem meets_of_default {l : S} {f : Functional S} (hdefault : setup.StepIsDefault) (hsmooth : setup.smooth = some f)
    (hl : f.lipschitz = some l) (hstep : IsStep (factor / l)) (c : Condition) : setup.Meets factor c := by
  cases c with
  | term => exact Or.inl (hsmooth ▸ Option.some_ne_none f)
  | oneStep => exact Or.inl hdefault.1
  | givenStep =>
    intro a ha
    cases hdefault.2.symm.trans ha
  | lipschitz => exact meets_lipschitz hsmooth hl
  | defaultStep =>
    rintro - f' hf' l' hl'
    cases hsmooth.symm.trans hf'
    cases hl.symm.trans hl'
    exact hstep

/-- A step that is not given is looked for in the smooth term. Where there is none, the default step is one, and there
    is nothing to be checked about it. -/
theorem checks_default [LawfulScalar S] (hrule : setup.rule = none) (hstep : setup.stepSize = none) :
    ChecksInOrder (setup.Meets factor) (setup.complaint factor) [.lipschitz, .defaultStep]
      (defaultStep factor setup.smooth >>= fun a => StepChoice.fixed (ρ := ρ) <$> ConstantStep.of a) := by
  cases hsmooth : setup.smooth with
  | none =>
    refine .passed (fun _ f hf => ?_) (.passed (fun _ f hf => ?_) ⟨_, StepChoice.fixed_of_isStep isStep_one⟩)
    · cases hsmooth.symm.trans hf
    · cases hsmooth.symm.trans hf
  | some f =>
    cases hl : f.lipschitz with
    | none =>
      refine .failed (fun h => h ⟨hrule, hstep⟩ f hsmooth hl) ?_
      simp only [defaultStep, hl]
      rfl
    | some l =>
      have hdefault : defaultStep factor (some f) = .ok (factor / l) := by simp only [defaultStep, hl]
      have hknown : setup.Meets factor .lipschitz := meets_lipschitz hsmooth hl
      rw [hdefault]
      by_cases ha : IsStep (factor / l)
      · have hmeets := meets_of_default ⟨hrule, hstep⟩ hsmooth hl ha
        exact .passed hknown (.passed (hmeets .defaultStep) ⟨_, StepChoice.fixed_of_isStep ha⟩)
      · refine .passed hknown (.failed (fun h => ha (h ⟨hrule, hstep⟩ f hsmooth l hl)) ?_)
        refine (StepChoice.fixed_of_not_isStep ha).trans ?_
        rw [complaint, hsmooth, Option.bind_some, hl]
        rfl

/-- **The step is looked for in order.** -/
theorem checks_choice [LawfulScalar S] : ChecksInOrder (setup.Meets factor) (setup.complaint factor)
    [.oneStep, .givenStep, .lipschitz, .defaultStep] (setup.choice factor) := by
  unfold choice
  cases hrule : setup.rule with
  | some r =>
    have hgiven : ¬ setup.StepIsDefault := fun h => nomatch hrule.symm.trans h.1
    cases hstep : setup.stepSize with
    | some a =>
      refine .failed ?_ rfl
      rintro (h | h)
      · cases hrule.symm.trans h
      · cases hstep.symm.trans h
    | none =>
      refine .passed (Or.inr hstep) (.passed (fun a ha => ?_)
        (.passed (absurd · hgiven) (.passed (absurd · hgiven) ⟨_, rfl⟩)))
      cases hstep.symm.trans ha
  | none =>
    cases hstep : setup.stepSize with
    | some a =>
      have hgiven : ¬ setup.StepIsDefault := fun h => nomatch hstep.symm.trans h.2
      by_cases ha : IsStep a
      · refine .passed (Or.inl hrule) (.passed (fun a' ha' => ?_)
          (.passed (absurd · hgiven) (.passed (absurd · hgiven) ⟨_, StepChoice.fixed_of_isStep ha⟩)))
        cases hstep.symm.trans ha'
        exact ha
      · refine .passed (Or.inl hrule) (.failed (fun h => ha (h a hstep)) ?_)
        refine (StepChoice.fixed_of_not_isStep ha).trans ?_
        rw [complaint, hstep]
        rfl
    | none =>
      refine .passed (Or.inl hrule) (.passed (fun a ha => ?_) (checks_default hrule hstep))
      cases hstep.symm.trans ha

/-- **Building checks the conditions in order.** -/
theorem checks_build [LawfulScalar S] : ChecksInOrder (setup.Meets factor) (setup.complaint factor)
    Condition.inOrder (setup.build factor) := by
  unfold build
  by_cases habsent : setup.smooth.isNone = true ∧ setup.proximable.isNone = true
  · rw [if_pos habsent]
    refine .failed ?_ rfl
    rintro (h | h)
    · exact h (Option.isNone_iff_eq_none.mp habsent.1)
    · exact h (Option.isNone_iff_eq_none.mp habsent.2)
  · rw [if_neg habsent]
    have hchoice : ChecksInOrder (setup.Meets factor) (setup.complaint factor)
        [.oneStep, .givenStep, .lipschitz, .defaultStep] (setup.choice factor) := checks_choice
    refine .passed ?_ (hchoice.bind fun rule _ => (⟨_, rfl⟩ : ChecksInOrder _ _ [] _))
    simpa only [Meets, Option.isNone_iff_eq_none, not_and_or] using habsent

end Setup

/-! ## Rules of the library -/

/-- A rule that this library makes: a constant step that was accepted, or a backtracking search. -/
inductive LibraryRule : {ρ : Type} → [StepRule ρ S] → ρ → Prop where
  | constant {a : S} {r : ConstantStep S} : ConstantStep.of a = .ok r → LibraryRule r
  | armijo (r : Armijo S) : LibraryRule r

namespace LibraryRule

variable [StepRule ρ S] {r r' : ρ}

/-- If such a rule has a constant step, that is positive and finite. -/
theorem isStep {a : S} (h : LibraryRule r) (ha : StepRule.constant? r = some a) : IsStep a := by
  cases h with
  | constant hr =>
    obtain ⟨hstep, rfl⟩ := ConstantStep.of_eq_ok_iff.mp hr
    cases ha
    exact hstep
  | armijo r => cases ha

/-- A query, answered or not, leaves such a rule. -/
theorem query {ctx : StepContext S} (h : LibraryRule r) (hr : (StepRule.query r ctx).state? = some r') :
    LibraryRule r' := by
  cases h with
  | constant hstep =>
    cases hr
    exact .constant hstep
  | armijo r => exact .armijo r'

end LibraryRule

/-! ## The terms of a method in use -/

section

variable [Preconditioner π S]

omit [Scalar S] in
/-- A preconditioner neither comes nor goes. -/
theorem preconditioned?_eq_none_iff {k : Nat} {x raw v : Vec S} {p p' : Option π}
    (h : preconditioned? k x raw p = some (p', v)) : p' = none ↔ p = none := by
  cases p with
  | none =>
    cases h
    rfl
  | some p =>
    obtain ⟨_, -, h⟩ := Option.map_eq_some_iff.mp h
    cases h
    simp

variable [StepRule ρ S] {k : Nat} {s s' : Stepping S ρ π}

/-- **What a step does to the rule and to the preconditioner:** it asks the rule once or not at all, and a
    preconditioner stays one. -/
theorem Stepping.asked_of_step (h : (s.step k).state? = some s') :
    (s'.terms.preconditioner = none ↔ s.terms.preconditioner = none) ∧
      (s'.terms.rule = s.terms.rule ∨ ∃ ctx, (StepRule.query s.terms.rule ctx).state? = some s'.terms.rule) := by
  rcases Outcome.state?_eq_some_iff.mp h with ⟨a, h⟩ | ⟨e, h⟩
  · obtain ⟨raw, p, gradient, rule, forward, x, -, hp, -, hrule, -, -, rfl⟩ := step_eq_ok_iff.mp h
    exact ⟨preconditioned?_eq_none_iff hp, Or.inr ⟨_, congrArg Outcome.state? hrule⟩⟩
  · obtain ⟨stage, hstop⟩ := step_eq_error_iff.mp h
    cases hstop with
    | gradient hv => exact ⟨Iff.rfl, Or.inl rfl⟩
    | preconditioner hraw hp hv hlen => exact ⟨by simp [hp], Or.inl rfl⟩
    | rule hraw hp hlen hrule => exact ⟨preconditioned?_eq_none_iff hp, Or.inr ⟨_, congrArg Outcome.state? hrule⟩⟩
    | proximal hraw hp hlen hrule hforward hx =>
      exact ⟨preconditioned?_eq_none_iff hp, Or.inr ⟨_, congrArg Outcome.state? hrule⟩⟩

end

/-- The default step: one without a smooth term, and else the factor over its Lipschitz constant. -/
def Setup.IsDefaultStep (setup : Setup S ρ π) (factor a : S) : Prop :=
  setup.smooth = none ∧ a = 1 ∨ ∃ f l, setup.smooth = some f ∧ f.lipschitz = some l ∧ a = factor / l

/-- There is one default step. -/
theorem Setup.IsDefaultStep.eq {setup : Setup S ρ π} {factor a l : S} {f : Functional S}
    (h : setup.IsDefaultStep factor a) (hsmooth : setup.smooth = some f) (hl : f.lipschitz = some l) :
    a = factor / l := by
  rcases h with ⟨hnone, -⟩ | ⟨f', l', hf', hl', ha⟩
  · cases hsmooth.symm.trans hnone
  · cases hsmooth.symm.trans hf'
    cases hl.symm.trans hl'
    exact ha

/-- What a method answers about a constant step `a` when it is asked whether that is provably convergent. There is
    nothing to compare with where there is no smooth term. -/
structure Setup.Answers (setup : Setup S ρ π) (factor a : S) (answer : Except Error Bool) : Prop where
  absent : setup.smooth = none → answer = .ok true
  unknown : ∀ f, setup.smooth = some f → f.lipschitz = none → answer = .error .unknownLipschitz
  compared : ∀ f l, setup.smooth = some f → f.lipschitz = some l → answer = .ok (decide (a ≤ factor / l))

variable [StepRule ρ S]

/-- The steps that a setup allows: the constant one that it settles, or the rule that it gives, as queries have left
    it. -/
def Setup.Allows (setup : Setup S ρ π) (factor : S) : StepChoice S ρ → Prop
  | .fixed step => IsStep step.step ∧
      (setup.stepSize = some step.step ∨ setup.StepIsDefault ∧ setup.IsDefaultStep factor step.step)
  | .adaptive r => ∃ given, setup.rule = some given ∧ setup.stepSize = none ∧ (LibraryRule given → LibraryRule r)

/-- Terms as the setup of a method settles them. -/
structure Terms.Settled (setup : Setup S ρ π) (factor : S) (t : Terms S ρ π) : Prop where
  smooth : t.smooth = setup.smooth
  preconditioner : t.preconditioner = none ↔ setup.preconditioner = none
  rule : setup.Allows factor t.rule

namespace Terms

variable {setup : Setup S ρ π} {factor a : S} {t : Terms S ρ π}

/-- What building chooses is allowed. -/
theorem allows_of_choice {choice : StepChoice S ρ} (h : setup.choice factor = .ok choice) :
    setup.Allows factor choice := by
  unfold Setup.choice at h
  cases hrule : setup.rule with
  | some r =>
    cases hstep : setup.stepSize with
    | some a => simp [hrule, hstep] at h
    | none =>
      simp only [hrule, hstep, Except.ok.injEq] at h
      obtain rfl := h
      exact ⟨r, hrule, hstep, id⟩
  | none =>
    cases hstep : setup.stepSize with
    | some a =>
      simp only [hrule, hstep] at h
      obtain ⟨r, hr, rfl⟩ := Except.map_eq_ok_iff.mp h
      obtain ⟨ha, rfl⟩ := ConstantStep.of_eq_ok_iff.mp hr
      exact ⟨ha, Or.inl hstep⟩
    | none =>
      simp only [hrule, hstep] at h
      obtain ⟨a, hdefault, h⟩ := Except.bind_eq_ok_iff.mp h
      obtain ⟨r, hr, rfl⟩ := Except.map_eq_ok_iff.mp h
      obtain ⟨ha, rfl⟩ := ConstantStep.of_eq_ok_iff.mp hr
      refine ⟨ha, Or.inr ⟨⟨hrule, hstep⟩, ?_⟩⟩
      cases hsmooth : setup.smooth with
      | none =>
        rw [hsmooth] at hdefault
        exact Or.inl ⟨hsmooth, (Except.ok.inj hdefault).symm⟩
      | some f =>
        rw [hsmooth] at hdefault
        cases hl : f.lipschitz with
        | none => simp [Setup.defaultStep, hl] at hdefault
        | some l =>
          simp only [Setup.defaultStep, hl, Except.ok.injEq] at hdefault
          exact Or.inr ⟨f, l, hsmooth, hl, hdefault.symm⟩

/-- **Building settles the terms.** -/
theorem settled_of_build {c : Composite S ρ π} (h : setup.build factor = .ok c) : c.terms.Settled setup factor := by
  obtain ⟨choice, hchoice, rfl⟩ := Setup.terms_of_build h
  exact ⟨rfl, Iff.rfl, allows_of_choice hchoice⟩

namespace Settled

/-- **Every step keeps the terms as they are settled,** completed or failed. -/
theorem of_step [Preconditioner π S] {k : Nat} {s s' : Stepping S ρ π} (h : s.terms.Settled setup factor)
    (hs : (s.step k).state? = some s') : s'.terms.Settled setup factor := by
  obtain ⟨hpreconditioner, hrule⟩ := Stepping.asked_of_step hs
  refine ⟨(Stepping.kept_of_step hs).smooth.trans h.smooth, hpreconditioner.trans h.preconditioner, ?_⟩
  rcases hrule with hsame | ⟨ctx, hquery⟩
  · rw [hsame]
    exact h.rule
  · have hallowed := h.rule
    cases hchoice : s.terms.rule with
    | fixed step =>
      rw [hchoice] at hquery hallowed
      have hsame : s'.terms.rule = .fixed step := (Option.some.inj hquery).symm
      rw [hsame]
      exact hallowed
    | adaptive r =>
      rw [hchoice] at hquery hallowed
      obtain ⟨r', hr', hafter⟩ := Option.map_eq_some_iff.mp (Outcome.state?_mapState.symm.trans hquery)
      obtain ⟨given, hgiven, hstep, hlibrary⟩ := hallowed
      rw [← hafter]
      exact ⟨given, hgiven, hstep, fun h => (hlibrary h).query hr'⟩

/-- Every step that is reported is positive and finite, unless a rule of the user's own reports it. -/
theorem isStep (h : t.Settled setup factor) (hrule : ∀ r ∈ setup.rule, LibraryRule r) (ha : t.stepSize = .ok a) :
    IsStep a := by
  have hconstant := stepSize_eq_ok_iff.mp ha
  have hallowed := h.rule
  cases hchoice : t.rule with
  | fixed step =>
    rw [hchoice] at hconstant hallowed
    cases hconstant
    exact hallowed.1
  | adaptive r =>
    rw [hchoice] at hconstant hallowed
    obtain ⟨given, hgiven, -, hlibrary⟩ := hallowed
    exact (hlibrary (hrule given hgiven)).isStep hconstant

/-- A step that was given is the one that is reported. -/
theorem stepSize_of_given (h : t.Settled setup factor) (ha : setup.stepSize = some a) : t.stepSize = .ok a := by
  have hallowed := h.rule
  rw [stepSize_eq_ok_iff]
  cases hchoice : t.rule with
  | fixed step =>
    rw [hchoice] at hallowed
    rcases hallowed.2 with hgiven | ⟨⟨-, hnone⟩, -⟩
    · cases ha.symm.trans hgiven
      rfl
    · cases ha.symm.trans hnone
  | adaptive r =>
    rw [hchoice] at hallowed
    obtain ⟨-, -, hnone, -⟩ := hallowed
    cases ha.symm.trans hnone

/-- Where none was given and no rule, the default step is reported. -/
theorem stepSize_of_default (h : t.Settled setup factor) (hdefault : setup.StepIsDefault) :
    ∃ a, t.stepSize = .ok a ∧ IsStep a ∧ setup.IsDefaultStep factor a := by
  have hallowed := h.rule
  cases hchoice : t.rule with
  | fixed step =>
    rw [hchoice] at hallowed
    obtain ⟨ha, hgiven | ⟨-, hstep⟩⟩ := hallowed
    · cases hdefault.2.symm.trans hgiven
    · exact ⟨step.step, stepSize_eq_ok_iff.mpr (congrArg StepRule.constant? hchoice), ha, hstep⟩
  | adaptive r =>
    rw [hchoice] at hallowed
    obtain ⟨given, hgiven, -⟩ := hallowed
    cases hdefault.1.symm.trans hgiven

/-- **What is answered about convergence** where nothing scales the gradient, for a constant step `a`. -/
theorem answers (h : t.Settled setup factor) (hpreconditioner : setup.preconditioner = none)
    (ha : t.stepSize = .ok a) : setup.Answers factor a (t.isProvablyConvergent factor) := by
  have hnone : t.preconditioner = none := h.preconditioner.mpr hpreconditioner
  refine ⟨fun hsmooth => ?_, fun f hsmooth hl => ?_, fun f l hsmooth hl => ?_⟩
  · rw [isProvablyConvergent, hnone, ha, h.smooth, hsmooth]
    rfl
  · rw [isProvablyConvergent, hnone, ha, h.smooth, hsmooth]
    simp only [hl]
    rfl
  · rw [isProvablyConvergent, hnone, ha, h.smooth, hsmooth]
    simp only [hl]
    rfl

theorem preconditioned (h : t.Settled setup factor) (hpreconditioner : setup.preconditioner ≠ none) :
    t.isProvablyConvergent factor = .error .preconditionedConvergence := by
  obtain ⟨p, hp⟩ := Option.ne_none_iff_exists'.mp fun hnone => hpreconditioner (h.preconditioner.mp hnone)
  rw [isProvablyConvergent, hp]

end Settled

end Terms

/-- A setup that leaves the step to the method is built with the default step. -/
theorem Setup.exists_build_of_default [LawfulScalar S] {setup : Setup S ρ π} {factor l : S} {f : Functional S}
    (hdefault : setup.StepIsDefault) (hsmooth : setup.smooth = some f) (hl : f.lipschitz = some l)
    (hstep : IsStep (factor / l)) :
    ∃ c, setup.build factor = .ok c ∧ c.terms.stepSize = .ok (factor / l) := by
  obtain ⟨c, hc⟩ := checks_build.succeeds_iff.mpr fun c _ => meets_of_default hdefault hsmooth hl hstep c
  obtain ⟨a, ha, -, ha'⟩ := (Terms.settled_of_build hc).stepSize_of_default hdefault
  rw [ha'.eq hsmooth hl] at ha
  exact ⟨c, hc, ha⟩

omit [StepRule ρ S] in
/-- **The default step is provably convergent:** it is computed as the bound is, and a finite number is at most
    itself. -/
theorem Setup.Answers.of_default [LawfulScalar S] {setup : Setup S ρ π} {factor a : S} {answer : Except Error Bool}
    (h : setup.Answers factor a answer) (ha : IsStep a) (hdefault : setup.IsDefaultStep factor a) :
    answer = .ok true := by
  rcases hdefault with ⟨hsmooth, -⟩ | ⟨f, l, hsmooth, hl, rfl⟩
  · exact h.absent hsmooth
  · rw [h.compared f l hsmooth hl, decide_eq_true (LawfulScalar.le_self ha.2)]

/-! ## Both methods -/

/-- **What a setup decides** about a method with the default step `factor / L`: whether it is built, and what it says
    about its step from then on, whatever calls have been made, completed or failed. -/
structure Setup.Decides {M : Type} [Iterative M S] (setup : Setup S ρ π) (factor : S) (built : Except Error M)
    (stepSize : M → Except Error S) (convergent : M → Except Error Bool) : Prop where
  /-- It is built exactly when all conditions are met. -/
  succeeds : (∃ m, built = .ok m) ↔ ∀ c ∈ Condition.inOrder, setup.Meets factor c
  /-- Else the error is the one of the first condition that is not met. -/
  fails : ∀ e, built = .error e ↔ ∃ before c after, Condition.inOrder = before ++ c :: after ∧
    (∀ q ∈ before, setup.Meets factor q) ∧ ¬ setup.Meets factor c ∧ e = setup.complaint factor c
  /-- A step that is reported is positive and finite, without a rule of the user's own. -/
  positive : ∀ {m₀ m : M} {a : S}, built = .ok m₀ → Used unchangeable m₀ m →
    (∀ r ∈ setup.rule, LibraryRule r) → stepSize m = .ok a → IsStep a
  /-- A step that was given is reported, and compared with the bound. -/
  given : ∀ {m₀ m : M} {a : S}, built = .ok m₀ → Used unchangeable m₀ m → setup.stepSize = some a →
    stepSize m = .ok a ∧ (setup.preconditioner = none → setup.Answers factor a (convergent m))
  /-- The default step is reported where nothing was given, and is provably convergent. -/
  default : ∀ {m₀ m : M}, built = .ok m₀ → Used unchangeable m₀ m → setup.StepIsDefault →
    (∃ a, stepSize m = .ok a ∧ IsStep a ∧ setup.IsDefaultStep factor a) ∧
      (setup.preconditioner = none → convergent m = .ok true)
  /-- No criterion covers gradients that a preconditioner scales. -/
  preconditioned : ∀ {m₀ m : M}, built = .ok m₀ → Used unchangeable m₀ m → setup.preconditioner ≠ none →
    convergent m = .error .preconditionedConvergence

/-- It is enough that the method keeps the terms as the setup settles them. -/
theorem Setup.decides_of [LawfulScalar S] {M : Type} [Iterative M S] {setup : Setup S ρ π} {factor : S}
    {built : Except Error M} {terms : M → Terms S ρ π}
    (hchecks : ChecksInOrder (setup.Meets factor) (setup.complaint factor) Condition.inOrder built)
    (hsettled : ∀ {m₀ m}, built = .ok m₀ → Used unchangeable m₀ m → (terms m).Settled setup factor) :
    setup.Decides factor built (fun m => (terms m).stepSize) fun m => (terms m).isProvablyConvergent factor where
  succeeds := hchecks.succeeds_iff
  fails _ := hchecks.eq_error_iff
  positive h₀ hm hrule ha := (hsettled h₀ hm).isStep hrule ha
  given h₀ hm ha := by
    have hstep := (hsettled h₀ hm).stepSize_of_given ha
    exact ⟨hstep, fun hpreconditioner => (hsettled h₀ hm).answers hpreconditioner hstep⟩
  default h₀ hm hdefault := by
    obtain ⟨a, hstep, ha, hisDefault⟩ := (hsettled h₀ hm).stepSize_of_default hdefault
    refine ⟨⟨a, hstep, ha, hisDefault⟩, fun hpreconditioner => ?_⟩
    exact ((hsettled h₀ hm).answers hpreconditioner hstep).of_default ha hisDefault
  preconditioned h₀ hm hpreconditioner := (hsettled h₀ hm).preconditioned hpreconditioner

variable [Preconditioner π S]

/-- **Every setup decides as it says,** for both methods and in every arithmetic in which finite numbers compare with
    themselves. -/
theorem setups_decide [LawfulScalar S] (setup : Setup S ρ π) :
    setup.Decides Ista.stepFactor (Ista.build setup) Ista.stepSize Ista.isProvablyConvergent ∧
      setup.Decides Fista.stepFactor (Fista.build setup) Fista.stepSize Fista.isProvablyConvergent := by
  constructor
  · refine Setup.decides_of (Setup.checks_build.bind fun c _ => (⟨_, rfl⟩ : ChecksInOrder _ _ [] _)) ?_
    intro m₀ m h₀ hm
    obtain ⟨c, hc, rfl⟩ := Except.map_eq_ok_iff.mp h₀
    exact Ista.terms_of_used Terms.Settled.of_step (Terms.settled_of_build hc) hm
  · refine Setup.decides_of (Setup.checks_build.bind fun c _ => (⟨_, rfl⟩ : ChecksInOrder _ _ [] _)) ?_
    intro m₀ m h₀ hm
    obtain ⟨c, hc, h₀⟩ := Except.bind_eq_ok_iff.mp h₀
    cases h₀
    exact Fista.terms_of_used Terms.Settled.of_step (Terms.settled_of_build hc) hm

/-- A multiple of the square, on the line, with nothing said about the step. -/
def scaledSquareOnTheLine {S : Type} [Scalar S] (scale : S) : Setup S (ConstantStep S) (Sensitivity S) where
  initial := [1]
  smooth := some (SquaredDistance.functional ⟨scale, none⟩)
  proximable := none
  stepSize := none
  rule := none
  preconditioner := none

/-- In double precision `1.98 / 6` is a step, and so is `1 / 6` in single precision; both are rounded, and both
    methods call their own provably convergent. -/
theorem setups_decide_on_the_line :
    (∃ m, Ista.build (scaledSquareOnTheLine (3 : Float)) = .ok m ∧ m.stepSize = .ok (1.98 / (3 + 3)) ∧
      m.isProvablyConvergent = .ok true) ∧
    ∃ m, Fista.build (scaledSquareOnTheLine (3 : Float32)) = .ok m ∧ m.stepSize = .ok (1 / (3 + 3)) ∧
      m.isProvablyConvergent = .ok true := by
  have hplain := (setups_decide (scaledSquareOnTheLine (3 : Float))).1
  have haccelerated := (setups_decide (scaledSquareOnTheLine (3 : Float32))).2
  constructor
  · have hstep : IsStep ((1.98 : Float) / (3 + 3)) := ⟨by decide, by decide⟩
    obtain ⟨m, hm⟩ := hplain.succeeds.mpr fun c _ => Setup.meets_of_default ⟨rfl, rfl⟩ rfl rfl hstep c
    obtain ⟨⟨a, ha, -, hdefault⟩, hconvergent⟩ := hplain.default hm .start ⟨rfl, rfl⟩
    rw [hdefault.eq rfl rfl] at ha
    exact ⟨m, hm, ha, hconvergent rfl⟩
  · have hstep : IsStep ((1 : Float32) / (3 + 3)) := ⟨by decide, by decide⟩
    obtain ⟨m, hm⟩ := haccelerated.succeeds.mpr fun c _ => Setup.meets_of_default ⟨rfl, rfl⟩ rfl rfl hstep c
    obtain ⟨⟨a, ha, -, hdefault⟩, hconvergent⟩ := haccelerated.default hm .start ⟨rfl, rfl⟩
    rw [hdefault.eq rfl rfl] at ha
    exact ⟨m, hm, ha, hconvergent rfl⟩

end Splitting
