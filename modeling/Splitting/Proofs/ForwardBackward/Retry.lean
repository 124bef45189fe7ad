import Splitting.Proofs.ForwardBackward.FailedSteps

/-!
# `Splitting.Proofs.ForwardBackward.Retry` — trying again after a failed update

An update that fails before the proximal map is asked for has written into the gradient buffer, and the rule for the
step may have used its own room to work in. The next update overwrites the gradient buffer before it reads it. So if
the rule and the preconditioner remember nothing else, the failed update might as well not have been made: whatever is
called afterwards, and whatever is run, ends as it would have without it.

* `StatelessRule`, `StatelessPreconditioner` — rules and preconditioners that remember nothing;
* `Armijo.stateless`, `ConstantStep.stateless`, `StatelessRule.choice`, `Sensitivity.stateless` — the ones of
  this library;
* `Stepping.Alike`, `Stepping.step_agree` — steps that differ in what does not matter end alike;
* `Ista.indistinguishable`, `Fista.indistinguishable` — so do updates, and everything else;
* `failed_steps_can_be_retried` — the main statement, with what a failure in the proximal map leaves.
-/

namespace Splitting

variable {S κ ρ π : Type}

/-! ## Rules and preconditioners that remember nothing -/

/-- A rule that keeps no state of its own but room to work in: what it answers, and the constant that it is known by,
    depends on its core, and no query changes that. -/
structure StatelessRule [StepRule ρ S] (core : ρ → κ) : Prop where
  constant : ∀ {r r' : ρ}, core r = core r' → StepRule.constant? r = StepRule.constant? r'
  query : ∀ {r r' : ρ} (ctx : StepContext S), core r = core r' →
    Outcome.Agree Eq (fun s t => core s = core t) (StepRule.query r ctx) (StepRule.query r' ctx)
  kept : ∀ {r r' : ρ} {ctx : StepContext S}, (StepRule.query r ctx).state? = some r' → core r' = core r

/-- A preconditioner that keeps no state of its own. -/
structure StatelessPreconditioner (π : Type) {S : Type} [Preconditioner π S] : Prop where
  kept : ∀ {p p' : π} {x : Iterate S} {g v : Vec S}, (Preconditioner.apply p x g).state? = some (p', v) → p' = p

/-- A constant step remembers nothing. -/
theorem ConstantStep.stateless : StatelessRule (id : ConstantStep S → ConstantStep S) where
  constant h := by
    cases h
    rfl
  query ctx h := by
    cases h
    exact .ok rfl rfl
  kept h := by
    cases h
    rfl

/-- The scaling by the column sums remembers nothing. -/
theorem Sensitivity.stateless [Scalar S] : StatelessPreconditioner (Sensitivity S) where
  kept h := by
    obtain ⟨g, -, hg⟩ := Option.map_eq_some_iff.mp (Outcome.state?_mapState.symm.trans h)
    cases hg
    rfl

/-- The core of the step of a method: the constant step itself, or the core of the rule. -/
def StepChoice.core (core : ρ → κ) : StepChoice S ρ → ConstantStep S ⊕ κ
  | .fixed step => .inl step
  | .adaptive rule => .inr (core rule)

/-- The step of a method remembers no more than its rule does. -/
theorem StatelessRule.choice [StepRule ρ S] {core : ρ → κ} (h : StatelessRule core) :
    StatelessRule (StepChoice.core (S := S) core) where
  constant {r r'} hr := by
    cases r with
    | fixed step =>
      cases r' with
      | fixed step' =>
        cases hr
        rfl
      | adaptive rule' => cases hr
    | adaptive rule =>
      cases r' with
      | fixed step' => cases hr
      | adaptive rule' => exact h.constant (Sum.inr.inj hr)
  query {r r'} ctx hr := by
    cases r with
    | fixed step =>
      cases r' with
      | fixed step' =>
        cases hr
        exact .ok rfl rfl
      | adaptive rule' => cases hr
    | adaptive rule =>
      cases r' with
      | fixed step' => cases hr
      | adaptive rule' => exact (h.query ctx (Sum.inr.inj hr)).mapState fun _ _ hst => congrArg Sum.inr hst
  kept {r r' ctx} hr := by
    cases r with
    | fixed step =>
      cases hr
      rfl
    | adaptive rule =>
      obtain ⟨rule', hrule', rfl⟩ := Option.map_eq_some_iff.mp (Outcome.state?_mapState.symm.trans hr)
      exact congrArg Sum.inr (h.kept hrule')

namespace Armijo

variable [Scalar S]

/-- The parameters of a rule, without the buffer for trial points. -/
def parameters (rule : Armijo S) : S × S × Nat := (rule.alpha, rule.beta, rule.maxTrials)

/-- **A search remembers nothing:** the trial buffer is room to work in. -/
theorem stateless : StatelessRule (parameters : Armijo S → S × S × Nat) where
  constant _ := rfl
  query {r r'} ctx hr := by
    obtain ⟨alpha, beta, maxTrials, trial⟩ := r
    obtain ⟨_, _, _, trial'⟩ := r'
    cases hr
    cases maxTrials with
    | zero =>
      simp only [StepRule.query, Armijo.query, search]
      cases valueOrZero ctx.smooth ctx.point with
      | none => exact .mismatch
      | some fx => exact .error rfl
    | succ n =>
      -- the first trial point overwrites the buffer
      have hsame : query ⟨alpha, beta, n + 1, trial⟩ ctx = query ⟨alpha, beta, n + 1, trial'⟩ ctx := rfl
      simp only [StepRule.query, hsame]
      exact (Outcome.Agree.refl _).imp fun _ _ _ _ => congrArg parameters
  kept {r r' ctx} hr := by
    obtain ⟨trial, rfl⟩ := frame_of_query hr
    rfl

end Armijo

/-! ## Steps -/

namespace Stepping

variable {s t : Stepping S ρ π} {core : StepChoice S ρ → κ} {k : Nat}

/-- Steps that differ in the contents of the gradient buffer, and in what the rule keeps beside its core. -/
structure Alike (core : StepChoice S ρ → κ) (s t : Stepping S ρ π) : Prop where
  smooth : s.terms.smooth = t.terms.smooth
  proximable : s.terms.proximable = t.terms.proximable
  rule : core s.terms.rule = core t.terms.rule
  preconditioner : s.terms.preconditioner = t.terms.preconditioner
  point : s.point = t.point
  gradient : s.gradient.length = t.gradient.length
  out : s.out = t.out

/-- Steps that differ in what the rule keeps beside its core only. -/
def Evaluated (core : StepChoice S ρ → κ) (s t : Stepping S ρ π) : Prop :=
  ∃ rule, t = { s with terms := { s.terms with rule := rule } } ∧ core s.terms.rule = core rule

theorem Evaluated.alike (h : Evaluated core s t) : Alike core s t := by
  obtain ⟨rule, rfl, hrule⟩ := h
  exact ⟨rfl, rfl, hrule, rfl, rfl, rfl, rfl⟩

/-- The preconditioner does not look at the rule. -/
theorem precondition_agree [Preconditioner π S] (h : Evaluated core s t) :
    Outcome.Agree Eq (Evaluated core) (s.precondition k) (t.precondition k) := by
  obtain ⟨rule, rfl, hrule⟩ := h
  unfold precondition
  cases s.terms.preconditioner with
  | none => exact .ok rfl ⟨rule, rfl, hrule⟩
  | some p =>
    refine (Outcome.Agree.refl _).mapState ?_
    rintro ⟨p', g⟩ _ rfl
    exact ⟨rule, rfl, hrule⟩

/-- The rule answers from its core. -/
theorem chooseStep_agree [StepRule ρ S] (hcore : StatelessRule core) (h : Evaluated core s t) :
    Outcome.Agree Eq (Evaluated core) (s.chooseStep k) (t.chooseStep k) := by
  obtain ⟨rule, rfl, hrule⟩ := h
  exact (hcore.query _ hrule).mapState fun r r' hr => ⟨r', rfl, hr⟩

theorem backward_agree {a : S} (h : Evaluated core s t) :
    Outcome.Agree Eq (Evaluated core) (s.backward a) (t.backward a) := by
  obtain ⟨rule, rfl, hrule⟩ := h
  refine (Outcome.Agree.refl _).mapState ?_
  rintro x _ rfl
  exact ⟨rule, rfl, hrule⟩

variable [Scalar S]

theorem forward_agree {a : S} (h : Evaluated core s t) :
    Outcome.Agree Eq (Evaluated core) (s.forward a) (t.forward a) := by
  obtain ⟨rule, rfl, hrule⟩ := h
  unfold forward
  cases Vec.zip? (fun x g => x + -a * g) s.point s.gradient with
  | none => exact .mismatch
  | some p => exact .ok rfl ⟨rule, rfl, hrule⟩

variable [StepRule ρ S] [Preconditioner π S]

/-- **Steps that are alike end alike.** Once the gradient has been evaluated, it is the same in both. -/
theorem step_agree (hcore : StatelessRule core)
    (hf : SoundGradient s.terms.smooth) (h : Alike core s t) :
    Outcome.Agree Eq (Alike core) (s.step k) (t.step k) := by
  have hends := (fills_gradientOrZero fun f hmem => (hf f hmem s.point).1).cases_of_spares
    (spares_gradientOrZero fun f hmem => (hf f hmem s.point).2) h.gradient.symm
  have hevaluate : t.evaluate = (gradientOrZero s.terms.smooth s.point t.gradient).mapState fun g =>
      { t with gradient := g } := by
    rw [h.smooth, h.point]
    rfl
  unfold step
  rw [hevaluate, evaluate]
  rcases hends with ⟨raw, hs, ht⟩ | ⟨e, hs, ht⟩ | ⟨hs, ht⟩
  · rw [hs, ht]
    have hevaluated : Evaluated core { s with gradient := raw } { t with gradient := raw } := by
      obtain ⟨⟨smooth, proximable, rule, preconditioner⟩, point, gradient, out⟩ := s
      obtain ⟨⟨smooth', proximable', rule', preconditioner'⟩, point', gradient', out'⟩ := t
      obtain ⟨rfl, rfl, hrule, rfl, rfl, -, rfl⟩ := h
      exact ⟨rule', rfl, hrule⟩
    refine (precondition_agree hevaluated).bind (fun _ _ => Evaluated.alike) fun _ _ _ _ _ h₁ => ?_
    refine (chooseStep_agree hcore h₁).bind (fun _ _ => Evaluated.alike) fun a b _ _ hab h₂ => ?_
    obtain rfl : a = b := hab
    refine (forward_agree h₂).bind (fun _ _ => Evaluated.alike) fun _ _ _ _ _ h₃ => ?_
    exact ((backward_agree h₃).imp fun _ _ _ _ => Evaluated.alike).map fun _ _ _ => rfl
  · rw [hs, ht]
    exact .error h
  · rw [hs, ht]
    exact .mismatch

omit [Scalar S] [StepRule ρ S] in
/-- A preconditioner that remembers nothing is the same afterwards. -/
theorem eq_of_preconditioned? {x raw g : Vec S} {p q : Option π} (hpre : StatelessPreconditioner π)
    (h : preconditioned? k x raw p = some (q, g)) : q = p := by
  cases p with
  | none =>
    cases h
    rfl
  | some p =>
    obtain ⟨⟨⟨⟩, p', v⟩, hv, h⟩ := Option.map_eq_some_iff.mp h
    cases h
    have hv := (Outcome.guard_eq_ok_iff.mp (Outcome.success?_eq_some_iff.mp hv)).1
    rw [hpre.kept (congrArg Outcome.state? hv)]

/-- The steps that they come to are alike with a sound gradient again. -/
theorem steps_stay_alike (hcore : StatelessRule core) (hf : SoundGradient s.terms.smooth) (h : Alike core s t) :
    Outcome.Agree Eq (fun s t => Alike core s t ∧ SoundGradient s.terms.smooth) (s.step k) (t.step k) := by
  refine (step_agree hcore hf h).and_left fun s' hs' => ?_
  rw [(kept_of_step hs').smooth]
  exact hf

/-- A step that stops before the proximal map leaves a state that is alike, if the preconditioner remembers
    nothing. -/
theorem StopsAt.alike {stage : Stage} {e : Error} (h : StopsAt k s e stage t) (hstage : stage ≠ .proximal)
    (hcore : StatelessRule core) (hpre : StatelessPreconditioner π) : Alike core t s := by
  have hkept := h.kept
  cases h with
  | gradient hv => exact ⟨rfl, rfl, rfl, rfl, rfl, hkept.gradient, rfl⟩
  | preconditioner hraw hp hv hlen =>
    obtain rfl := hpre.kept (congrArg Outcome.state? hv)
    exact ⟨rfl, rfl, rfl, hp.symm, rfl, hkept.gradient, rfl⟩
  | rule hraw hp hlen hrule =>
    exact ⟨rfl, rfl, hcore.kept (congrArg Outcome.state? hrule), eq_of_preconditioned? hpre hp, rfl,
      hkept.gradient, rfl⟩
  | proximal hraw hp hlen hrule hforward hx => exact absurd rfl hstage

end Stepping

/-! ## What is seen of a method -/

section

variable [Scalar S] [StepRule ρ S]

/-- What a user can ask the state of a proximal gradient method for. -/
def Composite.seen (factor : S) (c : Composite S ρ π) : Vec S × Nat × Array S × Except Error S × Except Error Bool ×
    Option (Functional S) × Option (Functional S) :=
  (c.solution, c.iteration, c.losses, c.terms.stepSize, c.terms.isProvablyConvergent factor, c.terms.smooth,
    c.terms.proximable)

/-- What a user can ask the plain method for. -/
def Ista.seen (m : Ista S ρ π) : Vec S × Nat × Array S × Except Error S × Except Error Bool ×
    Option (Functional S) × Option (Functional S) :=
  m.state.seen stepFactor

/-- What a user can ask the accelerated method for: the same, and the momentum. -/
def Fista.seen (m : Fista S ρ π) : (Vec S × Nat × Array S × Except Error S × Except Error Bool ×
    Option (Functional S) × Option (Functional S)) × S :=
  (m.state.seen stepFactor, m.momentum)

/-- Whether the step is constant and provably convergent is known from the core of the rule. -/
theorem StatelessRule.terms_eq {core : StepChoice S ρ → κ} (hcore : StatelessRule core) {t t' : Terms S ρ π}
    (hsmooth : t.smooth = t'.smooth) (hrule : core t.rule = core t'.rule)
    (hpreconditioner : t.preconditioner = t'.preconditioner) (factor : S) :
    t.stepSize = t'.stepSize ∧ t.isProvablyConvergent factor = t'.isProvablyConvergent factor := by
  have hstep : t.stepSize = t'.stepSize := by rw [Terms.stepSize, Terms.stepSize, hcore.constant hrule]
  refine ⟨hstep, ?_⟩
  rw [Terms.isProvablyConvergent, Terms.isProvablyConvergent, hpreconditioner, hstep, hsmooth]

end

/-! ## Methods -/

variable [Scalar S]

/-- A record depends on the terms and on the solution only. -/
theorem Composite.record_agree {c d : Composite S ρ π} (hsmooth : c.terms.smooth = d.terms.smooth)
    (hproximable : c.terms.proximable = d.terms.proximable) (hsolution : c.solution = d.solution) :
    Outcome.Agree Eq (fun c' d' => ∃ v, c' = { c with losses := c.losses.push v } ∧
      d' = { d with losses := d.losses.push v }) c.recordObjective d.recordObjective := by
  have hobjective : d.terms.objective d.solution = c.terms.objective c.solution := by
    rw [Terms.objective, Terms.objective, hsmooth, hproximable, hsolution]
  rw [recordObjective, recordObjective, hobjective]
  cases c.terms.objective c.solution with
  | none => exact .mismatch
  | some v => exact .ok rfl ⟨v, rfl, rfl⟩

namespace Ista

/-- Plain methods whose next steps are alike, with the same losses after as many iterations. -/
structure Alike (core : StepChoice S ρ → κ) (m n : Ista S ρ π) : Prop where
  sound : SoundGradient m.state.terms.smooth
  stepping : Stepping.Alike core m.stepping n.stepping
  losses : m.state.losses = n.state.losses
  iteration : m.state.iteration = n.state.iteration

variable [StepRule ρ S] [Preconditioner π S] {core : StepChoice S ρ → κ}

/-- **Plain methods that are alike cannot be told apart.** -/
theorem indistinguishable (hcore : StatelessRule core) :
    Indistinguishable (seen (S := S) (ρ := ρ) (π := π)) unchangeable (Alike core) where
  view {m n} h := by
    obtain ⟨hstep, hconvergent⟩ :=
      hcore.terms_eq h.stepping.smooth h.stepping.rule h.stepping.preconditioner (stepFactor : S)
    have hsolution : m.state.solution = n.state.solution := h.stepping.point
    have hsmooth : m.state.terms.smooth = n.state.terms.smooth := h.stepping.smooth
    have hproximable : m.state.terms.proximable = n.state.terms.proximable := h.stepping.proximable
    rw [seen, seen, Composite.seen, Composite.seen, hsolution, h.iteration, h.losses, hsmooth, hproximable]
    exact congrArg₂ (fun a b => (_, _, _, a, b, _, _)) hstep hconvergent
  solution h := h.stepping.point
  iteration h := h.iteration
  update {m n} h := by
    have hsteps := Stepping.steps_stay_alike (k := m.state.iteration) hcore h.sound h.stepping
    show Outcome.Agree Eq (Alike core) m.update n.update
    rw [update_eq, update_eq, ← h.iteration]
    refine (hsteps.mapState (Q := Alike core) fun s t hst => ?_).bind (fun _ _ => id)
      fun _ _ _ _ _ hst => ?_
    · exact ⟨hst.2, hst.1, h.losses, h.iteration⟩
    · exact .ok rfl ⟨hst.sound, hst.stepping, hst.losses, congrArg (· + 1) hst.iteration⟩
  exchange h := ⟨h.sound, ⟨h.stepping.smooth, h.stepping.proximable, h.stepping.rule, h.stepping.preconditioner,
    h.stepping.out, h.stepping.gradient, h.stepping.point⟩, h.losses, h.iteration⟩
  record {m n} h := by
    refine (Composite.record_agree h.stepping.smooth h.stepping.proximable h.stepping.point).mapState ?_
    rintro _ _ ⟨v, rfl, rfl⟩
    exact ⟨h.sound, ⟨h.stepping.smooth, h.stepping.proximable, h.stepping.rule, h.stepping.preconditioner,
      h.stepping.point, h.stepping.gradient, h.stepping.out⟩, congrArg (·.push v) h.losses, h.iteration⟩
  change {_ _ c} _ := nomatch c

end Ista

namespace Fista

/-- Accelerated methods whose next steps are alike, with the same solution, momentum and losses after as many
    iterations. -/
structure Alike (core : StepChoice S ρ → κ) (m n : Fista S ρ π) : Prop where
  sound : SoundGradient m.state.terms.smooth
  stepping : Stepping.Alike core m.stepping n.stepping
  solution : m.state.solution = n.state.solution
  momentum : m.momentum = n.momentum
  losses : m.state.losses = n.state.losses
  iteration : m.state.iteration = n.state.iteration

variable {core : StepChoice S ρ → κ}

/-- The extrapolation does not look at the gradient nor at the terms. -/
theorem extrapolate_agree {m n : Fista S ρ π} (h : Alike core m n) :
    Outcome.Agree Eq (Alike core) m.extrapolate n.extrapolate := by
  obtain ⟨⟨terms, solution, next, gradient, losses, iteration⟩, ahead, momentum⟩ := m
  obtain ⟨⟨terms', _, _, gradient', _, _⟩, _, _⟩ := n
  obtain ⟨hsound, ⟨hsmooth, hproximable, hrule, hpreconditioner, hpoint, hgradient, hout⟩, hsolution, hmomentum,
    hlosses, hiteration⟩ := h
  cases hpoint
  cases hout
  cases hsolution
  cases hmomentum
  cases hlosses
  cases hiteration
  unfold extrapolate
  dsimp only
  generalize Option.bind _ _ = y
  cases y with
  | none => exact .mismatch
  | some y =>
    exact .ok rfl ⟨hsound, ⟨hsmooth, hproximable, hrule, hpreconditioner, rfl, hgradient, rfl⟩, rfl, rfl, rfl, rfl⟩

variable [StepRule ρ S] [Preconditioner π S]

/-- **Accelerated methods that are alike cannot be told apart.** -/
theorem indistinguishable (hcore : StatelessRule core) :
    Indistinguishable (seen (S := S) (ρ := ρ) (π := π)) unchangeable (Alike core) where
  view {m n} h := by
    obtain ⟨hstep, hconvergent⟩ :=
      hcore.terms_eq h.stepping.smooth h.stepping.rule h.stepping.preconditioner (stepFactor : S)
    have hsmooth : m.state.terms.smooth = n.state.terms.smooth := h.stepping.smooth
    have hproximable : m.state.terms.proximable = n.state.terms.proximable := h.stepping.proximable
    rw [seen, seen, Composite.seen, Composite.seen, h.solution, h.iteration, h.losses, hsmooth, hproximable,
      h.momentum]
    exact congrArg₂ (fun a b => ((_, _, _, a, b, _, _), _)) hstep hconvergent
  solution h := h.solution
  iteration h := h.iteration
  update {m n} h := by
    have hsteps := Stepping.steps_stay_alike (k := m.state.iteration) hcore h.sound h.stepping
    show Outcome.Agree Eq (Alike core) m.update n.update
    rw [update_eq, update_eq, ← h.iteration]
    refine (hsteps.mapState fun s t hst => ?_).bind (fun _ _ => id) fun _ _ _ _ _ hst =>
      extrapolate_agree hst
    exact ⟨hst.2, hst.1, h.solution, h.momentum, h.losses, h.iteration⟩
  exchange h := ⟨h.sound, ⟨h.stepping.smooth, h.stepping.proximable, h.stepping.rule, h.stepping.preconditioner,
    h.stepping.point, h.stepping.gradient, h.solution⟩, h.stepping.out, h.momentum, h.losses, h.iteration⟩
  record {m n} h := by
    refine (Composite.record_agree h.stepping.smooth h.stepping.proximable h.solution).mapState ?_
    rintro _ _ ⟨v, rfl, rfl⟩
    exact ⟨h.sound, ⟨h.stepping.smooth, h.stepping.proximable, h.stepping.rule, h.stepping.preconditioner,
      h.stepping.point, h.stepping.gradient, h.stepping.out⟩, h.solution, h.momentum, congrArg (·.push v) h.losses,
      h.iteration⟩
  change {_ _ c} _ := nomatch c

end Fista

/-! ## Trying again -/

section

variable [StepRule ρ S] [Preconditioner π S] {setup : Setup S ρ π} {e : Error} {stage : Stage} {s : Stepping S ρ π}
  {core : ρ → κ}

/-- A failure before the proximal map is not noticed. -/
theorem Ista.unnoticed_of_stopsAt {m : Ista S ρ π} (hsound : SoundGradient m.state.terms.smooth)
    (hstop : m.stepping.StopsAt m.state.iteration e stage s) (hstage : stage ≠ .proximal)
    (hcore : StatelessRule core) (hpre : StatelessPreconditioner π) :
    Unnoticed Ista.seen unchangeable m (m.after s) := by
  refine (Ista.indistinguishable hcore.choice).unnoticed ⟨?_, hstop.alike hstage hcore.choice hpre, rfl, rfl⟩
  show SoundGradient s.terms.smooth
  rw [hstop.kept.smooth]
  exact hsound

/-- A failure before the proximal map is not noticed. -/
theorem Fista.unnoticed_of_stopsAt {m : Fista S ρ π} (hsound : SoundGradient m.state.terms.smooth)
    (hstop : m.stepping.StopsAt m.state.iteration e stage s) (hstage : stage ≠ .proximal)
    (hcore : StatelessRule core) (hpre : StatelessPreconditioner π) :
    Unnoticed Fista.seen unchangeable m (m.after s) := by
  refine (Fista.indistinguishable hcore.choice).unnoticed
    ⟨?_, hstop.alike hstage hcore.choice hpre, rfl, rfl, rfl, rfl⟩
  show SoundGradient s.terms.smooth
  rw [hstop.kept.smooth]
  exact hsound

end

/-- **A failed update can be retried.** Take a setup whose smooth term overwrites its buffer or fails before it
    writes, a method that was built from it, and whatever state calls have led it to. An update that fails has
    completed no iteration and recorded nothing, and of the accelerated method it leaves the solution and the momentum
    alone. If it stops in the gradient, in the preconditioner or in the rule for the step, the point from which it
    started is where it was, which is the solution of the plain method; and if rule and preconditioner remember
    nothing, nobody can tell that the update was made. If it stops in the proximal map, that point has been moved to
    the forward point, and the buffer for the result is as it was unless the proximal map has written into it. -/
theorem failed_steps_can_be_retried [StepRule ρ S] [Preconditioner π S] {setup : Setup S ρ π}
    (hsound : SoundGradient setup.smooth) :
    (∀ {m₀ m m' : Ista S ρ π} {e : Error}, Ista.build setup = .ok m₀ → Used unchangeable m₀ m →
      m.update = .error e m' →
        m'.state.iteration = m.state.iteration ∧ m'.state.losses = m.state.losses ∧
        (∃ stage s, m.stepping.StopsAt m.state.iteration e stage s) ∧
        ∀ stage s, m.stepping.StopsAt m.state.iteration e stage s → m' = m.after s ∧
          (stage ≠ .proximal → m'.state.solution = m.state.solution ∧ m'.state.next = m.state.next ∧
            ∀ {κ : Type} {core : ρ → κ}, StatelessRule core → StatelessPreconditioner π →
              Unnoticed Ista.seen unchangeable m m') ∧
          (stage = .proximal → Stepping.Moved m.state.iteration m.stepping m'.stepping ∧
            ((∀ g ∈ setup.proximable, ∀ x tau, Spares (g.proximal x tau)) → m'.state.next = m.state.next))) ∧
      ∀ {m₀ m m' : Fista S ρ π} {e : Error}, Fista.build setup = .ok m₀ → Used unchangeable m₀ m →
        m.update = .error e m' →
        m'.state.iteration = m.state.iteration ∧ m'.state.losses = m.state.losses ∧ m'.momentum = m.momentum ∧
        m'.state.solution = m.state.solution ∧
        (∃ stage s, m.stepping.StopsAt m.state.iteration e stage s) ∧
        ∀ stage s, m.stepping.StopsAt m.state.iteration e stage s → m' = m.after s ∧
          (stage ≠ .proximal → m'.ahead = m.ahead ∧ m'.state.next = m.state.next ∧
            ∀ {κ : Type} {core : ρ → κ}, StatelessRule core → StatelessPreconditioner π →
              Unnoticed Fista.seen unchangeable m m') ∧
          (stage = .proximal → Stepping.Moved m.state.iteration m.stepping m'.stepping ∧
            ((∀ g ∈ setup.proximable, ∀ x tau, Spares (g.proximal x tau)) → m'.state.next = m.state.next)) := by
  constructor
  · intro m₀ m m' e hbuild hused h
    have hfits : Ista.Fits setup m := (Ista.fits_of_build hbuild).of_used hused
    have hsmooth : SoundGradient m.state.terms.smooth := hfits.terms.smooth ▸ hsound
    obtain ⟨stage₀, s₀, hstop₀, rfl⟩ := Ista.update_eq_error_iff.mp h
    refine ⟨rfl, rfl, ⟨stage₀, s₀, hstop₀⟩, fun stage s hstop => ?_⟩
    obtain ⟨-, hleft⟩ := Outcome.error.inj (h.symm.trans (Ista.update_eq_error_iff.mpr ⟨stage, s, hstop, rfl⟩))
    rw [hleft]
    refine ⟨rfl, fun hstage => ?_, ?_⟩
    · obtain ⟨hpoint, hout⟩ := hstop.eq_of_ne_proximal hstage
      refine ⟨hpoint, hout, ?_⟩
      intro κ core hcore hpre
      exact Ista.unnoticed_of_stopsAt hsmooth hstop hstage hcore hpre
    · rintro rfl
      refine ⟨hstop.moved (fun f hf => (hsmooth f hf _).1) (hfits.gradient.trans hfits.solution.symm), fun hg => ?_⟩
      exact hstop.out_eq fun g hmem => hg g (hfits.terms.proximable ▸ hmem)
  · intro m₀ m m' e hbuild hused h
    have hfits : Fista.Fits setup m := (Fista.fits_of_build hbuild).of_used hused
    have hsmooth : SoundGradient m.state.terms.smooth := hfits.terms.smooth ▸ hsound
    obtain ⟨stage₀, s₀, hstop₀, rfl⟩ := Fista.update_eq_error_iff.mp h
    refine ⟨rfl, rfl, rfl, rfl, ⟨stage₀, s₀, hstop₀⟩, fun stage s hstop => ?_⟩
    obtain ⟨-, hleft⟩ := Outcome.error.inj (h.symm.trans (Fista.update_eq_error_iff.mpr ⟨stage, s, hstop, rfl⟩))
    rw [hleft]
    refine ⟨rfl, fun hstage => ?_, ?_⟩
    · obtain ⟨hpoint, hout⟩ := hstop.eq_of_ne_proximal hstage
      refine ⟨hpoint, hout, ?_⟩
      intro κ core hcore hpre
      exact Fista.unnoticed_of_stopsAt hsmooth hstop hstage hcore hpre
    · rintro rfl
      refine ⟨hstop.moved (fun f hf => (hsmooth f hf _).1) (hfits.gradient.trans hfits.ahead.symm), fun hg => ?_⟩
      exact hstop.out_eq fun g hmem => hg g (hfits.terms.proximable ▸ hmem)

/-- The squared norm on the real line, with a search for the step that has no trial. -/
noncomputable def exhaustedOnTheLine (start : ℝ) : Setup ℝ (Armijo ℝ) (Sensitivity ℝ) :=
  { searchOnTheLine start with rule := some ((oneTrial []).withMaxTrials 0) }

/-- The plain method that belongs to it. -/
noncomputable def exhaustedMethod (start : ℝ) : Ista ℝ (Armijo ℝ) (Sensitivity ℝ) where
  state := ⟨⟨some SquaredDistance.unit.functional, none, .adaptive ((oneTrial []).withMaxTrials 0), none⟩,
    [start], [start], [start], #[], 0⟩

/-- The squared norm on the real line, and a least-squares term in place of one that has a proximal map. -/
noncomputable def unproximableOnTheLine (start : ℝ) : Setup ℝ (ConstantStep ℝ) (Sensitivity ℝ) :=
  { squareOnTheLine start with proximable := some (LeastSquares.functional ⟨.identity 1, [0], 1, 1⟩) }

/-- The accelerated method that belongs to it. -/
noncomputable def unproximableMethod (start : ℝ) : Fista ℝ (ConstantStep ℝ) (Sensitivity ℝ) where
  state := ⟨⟨some SquaredDistance.unit.functional, some (LeastSquares.functional ⟨.identity 1, [0], 1, 1⟩),
    .fixed ⟨1 / (1 + 1)⟩, none⟩, [start], [start], [start], #[], 0⟩
  ahead := [start]
  momentum := 1

theorem build_exhaustedOnTheLine (start : ℝ) :
    Ista.build (exhaustedOnTheLine start) = .ok (exhaustedMethod start) := by
  simp [Ista.build, Setup.build, Setup.choice, exhaustedOnTheLine, exhaustedMethod, searchOnTheLine, Functor.map,
    Except.map, bind, Except.bind, pure, Except.pure]

theorem build_unproximableOnTheLine (start : ℝ) :
    Fista.build (unproximableOnTheLine start) = .ok (unproximableMethod start) := by
  simp [Fista.build, Setup.build, Setup.choice, Setup.defaultStep, Fista.stepFactor, ConstantStep.of,
    unproximableOnTheLine, unproximableMethod, squareOnTheLine, SquaredDistance.functional, SquaredDistance.unit,
    Scalar.isFinite, bind, Except.bind, pure, Except.pure]

theorem gradientInto_unit_one (x out : ℝ) :
    SquaredDistance.unit.functional.gradientInto [x] [out] = (.ok () [2 * x] : Outcome (Vec ℝ) Unit) := by
  simp only [Functional.gradientInto, Functional.sameLength_eq_ok_iff, SquaredDistance.functional,
    Functional.overwrite_eq_ok_iff, SquaredDistance.gradient?, SquaredDistance.entries, SquaredDistance.unit]
  norm_num

/-- A step of this method stops at the proximal map, which its term does not have. -/
theorem stopsAt_unproximableMethod :
    ∃ s, (unproximableMethod 3).stepping.StopsAt (unproximableMethod 3).state.iteration (.unsupported "proximal")
      .proximal s ∧ s.point = [0] := by
  have hgradient : gradientOrZero (unproximableMethod 3).stepping.terms.smooth [3] [3] = .ok () [2 * 3] :=
    gradientInto_unit_one 3 3
  have hforward : Vec.zip? (fun x g : ℝ => x + -(1 / (1 + 1)) * g) [3] [2 * 3] = some [0] := by
    rw [Vec.zip?_eq_some_iff]
    refine ⟨rfl, ?_⟩
    norm_num
  exact ⟨_, .proximal hgradient rfl rfl rfl hforward rfl, rfl⟩

/-- A search that gives up leaves no trace but in the gradient buffer; a term without a proximal map leaves the point
    ahead at the minimum, and the solution and the buffer for the result at three. -/
theorem failed_steps_can_be_retried_on_the_line :
    (∃ m, (exhaustedMethod 3).update = .error (.stepSizeSearchFailed 0) m ∧ m.state.gradient = [2 * 3] ∧
      Unnoticed Ista.seen unchangeable (exhaustedMethod 3) m) ∧
    ∃ m, (unproximableMethod 3).update = .error (.unsupported "proximal") m ∧ m.ahead = [0] ∧
      m.state.solution = [3] ∧ m.momentum = 1 ∧ Stepping.Moved 0 (unproximableMethod 3).stepping m.stepping ∧
      m.state.next = [3] := by
  have hunit : SoundGradient (some (SquaredDistance.unit.functional : Functional ℝ)) := by
    rintro f ⟨⟩ x
    exact ⟨(SquaredDistance.overwrites _).gradient x, (SquaredDistance.sparing _).gradient x⟩
  constructor
  · have hgradient : gradientOrZero (exhaustedMethod 3).stepping.terms.smooth [3] [3] = .ok () [2 * 3] :=
      gradientInto_unit_one 3 3
    have hquery : StepRule.query (exhaustedMethod 3).stepping.terms.rule
        ⟨0, some SquaredDistance.unit.functional, [3], [2 * 3]⟩ =
        .error (.stepSizeSearchFailed 0) (.adaptive ((oneTrial [0]).withMaxTrials 0)) := by
      simp [StepRule.query, Ista.stepping, exhaustedMethod, Armijo.query, Armijo.search, Armijo.withMaxTrials,
        Armijo.resized, oneTrial, valueOrZero, value_unit_one, Vec.zeros]
    have hstop : (exhaustedMethod 3).stepping.StopsAt (exhaustedMethod 3).state.iteration
        (.stepSizeSearchFailed 0) .rule _ :=
      .rule hgradient rfl rfl hquery
    have hupdate : (exhaustedMethod 3).update = .error (.stepSizeSearchFailed 0) _ :=
      Ista.update_eq_error_iff.mpr ⟨.rule, _, hstop, rfl⟩
    obtain ⟨hretry, -⟩ := failed_steps_can_be_retried (show SoundGradient (exhaustedOnTheLine 3).smooth from hunit)
    obtain ⟨-, -, -, hstops⟩ := hretry (build_exhaustedOnTheLine 3) .start hupdate
    obtain ⟨-, hearly, -⟩ := hstops _ _ hstop
    obtain ⟨-, -, hunnoticed⟩ := hearly (by decide)
    exact ⟨_, hupdate, rfl, hunnoticed Armijo.stateless Sensitivity.stateless⟩
  · obtain ⟨s, hstop, hpoint⟩ := stopsAt_unproximableMethod
    have hupdate : (unproximableMethod 3).update = .error (.unsupported "proximal") _ :=
      Fista.update_eq_error_iff.mpr ⟨.proximal, s, hstop, rfl⟩
    obtain ⟨-, hretry⟩ := failed_steps_can_be_retried (show SoundGradient (unproximableOnTheLine 3).smooth from hunit)
    obtain ⟨-, -, hmomentum, hsolution, -, hstops⟩ := hretry (build_unproximableOnTheLine 3) .start hupdate
    obtain ⟨-, -, hlate⟩ := hstops _ _ hstop
    obtain ⟨hmoved, hkept⟩ := hlate rfl
    have hspares : ∀ g ∈ (unproximableOnTheLine 3).proximable, ∀ x tau, Spares (g.proximal x tau) := by
      rintro g ⟨⟩
      exact (LeastSquares.sparing _).proximal
    exact ⟨_, hupdate, hpoint, hsolution, hmomentum, hmoved, hkept hspares⟩

end Splitting
