import Splitting.Proofs.ForwardBackward.Acceleration
import Splitting.Proofs.ForwardBackward.Recursion
import Splitting.Proofs.Iteration.Simulation

/-!
# `Splitting.Proofs.ForwardBackward.FailedSteps` — where a step stops, and what it has moved

A forward-backward step may fail in four places: in the gradient, in the preconditioner, in the rule for the step,
and in the proximal map. In the first three it has written into the gradient buffer only. In the last it has moved
the point it started from to the forward point, which is the solution of the plain method and the point ahead of the
accelerated one.

* `SoundGradient` — what is asked of the smooth term;
* `Stage`, `Stepping.StopsAt`, `Stepping.step_eq_error_iff` — the four places, and what a step leaves in each;
* `Stepping.Kept`, `Stepping.kept_of_step` — what every step keeps, completed or failed;
* `Ista.update_eq_error_iff`, `Fista.update_eq_error_iff` — a failed update is a failed step;
* `Ista.Fits`, `Ista.Fits.of_used`, `Fista.Fits`, `Fista.Fits.of_used` — the terms and lengths of a method in use.
-/

namespace Splitting

variable {S ρ π : Type} [Scalar S]

/-! ## The four places -/

/-- A part of a step that may fail. -/
inductive Stage where
  | gradient
  | preconditioner
  | rule
  | proximal
deriving DecidableEq

theorem fills_gradientOrZero {f : Option (Functional S)} {x : Vec S} (h : ∀ f' ∈ f, Fills (f'.gradient x)) :
    Fills (gradientOrZero f x) := by
  cases f with
  | some f => exact Functional.fills_sameLength (h f rfl)
  | none =>
    intro out out' v hl hv
    rw [gradientOrZero, hl]
    exact hv

theorem spares_gradientOrZero {f : Option (Functional S)} {x : Vec S} (h : ∀ f' ∈ f, Spares (f'.gradient x)) :
    Spares (gradientOrZero f x) := by
  cases f with
  | some f => exact Functional.spares_sameLength (h f rfl)
  | none => exact spares_of_ne_error fun _ _ _ hv => by cases hv

/-- The gradient of a term that may be absent overwrites its buffer, or fails before it writes. -/
def SoundGradient (f : Option (Functional S)) : Prop :=
  ∀ f' ∈ f, ∀ x, Fills (f'.gradient x) ∧ Spares (f'.gradient x)

theorem length_of_gradientOrZero_error {f : Option (Functional S)} {x out v : Vec S} {e : Error}
    (h : gradientOrZero f x out = .error e v) : v.length = out.length := by
  cases f with
  | some f => exact (Functional.sameLength_eq_error_iff.mp h).2
  | none => cases h

omit [Scalar S] in
theorem length_of_proximalOrIdentity_error {g : Option (Functional S)} {x out v : Vec S} {tau : S} {e : Error}
    (h : proximalOrIdentity g x tau out = .error e v) : v.length = out.length := by
  cases g with
  | some g => exact (Functional.sameLength_eq_error_iff.mp h).2
  | none => exact absurd h Outcome.put_ne_error

namespace Stepping

variable [StepRule ρ S] [Preconditioner π S]

/-- Where a step that fails with the error `e` stops, and what it leaves. Up to the rule for the step only the
    gradient buffer was written into; when the proximal map is asked for, the forward point is in place of the point. -/
inductive StopsAt (iteration : Nat) (s : Stepping S ρ π) (e : Error) : Stage → Stepping S ρ π → Prop where
  | gradient {v : Vec S} : gradientOrZero s.terms.smooth s.point s.gradient = .error e v →
      StopsAt iteration s e .gradient { s with gradient := v }
  | preconditioner {raw v : Vec S} {p p' : π} :
      gradientOrZero s.terms.smooth s.point s.gradient = .ok () raw → s.terms.preconditioner = some p →
      Preconditioner.apply p ⟨iteration, s.point⟩ raw = .error e (p', v) → v.length = raw.length →
      StopsAt iteration s e .preconditioner
        { s with terms := { s.terms with preconditioner := some p' }, gradient := v }
  | rule {raw gradient : Vec S} {p : Option π} {rule : StepChoice S ρ} :
      gradientOrZero s.terms.smooth s.point s.gradient = .ok () raw →
      preconditioned? iteration s.point raw s.terms.preconditioner = some (p, gradient) →
      gradient.length = raw.length →
      StepRule.query s.terms.rule ⟨iteration, s.terms.smooth, s.point, gradient⟩ = .error e rule →
      StopsAt iteration s e .rule
        { s with terms := { s.terms with rule := rule, preconditioner := p }, gradient := gradient }
  | proximal {raw gradient forward x : Vec S} {p : Option π} {rule : StepChoice S ρ} {a : S} :
      gradientOrZero s.terms.smooth s.point s.gradient = .ok () raw →
      preconditioned? iteration s.point raw s.terms.preconditioner = some (p, gradient) →
      gradient.length = raw.length →
      StepRule.query s.terms.rule ⟨iteration, s.terms.smooth, s.point, gradient⟩ = .ok a rule →
      Vec.zip? (fun x g => x + -a * g) s.point gradient = some forward →
      proximalOrIdentity s.terms.proximable forward a s.out = .error e x →
      StopsAt iteration s e .proximal ⟨{ s.terms with rule := rule, preconditioner := p }, forward, gradient, x⟩

variable {s s' : Stepping S ρ π} {iteration : Nat} {e : Error}

omit [Scalar S] [StepRule ρ S] in
theorem precondition_eq_error_iff : s.precondition iteration = .error e s' ↔
    ∃ p p' v, s.terms.preconditioner = some p ∧
      Preconditioner.apply p ⟨iteration, s.point⟩ s.gradient = .error e (p', v) ∧ v.length = s.gradient.length ∧
      s' = { s with terms := { s.terms with preconditioner := some p' }, gradient := v } := by
  unfold precondition
  cases hp : s.terms.preconditioner with
  | none => simp
  | some p =>
    simp only [Outcome.mapState_eq_error_iff, Outcome.guard_eq_error_iff, decide_eq_true_iff]
    constructor
    · rintro ⟨⟨p', v⟩, ⟨hv, hlen⟩, rfl⟩
      exact ⟨p, p', v, rfl, hv, hlen, rfl⟩
    · rintro ⟨_, p', v, ⟨⟩, hv, hlen, rfl⟩
      exact ⟨(p', v), ⟨hv, hlen⟩, rfl⟩

/-- **A step fails in one of the four places.** -/
theorem step_eq_error_iff : s.step iteration = .error e s' ↔ ∃ stage, StopsAt iteration s e stage s' := by
  constructor
  · intro h
    rcases Outcome.bind_eq_error_iff.mp h with h₁ | ⟨⟨⟩, s₁, h₁, h⟩
    · obtain ⟨v, hv, rfl⟩ := Outcome.mapState_eq_error_iff.mp h₁
      exact ⟨.gradient, .gradient hv⟩
    obtain ⟨raw, hraw, rfl⟩ := evaluate_eq_ok_iff.mp h₁
    rcases Outcome.bind_eq_error_iff.mp h with h₂ | ⟨⟨⟩, s₂, h₂, h⟩
    · obtain ⟨p, p', v, hp, hv, hlen, rfl⟩ := precondition_eq_error_iff.mp h₂
      exact ⟨.preconditioner, .preconditioner hraw hp hv hlen⟩
    obtain ⟨p, gradient, hp, hlen, rfl⟩ := precondition_eq_ok_iff.mp h₂
    rcases Outcome.bind_eq_error_iff.mp h with h₃ | ⟨a, s₃, h₃, h⟩
    · obtain ⟨rule, hrule, rfl⟩ := Outcome.mapState_eq_error_iff.mp h₃
      exact ⟨.rule, .rule hraw hp hlen hrule⟩
    obtain ⟨rule, hrule, rfl⟩ := Outcome.mapState_eq_ok_iff.mp h₃
    -- to move the point along the gradient cannot fail
    rcases Outcome.bind_eq_error_iff.mp h with h₄ | ⟨⟨⟩, s₄, h₄, h⟩
    · exact absurd h₄ Outcome.put_ne_error
    obtain ⟨forward, hforward, rfl⟩ := forward_eq_ok_iff.mp h₄
    obtain ⟨x, hx, rfl⟩ := Outcome.mapState_eq_error_iff.mp (Outcome.map_eq_error_iff.mp h)
    exact ⟨.proximal, .proximal hraw hp hlen hrule hforward hx⟩
  · rintro ⟨stage, hstop⟩
    cases hstop with
    | gradient hv => exact Outcome.bind_eq_error_iff.mpr (Or.inl (Outcome.mapState_eq_error_iff.mpr ⟨_, hv, rfl⟩))
    | preconditioner hraw hp hv hlen =>
      refine Outcome.bind_eq_error_iff.mpr (Or.inr ⟨(), _, evaluate_eq_ok_iff.mpr ⟨_, hraw, rfl⟩, ?_⟩)
      exact Outcome.bind_eq_error_iff.mpr (Or.inl (precondition_eq_error_iff.mpr ⟨_, _, _, hp, hv, hlen, rfl⟩))
    | rule hraw hp hlen hrule =>
      refine Outcome.bind_eq_error_iff.mpr (Or.inr ⟨(), _, evaluate_eq_ok_iff.mpr ⟨_, hraw, rfl⟩, ?_⟩)
      refine Outcome.bind_eq_error_iff.mpr (Or.inr ⟨(), _, precondition_eq_ok_iff.mpr ⟨_, _, hp, hlen, rfl⟩, ?_⟩)
      exact Outcome.bind_eq_error_iff.mpr (Or.inl (Outcome.mapState_eq_error_iff.mpr ⟨_, hrule, rfl⟩))
    | proximal hraw hp hlen hrule hforward hx =>
      refine Outcome.bind_eq_error_iff.mpr (Or.inr ⟨(), _, evaluate_eq_ok_iff.mpr ⟨_, hraw, rfl⟩, ?_⟩)
      refine Outcome.bind_eq_error_iff.mpr (Or.inr ⟨(), _, precondition_eq_ok_iff.mpr ⟨_, _, hp, hlen, rfl⟩, ?_⟩)
      refine Outcome.bind_eq_error_iff.mpr (Or.inr ⟨_, _, Outcome.mapState_eq_ok_iff.mpr ⟨_, hrule, rfl⟩, ?_⟩)
      refine Outcome.bind_eq_error_iff.mpr (Or.inr ⟨(), _, forward_eq_ok_iff.mpr ⟨_, hforward, rfl⟩, ?_⟩)
      exact Outcome.map_eq_error_iff.mpr (Outcome.mapState_eq_error_iff.mpr ⟨_, hx, rfl⟩)

/-- What a step keeps of its state, completed or failed: the two terms, and the lengths of the vectors. -/
structure Kept (s s' : Stepping S ρ π) : Prop where
  smooth : s'.terms.smooth = s.terms.smooth
  proximable : s'.terms.proximable = s.terms.proximable
  point : s'.point.length = s.point.length
  gradient : s'.gradient.length = s.gradient.length
  out : s'.out.length = s.out.length

theorem StopsAt.kept {stage : Stage} (h : StopsAt iteration s e stage s') : s.Kept s' := by
  cases h with
  | gradient hv => exact ⟨rfl, rfl, rfl, length_of_gradientOrZero_error hv, rfl⟩
  | preconditioner hraw hp hv hlen => exact ⟨rfl, rfl, rfl, hlen.trans (length_of_gradientOrZero hraw), rfl⟩
  | rule hraw hp hlen hrule => exact ⟨rfl, rfl, rfl, hlen.trans (length_of_gradientOrZero hraw), rfl⟩
  | proximal hraw hp hlen hrule hforward hx =>
    exact ⟨rfl, rfl, Vec.length_of_zip? hforward, hlen.trans (length_of_gradientOrZero hraw),
      length_of_proximalOrIdentity_error hx⟩

/-- **Every step keeps the terms and the lengths.** -/
theorem kept_of_step (h : (s.step iteration).state? = some s') : s.Kept s' := by
  rcases Outcome.state?_eq_some_iff.mp h with ⟨a, h⟩ | ⟨e, h⟩
  · obtain ⟨raw, p, gradient, rule, forward, x, hraw, -, hlen, -, hforward, hx, rfl⟩ := step_eq_ok_iff.mp h
    exact ⟨rfl, rfl, Vec.length_of_zip? hforward, hlen.trans (length_of_gradientOrZero hraw),
      length_of_proximalOrIdentity hx⟩
  · obtain ⟨stage, hstop⟩ := step_eq_error_iff.mp h
    exact hstop.kept

/-- Before the proximal map is asked for, a step has written into the gradient buffer only. -/
theorem StopsAt.eq_of_ne_proximal {stage : Stage} (h : StopsAt iteration s e stage s') (hstage : stage ≠ .proximal) :
    s'.point = s.point ∧ s'.out = s.out := by
  cases h with
  | gradient hv => exact ⟨rfl, rfl⟩
  | preconditioner hraw hp hv hlen => exact ⟨rfl, rfl⟩
  | rule hraw hp hlen hrule => exact ⟨rfl, rfl⟩
  | proximal hraw hp hlen hrule hforward hx => exact absurd rfl hstage

/-- The step has moved its point to the forward point `x - a · gradient`, along the gradient of the smooth term after
    preconditioning, and by the step `a` that the rule has answered. -/
def Moved (iteration : Nat) (s s' : Stepping S ρ π) : Prop :=
  ∃ raw p a rule, gradientOf? s.terms.smooth s.point = some raw ∧
    preconditioned? iteration s.point raw s.terms.preconditioner = some (p, s'.gradient) ∧
    StepRule.query s.terms.rule ⟨iteration, s.terms.smooth, s.point, s'.gradient⟩ = .ok a rule ∧
    s'.point = List.zipWith (fun x g => x + -a * g) s.point s'.gradient

/-- **When the proximal map fails, the point has been moved to the forward point.** -/
theorem StopsAt.moved (h : StopsAt iteration s e .proximal s')
    (hf : ∀ f ∈ s.terms.smooth, Fills (f.gradient s.point)) (hlen : s.gradient.length = s.point.length) :
    Moved iteration s s' := by
  cases h with
  | proximal hraw hp _ hrule hforward hx =>
    refine ⟨_, _, _, _, ?_, hp, hrule, (Vec.zip?_eq_some_iff.mp hforward).2.symm⟩
    cases hsmooth : s.terms.smooth with
    | some f =>
      rw [hsmooth] at hraw hf
      exact (Functional.gradientAt?_eq_some_iff (hf f rfl) hlen).mpr hraw
    | none =>
      rw [hsmooth] at hraw
      cases hraw
      rw [gradientOf?, hlen]

/-- A proximal map that fails before it writes leaves the buffer for the result alone. -/
theorem StopsAt.out_eq (h : StopsAt iteration s e .proximal s')
    (hg : ∀ g ∈ s.terms.proximable, ∀ x tau, Spares (g.proximal x tau)) : s'.out = s.out := by
  cases h with
  | proximal hraw hp hlen hrule hforward hx =>
    cases hproximable : s.terms.proximable with
    | some g =>
      rw [hproximable] at hx hg
      exact (Functional.spares_sameLength (hg g rfl _ _) rfl hx).1
    | none =>
      rw [hproximable] at hx
      exact absurd hx Outcome.put_ne_error

end Stepping

/-! ## Failed updates -/

variable [StepRule ρ S] [Preconditioner π S] {setup : Setup S ρ π} {e : Error}

namespace Ista

/-- The state from which the next step starts: at the solution, with the result in the buffer beside it. -/
def stepping (m : Ista S ρ π) : Stepping S ρ π :=
  ⟨m.state.terms, m.state.solution, m.state.gradient, m.state.next⟩

/-- The method with what a step has left. -/
def after (m : Ista S ρ π) (s : Stepping S ρ π) : Ista S ρ π :=
  ⟨{ m.state with terms := s.terms, solution := s.point, gradient := s.gradient, next := s.out }⟩

theorem update_eq (m : Ista S ρ π) : m.update = ((m.stepping.step m.state.iteration).mapState m.after).bind
    fun _ m => .ok () ⟨{ m.state with iteration := m.state.iteration + 1 }⟩ := rfl

variable {m m' m₀ : Ista S ρ π}

/-- **An update fails exactly when its step does.** -/
theorem update_eq_error_iff : m.update = .error e m' ↔
    ∃ stage s, m.stepping.StopsAt m.state.iteration e stage s ∧ m' = m.after s := by
  constructor
  · intro h
    rcases Outcome.bind_eq_error_iff.mp h with h | ⟨a, m₁, -, h⟩
    · obtain ⟨s, hs, rfl⟩ := Outcome.mapState_eq_error_iff.mp h
      obtain ⟨stage, hstop⟩ := Stepping.step_eq_error_iff.mp hs
      exact ⟨stage, s, hstop, rfl⟩
    · cases h
  · rintro ⟨stage, s, hstop, rfl⟩
    refine Outcome.bind_eq_error_iff.mpr (Or.inl (Outcome.mapState_eq_error_iff.mpr ⟨s, ?_, rfl⟩))
    exact Stepping.step_eq_error_iff.mpr ⟨stage, hstop⟩

/-- An update, completed or failed, leaves what its step leaves, and may count. -/
theorem exists_step_of_update (h : m.update.state? = some m') :
    ∃ s k, (m.stepping.step m.state.iteration).state? = some s ∧
      m' = ⟨{ (m.after s).state with iteration := k }⟩ := by
  rcases Outcome.state?_bind_eq_some_iff.mp h with ⟨e, hstep⟩ | ⟨a, m₁, hstep, h⟩
  · obtain ⟨s, hs, rfl⟩ := Outcome.mapState_eq_error_iff.mp hstep
    exact ⟨s, m.state.iteration, congrArg Outcome.state? hs, rfl⟩
  · obtain ⟨s, hs, rfl⟩ := Outcome.mapState_eq_ok_iff.mp hstep
    cases h
    exact ⟨s, m.state.iteration + 1, congrArg Outcome.state? hs, rfl⟩

/-- **What every step keeps of the terms, every call keeps.** -/
theorem terms_of_used {P : Terms S ρ π → Prop}
    (hstep : ∀ {k} {s s' : Stepping S ρ π}, P s.terms → (s.step k).state? = some s' → P s'.terms)
    (h : P m₀.state.terms) (hm : Used unchangeable m₀ m) : P m.state.terms := by
  induction hm with
  | start => exact h
  | @call m m' c _ hc ih =>
    cases c with
    | update =>
      obtain ⟨s, k, hs, rfl⟩ := exists_step_of_update hc
      exact hstep ih hs
    | exchange =>
      cases hc
      exact ih
    | recordObjective =>
      obtain ⟨losses, rfl⟩ := Ista.recordObjective_eq hc
      exact ih
    | change c => exact nomatch c

/-- The terms are those of the setup, and every vector is as long as the starting point. -/
structure Fits (setup : Setup S ρ π) (m : Ista S ρ π) : Prop where
  terms : m.state.terms.Of setup
  solution : m.state.solution.length = setup.initial.length
  next : m.state.next.length = setup.initial.length
  gradient : m.state.gradient.length = setup.initial.length

omit [StepRule ρ S] [Preconditioner π S] in
theorem fits_of_build (h : Ista.build setup = .ok m) : Fits setup m := by
  obtain ⟨c, hc, rfl⟩ := Except.map_eq_ok_iff.mp h
  obtain ⟨rule, -, rfl⟩ := Setup.terms_of_build hc
  exact ⟨⟨rfl, rfl⟩, rfl, rfl, rfl⟩

/-- **Every call keeps the terms and the lengths.** -/
theorem Fits.of_used (h : Fits setup m₀) (hm : Used unchangeable m₀ m) : Fits setup m := by
  induction hm with
  | start => exact h
  | @call m m' c _ hc ih =>
    cases c with
    | update =>
      obtain ⟨s, k, hstep, rfl⟩ := exists_step_of_update hc
      have hs := Stepping.kept_of_step hstep
      exact ⟨⟨hs.smooth.trans ih.terms.smooth, hs.proximable.trans ih.terms.proximable⟩, hs.point.trans ih.solution,
        hs.out.trans ih.next, hs.gradient.trans ih.gradient⟩
    | exchange =>
      cases hc
      exact ⟨ih.terms, ih.next, ih.solution, ih.gradient⟩
    | recordObjective =>
      obtain ⟨losses, rfl⟩ := Ista.recordObjective_eq hc
      exact ⟨ih.terms, ih.solution, ih.next, ih.gradient⟩
    | change c => exact nomatch c

end Ista

namespace Fista

/-- The state from which the next step starts: at the point ahead. -/
def stepping (m : Fista S ρ π) : Stepping S ρ π := ⟨m.state.terms, m.ahead, m.state.gradient, m.state.next⟩

/-- The method with what a step has left. -/
def after (m : Fista S ρ π) (s : Stepping S ρ π) : Fista S ρ π :=
  { m with state := { m.state with terms := s.terms, gradient := s.gradient, next := s.out }, ahead := s.point }

theorem update_eq (m : Fista S ρ π) : m.update = ((m.stepping.step m.state.iteration).mapState m.after).bind
    fun _ m => m.extrapolate := rfl

variable {m m' m₀ : Fista S ρ π}

/-- **An update fails exactly when its step does.** -/
theorem update_eq_error_iff : m.update = .error e m' ↔
    ∃ stage s, m.stepping.StopsAt m.state.iteration e stage s ∧ m' = m.after s := by
  constructor
  · intro h
    rcases Outcome.bind_eq_error_iff.mp h with h | ⟨a, m₁, -, h⟩
    · obtain ⟨s, hs, rfl⟩ := Outcome.mapState_eq_error_iff.mp h
      obtain ⟨stage, hstop⟩ := Stepping.step_eq_error_iff.mp hs
      exact ⟨stage, s, hstop, rfl⟩
    · exact absurd h Outcome.put_ne_error
  · rintro ⟨stage, s, hstop, rfl⟩
    refine Outcome.bind_eq_error_iff.mpr (Or.inl (Outcome.mapState_eq_error_iff.mpr ⟨s, ?_, rfl⟩))
    exact Stepping.step_eq_error_iff.mpr ⟨stage, hstop⟩

/-- An update, completed or failed, leaves what its step leaves, and may extrapolate and count. -/
theorem exists_step_of_update (h : m.update.state? = some m') :
    ∃ s y k t, (m.stepping.step m.state.iteration).state? = some s ∧ y.length = s.point.length ∧
      m' = ⟨{ (m.after s).state with iteration := k }, y, t⟩ := by
  rcases Outcome.state?_bind_eq_some_iff.mp h with ⟨e, hstep⟩ | ⟨a, m₁, hstep, h⟩
  · obtain ⟨s, hs, rfl⟩ := Outcome.mapState_eq_error_iff.mp hstep
    exact ⟨s, s.point, m.state.iteration, m.momentum, congrArg Outcome.state? hs, rfl, rfl⟩
  · obtain ⟨s, hs, rfl⟩ := Outcome.mapState_eq_ok_iff.mp hstep
    rcases Outcome.state?_eq_some_iff.mp h with ⟨⟨⟩, hextra⟩ | ⟨e, hextra⟩
    · obtain ⟨y, -, hy, rfl⟩ := extrapolate_eq_ok_iff.mp hextra
      exact ⟨s, y, m.state.iteration + 1, nextMomentum m.momentum, congrArg Outcome.state? hs, hy, rfl⟩
    · exact absurd hextra Outcome.put_ne_error

/-- **What every step keeps of the terms, every call keeps.** -/
theorem terms_of_used {P : Terms S ρ π → Prop}
    (hstep : ∀ {k} {s s' : Stepping S ρ π}, P s.terms → (s.step k).state? = some s' → P s'.terms)
    (h : P m₀.state.terms) (hm : Used unchangeable m₀ m) : P m.state.terms := by
  induction hm with
  | start => exact h
  | @call m m' c _ hc ih =>
    cases c with
    | update =>
      obtain ⟨s, y, k, t, hs, -, rfl⟩ := exists_step_of_update hc
      exact hstep ih hs
    | exchange =>
      cases hc
      exact ih
    | recordObjective =>
      obtain ⟨losses, rfl⟩ := Fista.recordObjective_eq hc
      exact ih
    | change c => exact nomatch c

/-- The terms are those of the setup, and the point ahead and the gradient are as long as the starting point. -/
structure Fits (setup : Setup S ρ π) (m : Fista S ρ π) : Prop where
  terms : m.state.terms.Of setup
  ahead : m.ahead.length = setup.initial.length
  gradient : m.state.gradient.length = setup.initial.length

omit [StepRule ρ S] [Preconditioner π S] in
theorem fits_of_build (h : Fista.build setup = .ok m) : Fits setup m := by
  obtain ⟨c, hc, h⟩ := Except.bind_eq_ok_iff.mp h
  obtain ⟨rule, -, rfl⟩ := Setup.terms_of_build hc
  cases h
  exact ⟨⟨rfl, rfl⟩, rfl, rfl⟩

/-- **Every call keeps the terms and the lengths.** -/
theorem Fits.of_used (h : Fits setup m₀) (hm : Used unchangeable m₀ m) : Fits setup m := by
  induction hm with
  | start => exact h
  | @call m m' c _ hc ih =>
    cases c with
    | update =>
      obtain ⟨s, y, k, t, hstep, hy, rfl⟩ := exists_step_of_update hc
      have hs := Stepping.kept_of_step hstep
      exact ⟨⟨hs.smooth.trans ih.terms.smooth, hs.proximable.trans ih.terms.proximable⟩,
        hy.trans (hs.point.trans ih.ahead), hs.gradient.trans ih.gradient⟩
    | exchange =>
      cases hc
      exact ⟨ih.terms, ih.ahead, ih.gradient⟩
    | recordObjective =>
      obtain ⟨losses, rfl⟩ := Fista.recordObjective_eq hc
      exact ⟨ih.terms, ih.ahead, ih.gradient⟩
    | change c => exact nomatch c

end Fista

end Splitting
