import Splitting.ForwardBackward.Setup
import Splitting.Proofs.Buffers

/-!
# `Splitting.Proofs.ForwardBackward.Step` — what a forward-backward step computes

A step writes the gradient, the forward point and the result into buffers that earlier steps have used. If
the gradient of the smooth term and the proximal map of the other overwrite their buffers, the result is the
one that fresh buffers would give.

* `gradientOf?`, `proximalOf?` — the gradient and the proximal map of a term that may be absent;
* `preconditioned?` — the gradient after preconditioning;
* `Terms.advance?` — a forward-backward step without buffers;
* `Stepping.step_eq_ok_iff` — a step that succeeds, phase by phase;
* `Stepping.advance?_of_step` — a step that succeeds computes it;
* `Setup.terms_of_build` — the state before the first step.
-/

namespace Splitting

variable {S ρ π : Type} [Scalar S]

/-! ## Terms that may be absent -/

/-- The gradient of a term; zero if it is absent. -/
def gradientOf? (f : Option (Functional S)) (x : Vec S) : Option (Vec S) :=
  match f with
  | some f => f.gradientAt? x
  | none => some (Vec.zeros x.length)

/-- The proximal map of a term; the point itself if it is absent. -/
def proximalOf? (g : Option (Functional S)) (x : Vec S) (tau : S) : Option (Vec S) :=
  match g with
  | some g => g.proximal? x tau
  | none => some x

variable {f g : Option (Functional S)} {x out v : Vec S} {tau : S}

/-- Any buffer gives the gradient. -/
theorem gradientOf?_eq_some_iff (hf : ∀ f' ∈ f, ∀ x, Fills (f'.gradient x)) (hout : out.length = x.length) :
    gradientOf? f x = some v ↔ gradientOrZero f x out = .ok () v := by
  cases f with
  | some f => exact Functional.gradientAt?_eq_some_iff (hf f rfl x) hout
  | none => simp only [gradientOf?, gradientOrZero, hout, Option.some.injEq, Outcome.ok.injEq, true_and]

/-- Any buffer gives the proximal map. -/
theorem proximalOf?_eq_some_iff (hg : ∀ g' ∈ g, ∀ x tau, Fills (g'.proximal x tau))
    (hout : out.length = x.length) :
    proximalOf? g x tau = some v ↔ proximalOrIdentity g x tau out = .ok () v := by
  cases g with
  | some g => exact Functional.proximal?_eq_some_iff (hg g rfl x tau) hout
  | none =>
    simp only [proximalOf?, proximalOrIdentity, Functional.overwrite_eq_ok_iff, Vec.spread?_eq_self hout.symm,
      Option.some.injEq]
    constructor
    · rintro rfl
      exact ⟨rfl, hout.symm⟩
    · exact fun h => h.1

theorem length_of_gradientOrZero (h : gradientOrZero f x out = .ok () v) : v.length = out.length := by
  cases f with
  | some f => exact Functional.length_of_sameLength h
  | none =>
    cases h
    exact Vec.length_zeros _

omit [Scalar S] in
theorem length_of_proximalOrIdentity (h : proximalOrIdentity g x tau out = .ok () v) :
    v.length = out.length := by
  cases g with
  | some g => exact Functional.length_of_sameLength h
  | none => exact (Functional.overwrite_eq_ok_iff.mp h).2

/-! ## A step without buffers -/

/-- The gradient after preconditioning, which keeps its length, and the preconditioner after that. -/
def preconditioned? [Preconditioner π S] (iteration : Nat) (point gradient : Vec S) :
    Option π → Option (Option π × Vec S)
  | none => some (none, gradient)
  | some p =>
    ((Preconditioner.apply p ⟨iteration, point⟩ gradient).guard fun (_, g) =>
      g.length = gradient.length).success?.map fun (_, p, g) => (some p, g)

/-- **A forward-backward step** from `point`:

      `prox (a g) (point + (-a) · gradient)`

    with the preconditioned gradient of `f` at the point and the step `a` that the rule answers. Its value
    is the result, after the terms with the rule and the preconditioner as they are then. -/
def Terms.advance? [StepRule ρ S] [Preconditioner π S] (t : Terms S ρ π) (iteration : Nat) (point : Vec S) :
    Option (Terms S ρ π × Vec S) := do
  let (p, gradient) ← preconditioned? iteration point (← gradientOf? t.smooth point) t.preconditioner
  let (a, rule) ← (StepRule.query t.rule ⟨iteration, t.smooth, point, gradient⟩).success?
  let x ← proximalOf? t.proximable (← Vec.zip? (fun y g => y + -a * g) point gradient) a
  return ({ t with rule := rule, preconditioner := p }, x)

/-- A step leaves the terms themselves as they are. -/
theorem Terms.smooth_of_advance? [StepRule ρ S] [Preconditioner π S] {t t' : Terms S ρ π} {iteration : Nat}
    {point : Vec S} (h : t.advance? iteration point = some (t', x)) :
    t'.smooth = t.smooth ∧ t'.proximable = t.proximable := by
  simp only [advance?, Option.bind_eq_bind, Option.bind_eq_some_iff, Option.pure_def, Option.some.injEq,
    Prod.mk.injEq] at h
  obtain ⟨-, -, -, -, -, -, -, -, -, -, rfl, -⟩ := h
  exact ⟨rfl, rfl⟩

/-! ## The phases of a step -/

namespace Stepping

variable {s s' : Stepping S ρ π} {iteration : Nat}

theorem evaluate_eq_ok_iff : s.evaluate = .ok () s' ↔
    ∃ v, gradientOrZero s.terms.smooth s.point s.gradient = .ok () v ∧ { s with gradient := v } = s' :=
  Outcome.mapState_eq_ok_iff

omit [Scalar S] in
theorem precondition_eq_ok_iff [Preconditioner π S] : s.precondition iteration = .ok () s' ↔
    ∃ p v, preconditioned? iteration s.point s.gradient s.terms.preconditioner = some (p, v) ∧
      v.length = s.gradient.length ∧
      { s with terms := { s.terms with preconditioner := p }, gradient := v } = s' := by
  obtain ⟨⟨smooth, proximable, rule, p⟩, point, gradient, out⟩ := s
  cases p with
  | none =>
    constructor
    · intro h
      cases h
      exact ⟨none, gradient, rfl, rfl, rfl⟩
    · rintro ⟨p, v, hv, -, rfl⟩
      cases hv
      rfl
  | some p =>
    simp only [precondition, preconditioned?, Outcome.mapState_eq_ok_iff, Option.map_eq_some_iff]
    constructor
    · rintro ⟨⟨p', v⟩, hv, rfl⟩
      have hlen : v.length = gradient.length := of_decide_eq_true (Outcome.guard_eq_ok_iff.mp hv).2
      exact ⟨some p', v, ⟨((), p', v), Outcome.success?_eq_some_iff.mpr hv, rfl⟩, hlen, rfl⟩
    · rintro ⟨_, _, ⟨⟨⟨⟩, p', v⟩, hv, ⟨⟩⟩, -, rfl⟩
      exact ⟨(p', v), Outcome.success?_eq_some_iff.mp hv, rfl⟩

theorem forward_eq_ok_iff {a : S} : s.forward a = .ok () s' ↔
    ∃ v, Vec.zip? (fun x g => x + -a * g) s.point s.gradient = some v ∧ { s with point := v } = s' := by
  rw [forward, Outcome.put_eq_ok_iff, Option.map_eq_some_iff]

variable [StepRule ρ S] [Preconditioner π S] {a : S}

/-- **A step succeeds exactly when its five phases do,** one after another. -/
theorem step_eq_ok_iff : s.step iteration = .ok a s' ↔ ∃ raw p gradient rule forward x,
    gradientOrZero s.terms.smooth s.point s.gradient = .ok () raw ∧
    preconditioned? iteration s.point raw s.terms.preconditioner = some (p, gradient) ∧
    gradient.length = raw.length ∧
    StepRule.query s.terms.rule ⟨iteration, s.terms.smooth, s.point, gradient⟩ = .ok a rule ∧
    Vec.zip? (fun x g => x + -a * g) s.point gradient = some forward ∧
    proximalOrIdentity s.terms.proximable forward a s.out = .ok () x ∧
    s' = ⟨{ s.terms with rule := rule, preconditioner := p }, forward, gradient, x⟩ := by
  constructor
  · intro h
    obtain ⟨⟨⟩, s₁, h₁, h⟩ := Outcome.bind_eq_ok_iff.mp h
    obtain ⟨raw, hraw, rfl⟩ := evaluate_eq_ok_iff.mp h₁
    obtain ⟨⟨⟩, s₂, h₂, h⟩ := Outcome.bind_eq_ok_iff.mp h
    obtain ⟨p, gradient, hp, hlen, rfl⟩ := precondition_eq_ok_iff.mp h₂
    obtain ⟨a', s₃, h₃, h⟩ := Outcome.bind_eq_ok_iff.mp h
    obtain ⟨rule, hrule, rfl⟩ := Outcome.mapState_eq_ok_iff.mp h₃
    obtain ⟨⟨⟩, s₄, h₄, h⟩ := Outcome.bind_eq_ok_iff.mp h
    obtain ⟨forward, hforward, rfl⟩ := forward_eq_ok_iff.mp h₄
    obtain ⟨⟨⟩, h₅, rfl⟩ := Outcome.map_eq_ok_iff.mp h
    obtain ⟨x, hx, rfl⟩ := Outcome.mapState_eq_ok_iff.mp h₅
    exact ⟨raw, p, gradient, rule, forward, x, hraw, hp, hlen, hrule, hforward, hx, rfl⟩
  · rintro ⟨raw, p, gradient, rule, forward, x, hraw, hp, hlen, hrule, hforward, hx, rfl⟩
    refine Outcome.bind_eq_ok_iff.mpr ⟨(), _, evaluate_eq_ok_iff.mpr ⟨raw, hraw, rfl⟩, ?_⟩
    refine Outcome.bind_eq_ok_iff.mpr ⟨(), _, precondition_eq_ok_iff.mpr ⟨p, gradient, hp, hlen, rfl⟩, ?_⟩
    refine Outcome.bind_eq_ok_iff.mpr ⟨a, _, Outcome.mapState_eq_ok_iff.mpr ⟨rule, hrule, rfl⟩, ?_⟩
    refine Outcome.bind_eq_ok_iff.mpr ⟨(), _, forward_eq_ok_iff.mpr ⟨forward, hforward, rfl⟩, ?_⟩
    exact Outcome.map_eq_ok_iff.mpr ⟨(), Outcome.mapState_eq_ok_iff.mpr ⟨x, hx, rfl⟩, rfl⟩

/-- A step leaves the terms of the problem as they are. -/
theorem smooth_of_step (h : s.step iteration = .ok a s') :
    s'.terms.smooth = s.terms.smooth ∧ s'.terms.proximable = s.terms.proximable := by
  obtain ⟨raw, p, gradient, rule, forward, x, -, -, -, -, -, -, rfl⟩ := step_eq_ok_iff.mp h
  exact ⟨rfl, rfl⟩

/-- **A step that succeeds computes the result without buffers,** and leaves all buffers with their
    lengths. -/
theorem advance?_of_step (h : s.step iteration = .ok a s')
    (hf : ∀ f ∈ s.terms.smooth, ∀ x, Fills (f.gradient x))
    (hg : ∀ g ∈ s.terms.proximable, ∀ x tau, Fills (g.proximal x tau))
    (hgradient : s.gradient.length = s.point.length) (hout : s.out.length = s.point.length) :
    s.terms.advance? iteration s.point = some (s'.terms, s'.out) ∧ s'.point.length = s.point.length ∧
      s'.gradient.length = s.point.length ∧ s'.out.length = s.point.length := by
  obtain ⟨raw, p, gradient, rule, forward, x, hraw, hp, hlen, hrule, hforward, hx, rfl⟩ := step_eq_ok_iff.mp h
  have hforwardLength : forward.length = s.point.length := Vec.length_of_zip? hforward
  have hrawLength : raw.length = s.point.length := (length_of_gradientOrZero hraw).trans hgradient
  refine ⟨?_, hforwardLength, hlen.trans hrawLength, (length_of_proximalOrIdentity hx).trans hout⟩
  simp only [Terms.advance?, Option.bind_eq_bind, Option.bind_eq_some_iff, Option.pure_def, Option.some.injEq]
  refine ⟨raw, (gradientOf?_eq_some_iff hf hgradient).mpr hraw, (p, gradient), hp, (a, rule),
    Outcome.success?_eq_some_iff.mpr hrule, forward, hforward, x, ?_, rfl⟩
  exact (proximalOf?_eq_some_iff hg (hout.trans hforwardLength.symm)).mpr hx

end Stepping

omit [Scalar S] in
theorem Terms.stepSize_eq_ok_iff [StepRule ρ S] {t : Terms S ρ π} {a : S} :
    t.stepSize = .ok a ↔ StepRule.constant? t.rule = some a := by
  unfold stepSize
  cases StepRule.constant? t.rule <;> simp

/-- What `build` makes of a setup. -/
theorem Setup.terms_of_build {setup : Setup S ρ π} {factor : S} {c : Composite S ρ π}
    (h : setup.build factor = .ok c) : ∃ rule, setup.choice factor = .ok rule ∧
      c = ⟨⟨setup.smooth, setup.proximable, rule, setup.preconditioner⟩, setup.initial, setup.initial,
        setup.initial, #[], 0⟩ := by
  unfold build at h
  split at h
  · cases h
  · obtain ⟨rule, hrule, h⟩ := Except.bind_eq_ok_iff.mp h
    cases h
    exact ⟨rule, hrule, rfl⟩

end Splitting
