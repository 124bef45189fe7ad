import Splitting.Proofs.ForwardBackward.FailedSteps
import Splitting.Proofs.ForwardBackward.SquaredDistances
import Splitting.Proofs.Functional.OnPoints
import Splitting.Proofs.Operator.KnownNorms
import Splitting.StepSize.Armijo

/-!
# `Splitting.Proofs.ForwardBackward.EqualTerms` — one smooth term in place of another

A proximal gradient method asks its smooth term for values, gradients and a Lipschitz constant, at vectors as long as
the starting point. If two terms agree in these, then to put one in the place of the other commutes with whatever a
method does, in any arithmetic: with building it, with its updates and records, and so with all sessions and runs.

In exact arithmetic, least squares of the identity, least squares of a diagonal scaling by ones, and the closed form
of a squared distance are three such terms.

* `Functional.AgreeOn`, `FairRule` — terms that agree, and rules for the step that look at no more than that;
* `Stepping.step_withSmooth` — to change the term commutes with a step;
* `Setup.build_withSmooth`, `Ista.indistinguishable_withSmooth`, `Fista.indistinguishable_withSmooth` — with building,
  and with every call;
* `Interchangeable`, `Functional.AgreeOn.interchanges` — methods that fail to be built with the same error, or that
  nothing tells apart, and that terms that agree make them so;
* `SquaredMisfit` — three ways to write one term;
* `equal_terms_interchangeable` — the main statement.
-/

namespace Splitting

variable {A B S ρ π : Type}

/-! ## Terms that agree -/

/-- The functions have the same values and gradients at vectors of length `n`, and the same Lipschitz constant. -/
structure Functional.AgreeOn (n : Nat) (f f' : Functional S) : Prop where
  value : ∀ x : Vec S, x.length = n → f.value x = f'.value x
  gradient : ∀ x out : Vec S, x.length = n → out.length = n → f.gradientInto x out = f'.gradientInto x out
  lipschitz : f.lipschitz = f'.lipschitz

/-- A rule that looks at the smooth term only for its values, gradients and Lipschitz constant, at vectors as long as
    the point that it is asked about. It asks for no proximal map and no conjugate. -/
class FairRule (ρ : Type) {S : outParam Type} [StepRule ρ S] : Prop where
  query_congr : ∀ (r : ρ) (k : Nat) {f f' : Functional S} {x g : Vec S}, f.AgreeOn x.length f' →
    StepRule.query r ⟨k, some f, x, g⟩ = StepRule.query r ⟨k, some f', x, g⟩

instance : FairRule (ConstantStep S) where
  query_congr _ _ _ _ _ _ _ := rfl

instance [StepRule ρ S] [FairRule ρ] : FairRule (StepChoice S ρ) where
  query_congr choice k _ _ _ _ h := by
    cases choice with
    | fixed step => rfl
    | adaptive r => exact congrArg (Outcome.mapState StepChoice.adaptive) (FairRule.query_congr r k h)

namespace Armijo

variable [Scalar S]

/-- A search looks at values at trial points, which are as long as the point. -/
theorem search_congr {k : Nat} {f f' : Functional S} {x g : Vec S} (h : f.AgreeOn x.length f') (fx normSq beta : S)
    (n : Nat) (a : S) (trial : Vec S) :
    search ⟨k, some f, x, g⟩ fx normSq beta n a trial = search ⟨k, some f', x, g⟩ fx normSq beta n a trial := by
  induction n generalizing a trial with
  | zero => rfl
  | succ n ih =>
    have hpoint : trialPoint? ⟨k, some f', x, g⟩ a = trialPoint? ⟨k, some f, x, g⟩ a := rfl
    rw [search, search, hpoint]
    cases htrial : trialPoint? ⟨k, some f, x, g⟩ a with
    | none => rfl
    | some trial =>
      have hvalue : valueOrZero (some f) trial = valueOrZero (some f') trial :=
        h.value trial (Vec.length_of_zip? htrial)
      simp only [Option.bind_eq_bind, Option.bind_some, hvalue, ih]

instance : FairRule (Armijo S) where
  query_congr r k f f' x g h := by
    have hvalue : valueOrZero (some f) x = valueOrZero (some f') x := h.value x rfl
    simp only [StepRule.query, query, hvalue, search_congr h]

end Armijo

/-! ## Another term -/

/-- The setup with `f` as its smooth term. -/
def Setup.withSmooth (f : Functional S) (setup : Setup S ρ π) : Setup S ρ π := { setup with smooth := some f }

/-- The terms with `f` as the smooth one. -/
def Terms.withSmooth (f : Functional S) (t : Terms S ρ π) : Terms S ρ π := { t with smooth := some f }

/-- The step with `f` as its smooth term. -/
def Stepping.withSmooth (f : Functional S) (s : Stepping S ρ π) : Stepping S ρ π :=
  { s with terms := s.terms.withSmooth f }

/-- The state with `f` as its smooth term. -/
def Composite.withSmooth (f : Functional S) (c : Composite S ρ π) : Composite S ρ π :=
  { c with terms := c.terms.withSmooth f }

/-- The method with `f` as its smooth term. -/
def Ista.withSmooth (f : Functional S) (m : Ista S ρ π) : Ista S ρ π := ⟨m.state.withSmooth f⟩

/-- The method with `f` as its smooth term. -/
def Fista.withSmooth (f : Functional S) (m : Fista S ρ π) : Fista S ρ π := { m with state := m.state.withSmooth f }

section

variable [Scalar S] {f f' : Functional S} {n : Nat}

namespace Stepping

variable {s : Stepping S ρ π} {k : Nat}

theorem evaluate_withSmooth (h : f.AgreeOn n f') (hs : s.terms.smooth = some f) (hpoint : s.point.length = n)
    (hgradient : s.gradient.length = n) : (s.withSmooth f').evaluate = s.evaluate.mapState (withSmooth f') := by
  have hsame : gradientOrZero (s.withSmooth f').terms.smooth s.point s.gradient =
      gradientOrZero s.terms.smooth s.point s.gradient := by
    rw [hs]
    exact (h.gradient _ _ hpoint hgradient).symm
  show (gradientOrZero (s.withSmooth f').terms.smooth s.point s.gradient).mapState _ = _
  rw [hsame, evaluate, Outcome.mapState_mapState]
  rfl

omit [Scalar S] in
theorem precondition_withSmooth [Preconditioner π S] (s : Stepping S ρ π) :
    (s.withSmooth f').precondition k = (s.precondition k).mapState (withSmooth f') := by
  obtain ⟨⟨smooth, proximable, rule, preconditioner⟩, point, gradient, out⟩ := s
  cases preconditioner with
  | none => rfl
  | some p =>
    show Outcome.mapState _ _ = Outcome.mapState _ (Outcome.mapState _ _)
    rw [Outcome.mapState_mapState]
    rfl

omit [Scalar S] in
theorem chooseStep_withSmooth [StepRule ρ S] [FairRule ρ] (h : f.AgreeOn n f') (hs : s.terms.smooth = some f)
    (hpoint : s.point.length = n) : (s.withSmooth f').chooseStep k = (s.chooseStep k).mapState (withSmooth f') := by
  have hsame : StepRule.query s.terms.rule ⟨k, some f', s.point, s.gradient⟩ =
      StepRule.query s.terms.rule ⟨k, s.terms.smooth, s.point, s.gradient⟩ := by
    rw [hs]
    exact (FairRule.query_congr s.terms.rule k (hpoint ▸ h)).symm
  show (StepRule.query s.terms.rule ⟨k, some f', s.point, s.gradient⟩).mapState _ = _
  rw [hsame, chooseStep, Outcome.mapState_mapState]
  rfl

theorem forward_withSmooth (a : S) (s : Stepping S ρ π) :
    (s.withSmooth f').forward a = (s.forward a).mapState (withSmooth f') := by
  simp only [forward, withSmooth]
  cases Vec.zip? (fun x g => x + -a * g) s.point s.gradient <;> rfl

omit [Scalar S] in
theorem backward_withSmooth (a : S) (s : Stepping S ρ π) :
    (s.withSmooth f').backward a = (s.backward a).mapState (withSmooth f') := by
  rw [backward, backward, Outcome.mapState_mapState]
  rfl

/-- **To change the term commutes with a step,** phase by phase. -/
theorem step_withSmooth [StepRule ρ S] [Preconditioner π S] [FairRule ρ] (h : f.AgreeOn n f')
    (hs : s.terms.smooth = some f) (hpoint : s.point.length = n) (hgradient : s.gradient.length = n) :
    (s.withSmooth f').step k = (s.step k).mapState (withSmooth f') := by
  unfold step
  rw [evaluate_withSmooth h hs hpoint hgradient]
  refine Outcome.bind_mapState fun _ s₁ h₁ => ?_
  rw [precondition_withSmooth]
  refine Outcome.bind_mapState fun _ s₂ h₂ => ?_
  -- neither phase has touched the term or the point
  have hsame : s₂.terms.smooth = some f ∧ s₂.point.length = n := by
    obtain ⟨raw, -, rfl⟩ := evaluate_eq_ok_iff.mp h₁
    obtain ⟨p, gradient, -, -, rfl⟩ := precondition_eq_ok_iff.mp h₂
    exact ⟨hs, hpoint⟩
  rw [chooseStep_withSmooth h hsame.1 hsame.2]
  refine Outcome.bind_mapState fun a s₃ _ => ?_
  rw [forward_withSmooth]
  refine Outcome.bind_mapState fun _ s₄ _ => ?_
  rw [backward_withSmooth]
  cases s₄.backward a <;> rfl

end Stepping

/-! ## Methods -/

/-- The smooth term is `f`, and every vector has the length `n`. -/
structure Composite.Sized (f : Functional S) (n : Nat) (c : Composite S ρ π) : Prop where
  smooth : c.terms.smooth = some f
  solution : c.solution.length = n
  next : c.next.length = n
  gradient : c.gradient.length = n

omit [Scalar S] in
theorem Composite.Sized.exchange {c : Composite S ρ π} (h : c.Sized f n) : c.exchange.Sized f n :=
  ⟨h.smooth, h.next, h.solution, h.gradient⟩

/-- To change the term commutes with a record. -/
theorem Composite.recordObjective_withSmooth {c : Composite S ρ π} (h : f.AgreeOn n f') (hc : c.Sized f n) :
    (c.withSmooth f').recordObjective = c.recordObjective.mapState (withSmooth f') := by
  have hobjective : (c.withSmooth f').terms.objective c.solution = c.terms.objective c.solution := by
    have hvalue : valueOrZero (some f') c.solution = valueOrZero c.terms.smooth c.solution := by
      rw [hc.smooth]
      exact (h.value _ hc.solution).symm
    show (do let v ← valueOrZero (some f') c.solution; _) = _
    rw [hvalue]
    rfl
  show Outcome.put (((c.withSmooth f').terms.objective c.solution).map _) = _
  rw [hobjective, recordObjective]
  cases c.terms.objective c.solution <;> rfl

/-- What is answered about convergence depends on the Lipschitz constant of the term only. -/
theorem Terms.isProvablyConvergent_withSmooth [StepRule ρ S] {t : Terms S ρ π} (h : f.AgreeOn n f')
    (ht : t.smooth = some f) (factor : S) :
    (t.withSmooth f').isProvablyConvergent factor = t.isProvablyConvergent factor := by
  have hstep : (t.withSmooth f').stepSize = t.stepSize := rfl
  rw [isProvablyConvergent, isProvablyConvergent, hstep, ht]
  simp only [withSmooth, h.lipschitz]

/-- **To change the term commutes with building.** -/
theorem Setup.build_withSmooth {setup : Setup S ρ π} (h : f.AgreeOn n f') (factor : S) :
    (setup.withSmooth f').build factor = Composite.withSmooth f' <$> (setup.withSmooth f).build factor := by
  have hchoice : (setup.withSmooth f').choice factor = (setup.withSmooth f).choice factor := by
    simp only [choice, withSmooth, defaultStep, h.lipschitz]
  have hpresent : ∀ g : Functional S,
      ¬((setup.withSmooth g).smooth.isNone ∧ (setup.withSmooth g).proximable.isNone) := by
    rintro g ⟨hnone, -⟩
    cases hnone
  rw [build, build, if_neg (hpresent f'), if_neg (hpresent f), hchoice]
  cases (setup.withSmooth f).choice factor <;> rfl

theorem Setup.sized_of_build {setup : Setup S ρ π} {factor : S} {c : Composite S ρ π}
    (h : (setup.withSmooth f).build factor = .ok c) (hn : setup.initial.length = n) : c.Sized f n := by
  obtain ⟨rule, -, rfl⟩ := terms_of_build h
  exact ⟨rfl, hn, hn, hn⟩

variable [StepRule ρ S] [Preconditioner π S]

namespace Ista

omit [Preconditioner π S] in
/-- All of a method but its smooth term, and what it answers about its step. -/
def besidesSmooth (m : Ista S ρ π) : Ista S ρ π × Except Error S × Except Error Bool :=
  (⟨{ m.state with terms := { m.state.terms with smooth := none } }⟩, m.stepSize, m.isProvablyConvergent)

variable {m m' : Ista S ρ π}

theorem sized_of_update (h : m.state.Sized f n) (hu : m.update.state? = some m') : m'.state.Sized f n := by
  obtain ⟨s, k, hs, rfl⟩ := exists_step_of_update hu
  have hkept := Stepping.kept_of_step hs
  exact ⟨hkept.smooth.trans h.smooth, hkept.point.trans h.solution, hkept.out.trans h.next,
    hkept.gradient.trans h.gradient⟩

theorem update_withSmooth [FairRule ρ] (h : f.AgreeOn n f') (hm : m.state.Sized f n) :
    (m.withSmooth f').update = m.update.mapState (withSmooth f') := by
  have hstepping : (m.withSmooth f').stepping = m.stepping.withSmooth f' := rfl
  rw [update_eq, update_eq, hstepping, Stepping.step_withSmooth h hm.smooth hm.solution hm.gradient]
  show (((m.stepping.step m.state.iteration).mapState _).mapState _).bind _ = _
  cases m.stepping.step m.state.iteration <;> rfl

theorem record_withSmooth (h : f.AgreeOn n f') (hm : m.state.Sized f n) :
    Iterative.recordObjective (m.withSmooth f') = (Iterative.recordObjective m).mapState (withSmooth f') := by
  show (m.state.withSmooth f').recordObjective.mapState _ = (m.state.recordObjective.mapState _).mapState _
  rw [Composite.recordObjective_withSmooth h hm]
  cases m.state.recordObjective <;> rfl

/-- **Nothing tells the plain method from the one with the other term.** -/
theorem indistinguishable_withSmooth [FairRule ρ] (h : f.AgreeOn n f') :
    Indistinguishable (besidesSmooth (S := S) (ρ := ρ) (π := π)) unchangeable fun m m' =>
      m.state.Sized f n ∧ m' = m.withSmooth f' where
  view := by
    rintro m _ ⟨hm, rfl⟩
    exact congrArg (fun b => (_, _, b)) (Terms.isProvablyConvergent_withSmooth h hm.smooth stepFactor).symm
  solution := by
    rintro m _ ⟨-, rfl⟩
    rfl
  iteration := by
    rintro m _ ⟨-, rfl⟩
    rfl
  update := by
    rintro m _ ⟨hm, rfl⟩
    show Outcome.Agree Eq _ m.update (m.withSmooth f').update
    rw [update_withSmooth h hm]
    exact .of_mapState fun m' hu => ⟨sized_of_update hm hu, rfl⟩
  exchange := by
    rintro m _ ⟨hm, rfl⟩
    exact ⟨hm.exchange, rfl⟩
  record := by
    rintro m _ ⟨hm, rfl⟩
    rw [record_withSmooth h hm]
    refine .of_mapState fun m' ho => ⟨?_, rfl⟩
    obtain ⟨losses, rfl⟩ := Ista.recordObjective_eq ho
    exact ⟨hm.smooth, hm.solution, hm.next, hm.gradient⟩
  change {_ _ c} _ := nomatch c

end Ista

namespace Fista

omit [Preconditioner π S] in
/-- All of a method but its smooth term, and what it answers about its step. -/
def besidesSmooth (m : Fista S ρ π) : Fista S ρ π × Except Error S × Except Error Bool :=
  ({ m with state := { m.state with terms := { m.state.terms with smooth := none } } }, m.stepSize,
    m.isProvablyConvergent)

variable {m m' : Fista S ρ π}

theorem sized_of_update (h : m.state.Sized f n) (hahead : m.ahead.length = n) (hu : m.update.state? = some m') :
    m'.state.Sized f n ∧ m'.ahead.length = n := by
  obtain ⟨s, y, k, t, hs, hy, rfl⟩ := exists_step_of_update hu
  have hkept := Stepping.kept_of_step hs
  exact ⟨⟨hkept.smooth.trans h.smooth, h.solution, hkept.out.trans h.next, hkept.gradient.trans h.gradient⟩,
    hy.trans (hkept.point.trans hahead)⟩

omit [StepRule ρ S] [Preconditioner π S] in
theorem extrapolate_withSmooth (m : Fista S ρ π) :
    (m.withSmooth f').extrapolate = m.extrapolate.mapState (withSmooth f') := by
  simp only [extrapolate, withSmooth, Composite.withSmooth]
  generalize Option.bind _ _ = y
  cases y <;> rfl

theorem update_withSmooth [FairRule ρ] (h : f.AgreeOn n f') (hm : m.state.Sized f n) (hahead : m.ahead.length = n) :
    (m.withSmooth f').update = m.update.mapState (withSmooth f') := by
  have hstepping : (m.withSmooth f').stepping = m.stepping.withSmooth f' := rfl
  rw [update_eq, update_eq, hstepping, Stepping.step_withSmooth h hm.smooth hahead hm.gradient]
  have hafter : ((m.stepping.step m.state.iteration).mapState (Stepping.withSmooth f')).mapState
      (m.withSmooth f').after = ((m.stepping.step m.state.iteration).mapState m.after).mapState (withSmooth f') := by
    cases m.stepping.step m.state.iteration <;> rfl
  exact (congrArg (Outcome.bind · _) hafter).trans (Outcome.bind_mapState fun _ m₁ _ => extrapolate_withSmooth m₁)

theorem record_withSmooth (h : f.AgreeOn n f') (hm : m.state.Sized f n) :
    Iterative.recordObjective (m.withSmooth f') = (Iterative.recordObjective m).mapState (withSmooth f') := by
  obtain ⟨c, ahead, momentum⟩ := m
  show (c.withSmooth f').recordObjective.mapState _ = (c.recordObjective.mapState _).mapState _
  rw [Composite.recordObjective_withSmooth h hm]
  cases c.recordObjective <;> rfl

/-- **Nothing tells the accelerated method from the one with the other term.** -/
theorem indistinguishable_withSmooth [FairRule ρ] (h : f.AgreeOn n f') :
    Indistinguishable (besidesSmooth (S := S) (ρ := ρ) (π := π)) unchangeable fun m m' =>
      (m.state.Sized f n ∧ m.ahead.length = n) ∧ m' = m.withSmooth f' where
  view := by
    rintro m _ ⟨⟨hm, -⟩, rfl⟩
    exact congrArg (fun b => (_, _, b)) (Terms.isProvablyConvergent_withSmooth h hm.smooth stepFactor).symm
  solution := by
    rintro m _ ⟨-, rfl⟩
    rfl
  iteration := by
    rintro m _ ⟨-, rfl⟩
    rfl
  update := by
    rintro m _ ⟨⟨hm, hahead⟩, rfl⟩
    show Outcome.Agree Eq _ m.update (m.withSmooth f').update
    rw [update_withSmooth h hm hahead]
    exact .of_mapState fun m' hu => ⟨sized_of_update hm hahead hu, rfl⟩
  exchange := by
    rintro m _ ⟨⟨hm, hahead⟩, rfl⟩
    exact ⟨⟨hm.exchange, hahead⟩, rfl⟩
  record := by
    rintro m _ ⟨⟨hm, hahead⟩, rfl⟩
    rw [record_withSmooth h hm]
    refine .of_mapState fun m' ho => ⟨?_, rfl⟩
    obtain ⟨losses, rfl⟩ := Fista.recordObjective_eq ho
    exact ⟨⟨hm.smooth, hm.solution, hm.next, hm.gradient⟩, hahead⟩
  change {_ _ c} _ := nomatch c

end Fista

omit [Scalar S] [StepRule ρ S] [Preconditioner π S] in
/-- Methods that fail to be built with the same error, or that are built and that nothing tells apart: they look the
    same, every session answers the same, and every run ends the same and shows the same. -/
inductive Interchangeable [Iterative A S] (view : A → B) : Except Error A → Except Error A → Prop where
  | failed (e : Error) : Interchangeable view (.error e) (.error e)
  | built {m m' : A} : Unnoticed view unchangeable m' m → Interchangeable view (.ok m) (.ok m')

omit [Scalar S] [StepRule ρ S] [Preconditioner π S] in
/-- If one of the two methods is built, so is the other, and nothing tells them apart. -/
theorem Interchangeable.exists_of_ok [Iterative A S] {view : A → B} {m' : A} {built : Except Error A}
    (h : Interchangeable view built (.ok m')) : ∃ m, built = .ok m ∧ Unnoticed view unchangeable m' m := by
  cases h with
  | built h => exact ⟨_, rfl, h⟩

/-- Methods of both kinds, built with `f` or with `f'` as the smooth term of a setup, are interchangeable. -/
structure Setup.Interchanges (setup : Setup S ρ π) (f f' : Functional S) : Prop where
  ista : Interchangeable Ista.besidesSmooth (Ista.build (setup.withSmooth f)) (Ista.build (setup.withSmooth f'))
  fista : Interchangeable Fista.besidesSmooth (Fista.build (setup.withSmooth f)) (Fista.build (setup.withSmooth f'))

/-- **Terms that agree can be exchanged,** in any arithmetic. -/
theorem Functional.AgreeOn.interchanges [FairRule ρ] (h : f.AgreeOn n f') {setup : Setup S ρ π}
    (hn : setup.initial.length = n) : setup.Interchanges f f' := by
  constructor
  · rw [Ista.build, Ista.build, Setup.build_withSmooth h]
    cases hbuild : (setup.withSmooth f).build (Ista.stepFactor : S) with
    | error e => exact .failed e
    | ok c => exact .built ((Ista.indistinguishable_withSmooth h).unnoticed ⟨Setup.sized_of_build hbuild hn, rfl⟩)
  · rw [Fista.build, Fista.build, Setup.build_withSmooth h]
    cases hbuild : (setup.withSmooth f).build (Fista.stepFactor : S) with
    | error e => exact .failed e
    | ok c =>
      have hsized := Setup.sized_of_build hbuild hn
      exact .built ((Fista.indistinguishable_withSmooth h).unnoticed ⟨⟨hsized, hsized.solution⟩, rfl⟩)

end

/-! ## Three ways to write one term -/

/-- Ways to write the term `c ‖x - b‖²`. -/
inductive SquaredMisfit where
  /-- Least squares of the identity. -/
  | identity
  /-- Least squares of a diagonal scaling by ones. -/
  | ones
  /-- The closed form. -/
  | closed

namespace SquaredMisfit

/-- The term for data `b` of length `n`. -/
def functional? {W : Type} [Scalar S] [Scalar W] [Precision S W] (n : Nat) (b : Vec S) (c : S) :
    SquaredMisfit → Option (Functional S)
  | identity => LeastSquares.functional <$> LeastSquares.of? (.identity n) b c
  | ones => LeastSquares.functional <$> LeastSquares.of? (.diagonal (List.replicate n 1)) b c
  | closed => some (SquaredDistance.functional ⟨c, some b⟩)

/-- The identity computes the identity. -/
theorem computes_identity (n : ℕ) :
    (LinearOperator.identity n : LinearOperator ℝ).Computes (fun x : Space n => x) fun x => x := by
  have hcopy : ∀ (x : Space n) (out : Vec ℝ), out.length = n →
      (Vec.spread? out.length (Vec.ofPoint x)).bind out.write? = some (Vec.ofPoint x) := by
    intro x out hout
    rw [Vec.spread?_eq_self ((Vec.length_ofPoint x).trans hout.symm)]
    exact Vec.write?_eq_some_iff.mpr ⟨(Vec.length_ofPoint x).trans hout.symm, rfl⟩
  exact ⟨rfl, rfl, hcopy, hcopy⟩

/-- So does the scaling by ones. -/
theorem computes_ones (n : ℕ) : (LinearOperator.diagonal (List.replicate n 1) : LinearOperator ℝ).Computes
    (fun x : Space n => x) fun x => x := by
  have hcopy : ∀ (x : Space n) (out : Vec ℝ), out.length = n →
      (LinearOperator.scaleEntries (List.replicate n 1) (Vec.ofPoint x) out).bind out.write? =
        some (Vec.ofPoint x) := by
    intro x out hout
    have hones : List.replicate n (1 : ℝ) = Vec.ofPoint (WithLp.toLp 2 fun _ : Fin n => (1 : ℝ)) :=
      (List.ofFn_const n 1).symm
    have hproduct : Vec.zip? (· * ·) (List.replicate n (1 : ℝ)) (Vec.ofPoint x) = some (Vec.ofPoint x) := by
      rw [hones]
      exact Vec.zip?_ofPoint fun i => (one_mul (x i)).symm
    have hwrite : out.write? (Vec.ofPoint x) = some (Vec.ofPoint x) :=
      Vec.write?_eq_some_iff.mpr ⟨(Vec.length_ofPoint x).trans hout.symm, rfl⟩
    simp only [LinearOperator.scaleEntries, hproduct, hwrite, Option.bind_eq_bind, Option.bind_some]
  exact ⟨List.length_replicate, List.length_replicate, hcopy, hcopy⟩

/-- The largest magnitude among some ones is one. -/
theorem norm?_ones {n : ℕ} (hn : 1 ≤ n) :
    (LinearOperator.diagonal (List.replicate n 1) : LinearOperator ℝ).norm? = some 1 := by
  obtain ⟨m, hm, -, hattained⟩ := LinearOperator.knownNorm_diagonal (List.replicate n 1)
  have hne : List.replicate n (1 : ℝ) ≠ [] := List.ne_nil_of_length_pos (hn.trans_eq List.length_replicate.symm)
  obtain ⟨a, ha, habs⟩ := hattained hne
  rw [List.eq_of_mem_replicate ha, abs_one] at habs
  rw [LinearOperator.norm?, hm, habs]

/-- Least squares of an operator that computes the identity, and has the norm one. -/
theorem exists_leastSquares {n : ℕ} {op : LinearOperator ℝ} (hop : op.Computes (fun x : Space n => x) fun x => x)
    (hnorm : op.norm? = some 1) (b : Space n) (c : ℝ) :
    ∃ f, LeastSquares.functional <$> LeastSquares.of? op (Vec.ofPoint b) c = some f ∧ f.lipschitz = some (c + c) ∧
      ComputesSmooth (some f) (fun x : Space n => c * ‖x - b‖ ^ 2) fun x => (c + c) • (x - b) := by
  have hdata : Vec.spread? n (Vec.ofPoint b) = some (Vec.ofPoint b) := Vec.spread?_eq_self (Vec.length_ofPoint b)
  obtain ⟨f, hf, hlipschitz, hcomputes⟩ := SmoothTerm.leastSquares_of_norm hop hnorm hdata c
  rw [mul_one, mul_one] at hlipschitz
  exact ⟨f, hf, hlipschitz, hcomputes⟩

/-- **Each way computes the term,** with the same Lipschitz constant. -/
theorem exists_functional (form : SquaredMisfit) {n : ℕ} (hn : 1 ≤ n) (b : Space n) (c : ℝ) :
    ∃ f, form.functional? n (Vec.ofPoint b) c = some f ∧ f.lipschitz = some (c + c) ∧
      ComputesSmooth (some f) (fun x : Space n => c * ‖x - b‖ ^ 2) fun x => (c + c) • (x - b) := by
  cases form with
  | identity => exact exists_leastSquares (computes_identity n) rfl b c
  | ones => exact exists_leastSquares (computes_ones n) (norm?_ones hn) b c
  | closed => exact ⟨_, rfl, rfl, (SquaredDistance.centeredAt_ofPoint c b).computesSmooth⟩

/-- **They agree** at vectors of the length of the data. -/
theorem agreeOn {form form' : SquaredMisfit} {n : ℕ} {b : Vec ℝ} {c : ℝ} {f f' : Functional ℝ} (hn : 1 ≤ n)
    (hb : b.length = n) (hf : form.functional? n b c = some f) (hf' : form'.functional? n b c = some f') :
    f.AgreeOn n f' := by
  obtain ⟨b, rfl⟩ := Vec.exists_ofPoint hb
  obtain ⟨g, hg, hlipschitz, hcomputes⟩ := form.exists_functional hn b c
  obtain ⟨g', hg', hlipschitz', hcomputes'⟩ := form'.exists_functional hn b c
  obtain rfl := Option.some.inj (hf.symm.trans hg)
  obtain rfl := Option.some.inj (hf'.symm.trans hg')
  refine ⟨fun x hx => ?_, fun x out hx hout => ?_, hlipschitz.trans hlipschitz'.symm⟩
  · obtain ⟨x, rfl⟩ := Vec.exists_ofPoint hx
    exact (hcomputes.value x).trans (hcomputes'.value x).symm
  · obtain ⟨x, rfl⟩ := Vec.exists_ofPoint hx
    exact (hcomputes.gradient x out hout).trans (hcomputes'.gradient x out hout).symm

end SquaredMisfit

/-- **Three ways to write one term are interchangeable,** in exact arithmetic. For data `b` of some length `n ≥ 1` and
    any scale `c`, all three give a function with the Lipschitz constant `2 c`, and with the value `c ‖x - b‖²` and
    the gradient `2 c (x - b)` at every vector of that length. So with the same starting point of that length and the
    same other options, methods that are built on any two of them fail to be built with the same error, or else
    nothing tells them apart but the term itself.

    A rule for the step may look at the term, and it has to be a fair one: least squares has no proximal map, and the
    closed form has one. -/
theorem equal_terms_interchangeable [StepRule ρ ℝ] [Preconditioner π ℝ] [FairRule ρ] {n : ℕ} {b : Vec ℝ} (hn : 1 ≤ n)
    (hb : b.length = n) (c : ℝ) :
    (∀ form : SquaredMisfit, ∃ f, form.functional? n b c = some f ∧ f.lipschitz = some (2 * c) ∧
      ∀ x : Vec ℝ, x.length = n → f.value x = some (c * Vec.distance x b ^ 2) ∧
        ∀ out : Vec ℝ, out.length = n →
          f.gradientInto x out = .ok () (List.zipWith (fun v w => 2 * c * (v - w)) x b)) ∧
    ∀ {form form' : SquaredMisfit} {f f' : Functional ℝ}, form.functional? n b c = some f →
      form'.functional? n b c = some f' → ∀ setup : Setup ℝ ρ π, setup.initial.length = n →
        setup.Interchanges f f' := by
  constructor
  · intro form
    obtain ⟨b, rfl⟩ := Vec.exists_ofPoint hb
    obtain ⟨f, hf, hlipschitz, hcomputes⟩ := form.exists_functional hn b c
    refine ⟨f, hf, hlipschitz.trans (congrArg some (two_mul c).symm), fun x hx => ?_⟩
    obtain ⟨x, rfl⟩ := Vec.exists_ofPoint hx
    refine ⟨?_, fun out hout => ?_⟩
    · rw [Vec.distance_ofPoint]
      exact hcomputes.value x
    · have hgradient : List.zipWith (fun v w => 2 * c * (v - w)) (Vec.ofPoint x) (Vec.ofPoint b) =
          Vec.ofPoint ((c + c) • (x - b)) :=
        Vec.zipWith_ofPoint fun i => congrArg (· * (x i - b i)) (two_mul c).symm
      rw [hgradient]
      exact hcomputes.gradient x out hout
  · intro form form' f f' hf hf' setup hsetup
    exact (SquaredMisfit.agreeOn hn hb hf hf').interchanges hsetup

/-- A one-norm, with nothing said about the step and with no smooth term yet. -/
noncomputable def lassoFrom (start : Vec ℝ) : Setup ℝ (Armijo ℝ) (Sensitivity ℝ) where
  initial := start
  smooth := none
  proximable := some (OneNorm.functional ⟨1⟩)
  stepSize := none
  rule := none
  preconditioner := none

theorem convexData_lassoFrom : ((lassoFrom [4, 5]).withSmooth (SquaredDistance.functional ⟨3, some [1, -2]⟩)).ConvexData
    (some (.squaredDistance ⟨3, some [1, -2]⟩)) (some (.oneNorm ⟨1⟩)) := by
  refine ⟨rfl, rfl, ?_, ?_⟩
  · rintro t ⟨⟩
    refine ⟨three_pos, ?_⟩
    rintro b ⟨⟩
    rfl
  · rintro t ⟨⟩
    exact ⟨zero_le_one, trivial⟩

theorem objective_lassoFrom (v w : ℝ) :
    ((lassoFrom [4, 5]).withSmooth (SquaredDistance.functional ⟨3, some [1, -2]⟩)).objective [v, w] =
      some (3 * ((v - 1) ^ 2 + (w + 2) ^ 2) + (|v| + |w|)) := by
  simp [Setup.objective, Setup.withSmooth, lassoFrom, valueOrZero, SquaredDistance.functional, SquaredDistance.value?,
    SquaredDistance.distanceSq?, Vec.zip?, Vec.sum_eq_sum, OneNorm.functional, OneNorm.value, Functional.ofProximal,
    pow_two]

/-- With the closed form the accelerated method is built, and after three iterations is at the minimiser, which is the
    centre thresholded by a sixth. -/
theorem run_lassoFrom : ∃ (m : Fista ℝ (Armijo ℝ) (Sensitivity ℝ))
      (r : Run (Fista ℝ (Armijo ℝ) (Sensitivity ℝ)) Unit ℝ),
    Fista.build ((lassoFrom [4, 5]).withSmooth (SquaredDistance.functional ⟨3, some [1, -2]⟩)) = .ok m ∧
      run m 3 1 Watcher.never () = .ok 3 r ∧ Iterative.solution r.method = [5 / 6, -(11 / 6)] := by
  obtain ⟨p, L, b, hL, hconvex, hradial, hobjective, hbuilds⟩ := convexData_lassoFrom.exists_radial ⟨rfl, rfl⟩ rfl
  obtain ⟨z, hz, hunique⟩ := hconvex.existsUnique_isMinimiser hradial hL
  have hleast := Setup.leastAt_ofPoint hobjective hz hunique
  obtain ⟨m, hbuild, -, hruns⟩ := Fista.exists_arrivesAtOnce hL hconvex hradial hobjective hbuilds hz
  have hbest : [5 / 6, -(11 / 6)] = Vec.ofPoint z := by
    obtain ⟨v, w, hvw⟩ := List.length_eq_two.mp hleast.length
    have hvalue := hleast.value
    rw [hvw, objective_lassoFrom, Option.some.injEq] at hvalue
    refine hleast.eq_of_le rfl (objective_lassoFrom (5 / 6) (-(11 / 6))) ?_
    -- both sides differ by three times two squares, up to the signs of `v` and `w`
    rw [← hvalue, abs_neg, abs_of_pos (by norm_num : (0 : ℝ) < 5 / 6), abs_of_pos (by norm_num : (0 : ℝ) < 11 / 6)]
    linarith [sq_nonneg (v - 5 / 6), sq_nonneg (w + 11 / 6), le_abs_self v, neg_le_abs w]
  obtain ⟨q, -, hstart⟩ := Fista.at_of_build hbuild
  obtain ⟨k, r, hrun, -, hk, hsolution, -⟩ := hruns .start 3 1 Watcher.never ()
  obtain rfl : k = 3 := (hk fun _ _ _ => rfl).trans (congrArg (· + 3) hstart.iteration)
  exact ⟨m, r, hbuild, hrun, (hsolution (by norm_num)).trans hbest.symm⟩

/-- Three times the squared distance to `(1, -2)`, in two ways: methods built on them end all runs alike. The
    accelerated one is built on either, and three iterations from `(4, 5)` take both to the same point. -/
theorem equal_terms_interchangeable_on_the_plane :
    ∃ (f f' : Functional ℝ) (m m' : Fista ℝ (Armijo ℝ) (Sensitivity ℝ))
      (r r' : Run (Fista ℝ (Armijo ℝ) (Sensitivity ℝ)) Unit ℝ), SquaredMisfit.ones.functional? 2 [1, -2] 3 = some f ∧
      SquaredMisfit.closed.functional? 2 [1, -2] 3 = some f' ∧ f.lipschitz = some (2 * 3) ∧
      f'.lipschitz = some (2 * 3) ∧ (lassoFrom [4, 5]).Interchanges f f' ∧
      Fista.build ((lassoFrom [4, 5]).withSmooth f) = .ok m ∧
      Fista.build ((lassoFrom [4, 5]).withSmooth f') = .ok m' ∧
      run m 3 1 Watcher.never () = .ok 3 r ∧ run m' 3 1 Watcher.never () = .ok 3 r' ∧
      Iterative.solution r.method = [5 / 6, -(11 / 6)] ∧ Iterative.solution r'.method = [5 / 6, -(11 / 6)] := by
  obtain ⟨hterms, hmethods⟩ := equal_terms_interchangeable (ρ := Armijo ℝ) (π := Sensitivity ℝ) one_le_two
    (rfl : ([1, -2] : Vec ℝ).length = 2) 3
  obtain ⟨f, hf, hlipschitz, -⟩ := hterms .ones
  obtain ⟨f', hf', hlipschitz', -⟩ := hterms .closed
  have hinterchanges := hmethods hf hf' (lassoFrom [4, 5]) rfl
  obtain rfl : SquaredDistance.functional ⟨3, some [1, -2]⟩ = f' := Option.some.inj hf'
  obtain ⟨m', r', hbuild', hrun', hsolution'⟩ := run_lassoFrom
  obtain ⟨m, hbuild, hsame⟩ := (hbuild' ▸ hinterchanges.fista).exists_of_ok
  obtain ⟨r, hrun, hlooks⟩ := hsame.run_ok hrun'
  have hsolution : Iterative.solution r.method = Iterative.solution r'.method :=
    congrArg (fun v => v.1.state.solution) hlooks
  exact ⟨f, _, m, m', r, r', hf, hf', hlipschitz, hlipschitz', hinterchanges, hbuild, hbuild', hrun, hrun',
    hsolution.trans hsolution', hsolution'⟩

end Splitting
