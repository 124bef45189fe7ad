import Splitting.Proofs.Operator.GivenNorms
import Splitting.Proofs.PrimalDual.DerivedSteps
import Splitting.Proofs.PrimalDual.Representation
import Splitting.Proofs.Rounding

/-!
# `Splitting.Proofs.PrimalDual.StepChanges` — changing the steps changes the steps only

New steps are computed in full before any of them is put in place. So a change that is refused leaves the method as it
was, wherever the computation stopped, and one that succeeds moves nothing but the steps. The primal step that it
leaves is positive if it was given, or derived with the usual margin. With a trade-off and a margin of one's own it is
a product with the quotient of the two, which is positive too in exact arithmetic; in rounded arithmetic the quotient
may come out as zero.

* `KeepsFloor` — what the usual margin relies on; `KeepsFloor ℝ`, `KeepsFloor Float`, `KeepsFloor Float32`;
* `PrimalDual.floor_lt_leastRatio` — the least ratio is above the floor, in any such arithmetic;
* `PrimalDual.tau_pos_of_resolveSteps` — the primal step of any valid data is positive;
* `Spdhg.DiffersInSteps`, `Spdhg.differsInSteps_of_withSteps` — what a change of the steps leaves alone;
* `configuration_changes_are_atomic` — the main statement;
* `steps_from_ratio_leave_zero` — a quotient that comes out as zero.
-/

namespace Splitting

variable {S W σ : Type}

/-! ## The usual margin -/

open PrimalDual in
/-- What positive primal steps rely on: the lesser of two numbers is one of them, the usual margin is above the floor
    of the ratios, and the product of two numbers above the floor is positive. -/
class KeepsFloor (S : Type) [Scalar S] : Prop where
  min_eq : ∀ a b : S, Scalar.min a b = a ∨ Scalar.min a b = b
  floor_lt_margin : ratioFloor < (margin / tradeOff : S)
  product_pos : ∀ {a b : S}, ratioFloor < a → ratioFloor < b → 0 < a * b

theorem zero_lt_ratioFloor : (0 : ℝ) < PrimalDual.ratioFloor := by
  show (0 : ℝ) < 1e-8
  norm_num

instance : KeepsFloor ℝ where
  min_eq a b := min_choice a b
  floor_lt_margin := by
    show (1e-8 : ℝ) < 0.99 / 1
    norm_num
  product_pos ha hb := mul_pos (zero_lt_ratioFloor.trans ha) (zero_lt_ratioFloor.trans hb)

open Float.Model.UnpackedFloat in
instance : KeepsFloor Float where
  min_eq a b := (ite_eq_or_eq _ b a).symm
  floor_lt_margin := by decide
  product_pos ha hb := by
    have hfloor : (PrimalDual.ratioFloor : Float).toModel.unpack =
        finite .positive 6044629098073146 (-79) (by decide) := rfl
    exact float_mul_pos hfloor hfloor (by decide) ha hb

open Float.Model.UnpackedFloat in
instance : KeepsFloor Float32 where
  min_eq a b := (ite_eq_or_eq _ b a).symm
  floor_lt_margin := by decide
  product_pos ha hb := by
    have hfloor : (PrimalDual.ratioFloor : Float32).toModel.unpack =
        finite .positive 11258999 (-50) (by decide) := rfl
    exact float32_mul_pos hfloor hfloor (by decide) ha hb

namespace PrimalDual

variable [Scalar S] {blocks : List (DualScale S)} {sigma : List S} {gamma rho r : S} {steps : List S × S}

theorem foldl_min_mem [KeepsFloor S] (r : S) (rs : List S) : rs.foldl Scalar.min r ∈ r :: rs := by
  induction rs generalizing r with
  | nil => exact List.mem_singleton_self r
  | cons a rs ih =>
    rcases List.mem_cons.mp (ih (Scalar.min r a)) with h | h
    · rw [List.foldl_cons, h]
      rcases KeepsFloor.min_eq r a with hmin | hmin
      · rw [hmin]
        exact List.mem_cons_self
      · rw [hmin]
        exact List.mem_cons_of_mem r List.mem_cons_self
    · exact List.mem_cons_of_mem r (List.mem_cons_of_mem a h)

/-- **The least ratio is above the floor.** -/
theorem floor_lt_leastRatio [KeepsFloor S] (h : leastRatio? blocks sigma = some r) : ratioFloor < r := by
  unfold leastRatio? at h
  cases hlimiting : (List.zipWith ratio blocks sigma).filter fun r => ratioFloor < r with
  | nil =>
    rw [hlimiting] at h
    cases h
  | cons a rs =>
    rw [hlimiting] at h
    cases h
    have hmem := hlimiting ▸ foldl_min_mem a rs
    exact of_decide_eq_true (List.mem_filter.mp hmem).2

/-- The primal step is given and positive, or derived with the usual margin. -/
theorem resolveSteps_primal {given : Option (List S)} {tau : Option S}
    (h : resolveSteps blocks given tau = .ok steps) :
    (tau = some steps.2 ∧ 0 < steps.2) ∨ primalStep tradeOff margin blocks steps.1 = .ok steps.2 := by
  unfold resolveSteps at h
  cases tau with
  | some t =>
    obtain ⟨⟨⟩, hpos, h⟩ := Except.bind_eq_ok_iff.mp h
    obtain ⟨s, -, h⟩ := Except.bind_eq_ok_iff.mp h
    cases h
    exact Or.inl ⟨rfl, requirePositive_eq_ok_iff.mp hpos⟩
  | none =>
    obtain ⟨⟨⟩, -, h⟩ := Except.bind_eq_ok_iff.mp h
    obtain ⟨s, -, h⟩ := Except.bind_eq_ok_iff.mp h
    obtain ⟨t, ht, h⟩ := Except.bind_eq_ok_iff.mp h
    cases h
    exact Or.inr ht

/-- **The primal step is positive,** given or derived. -/
theorem tau_pos_of_resolveSteps [KeepsFloor S] {given : Option (List S)} {tau : Option S}
    (h : resolveSteps blocks given tau = .ok steps) : 0 < steps.2 := by
  rcases resolveSteps_primal h with ⟨-, hpos⟩ | hderived
  · exact hpos
  · obtain ⟨r, hr, htau⟩ := primalStep_eq_ok_iff.mp hderived
    rw [htau]
    exact KeepsFloor.product_pos KeepsFloor.floor_lt_margin (floor_lt_leastRatio hr)

/-- With a trade-off and a margin of one's own, the primal step is a product with their quotient. -/
theorem tau_of_stepsFromRatio [KeepsFloor S] (h : stepsFromRatio blocks gamma rho = .ok steps) :
    0 < gamma ∧ 0 < rho ∧ ∃ r, leastRatio? blocks steps.1 = some r ∧ ratioFloor < r ∧
      steps.2 = rho / gamma * r := by
  obtain ⟨hgamma, hrho, -, hprimal⟩ := stepsFromRatio_eq_ok h
  obtain ⟨r, hr, htau⟩ := primalStep_eq_ok_iff.mp hprimal
  exact ⟨hgamma, hrho, r, hr, floor_lt_leastRatio hr, htau⟩

end PrimalDual

/-! ## What a change of the steps leaves alone -/

/-- A block without its step. -/
def DualBlock.stepless (b : DualBlock S) :
    Functional S × LinearOperator S × S × S × Vec S × Vec S × Vec S :=
  (b.term, b.operator, b.weight, b.norm, b.dual, b.spare, b.image)

namespace Spdhg

/-- Two states of a method that differ in their steps, and in nothing else. -/
structure DiffersInSteps (m m' : Spdhg S σ) : Prop where
  x : m'.x = m.x
  duals : m'.duals = m.duals
  z : m'.z = m.z
  zbar : m'.zbar = m.zbar
  losses : m'.losses = m.losses
  iteration : m'.iteration = m.iteration
  norms : m'.norms = m.norms
  weights : m'.weights = m.weights
  source : m'.source = m.source
  blocks : m'.blocks.map DualBlock.stepless = m.blocks.map DualBlock.stepless
  rest : m' = { m with blocks := m'.blocks, tau := m'.tau }

/-- **New steps, one for each block,** leave everything else alone. -/
theorem differsInSteps_of_withSteps {m : Spdhg S σ} {steps : List S × S} (hlen : steps.1.length = m.blocks.length) :
    m.DiffersInSteps (m.withSteps steps) where
  x := rfl
  duals := map_blocks_withSteps (fun _ _ => rfl) hlen
  z := rfl
  zbar := rfl
  losses := rfl
  iteration := rfl
  norms := map_blocks_withSteps (fun _ _ => rfl) hlen
  weights := map_blocks_withSteps (fun _ _ => rfl) hlen
  source := rfl
  blocks := map_blocks_withSteps (fun _ _ => rfl) hlen
  rest := rfl

/-- **A change of the steps is refused as a whole, or made as a whole.** -/
theorem change_cases {m : Spdhg S σ} {c : Except Error (List S × S)}
    (hc : ∀ steps, c = .ok steps → steps.1.length = m.scales.length) :
    (∃ e, m.changeOrKeep (m.withSteps <$> c) = .error e m) ∨
      ∃ m', m.changeOrKeep (m.withSteps <$> c) = .ok () m' ∧ m.DiffersInSteps m' ∧ c = .ok (m'.sigma, m'.tau) := by
  cases hsteps : c with
  | error e => exact Or.inl ⟨e, rfl⟩
  | ok steps =>
    have hlen := (hc steps hsteps).trans m.length_scales
    refine Or.inr ⟨m.withSteps steps, rfl, differsInSteps_of_withSteps hlen, ?_⟩
    rw [sigma_withSteps hlen]
    rfl

variable [Scalar S] [KeepsFloor S]

/-- **Steps that are replaced,** given or derived. -/
theorem setStepSizes_cases [IndexSource σ W] (m : Spdhg S σ) (sigma : Option (List S)) (tau : Option S) :
    (∃ e, m.perform (.setStepSizes sigma tau) = .error e m) ∨
      ∃ m', m.perform (.setStepSizes sigma tau) = .ok () m' ∧ m.DiffersInSteps m' ∧ 0 < m'.tau := by
  rcases change_cases (m := m) fun _ => PrimalDual.length_of_resolveSteps with hrefused | ⟨m', hm', hrest, hsteps⟩
  · exact Or.inl hrefused
  · exact Or.inr ⟨m', hm', hrest, PrimalDual.tau_pos_of_resolveSteps hsteps⟩

/-- **Steps of a trade-off and a margin.** -/
theorem setStepSizesFromRatio_cases [IndexSource σ W] (m : Spdhg S σ) (gamma rho : S) :
    (∃ e, m.perform (.setStepSizesFromRatio gamma rho) = .error e m) ∨
      ∃ m', m.perform (.setStepSizesFromRatio gamma rho) = .ok () m' ∧ m.DiffersInSteps m' ∧ 0 < gamma ∧ 0 < rho ∧
        ∃ r, PrimalDual.leastRatio? m.scales m'.sigma = some r ∧ PrimalDual.ratioFloor < r ∧
          m'.tau = rho / gamma * r := by
  rcases change_cases (m := m) fun _ => PrimalDual.length_of_stepsFromRatio with hrefused | ⟨m', hm', hrest, hsteps⟩
  · exact Or.inl hrefused
  · exact Or.inr ⟨m', hm', hrest, PrimalDual.tau_of_stepsFromRatio hsteps⟩

end Spdhg

open OperatorStack in
/-- **Norms and steps are changed as a whole or not at all.**

    A stack of operators answers, after any calls that give and read norms, with the list that was accepted last, or
    else with the norms of its operators; the list has one entry for each of them. It can be read if some list was
    accepted, or if the operators without a known norm respond. A list that has another length, or an entry that is
    negative or not a number, is refused, and leaves the stack as it was.

    A primal-dual method that was built, and to which any calls were made, refuses new steps and stays as it was, or
    takes them and differs from before in its steps only, of which there is one dual one for each block. The primal
    step is then positive. If it is derived from a trade-off and a margin of one's own, it is the product of their
    quotient and the least ratio, and positive if the quotient is above the floor of the ratios, as the ratio is; in
    exact arithmetic it is always positive. -/
theorem configuration_changes_are_atomic [Scalar S] [KeepsFloor S] [Scalar W] [Precision S W] [IndexSource σ W] :
    (∀ {ops : List (LinearOperator S)} {start k : OperatorStack S} {calls : List (NormCall S)},
      ofBlocks ops = .ok start → Configured start calls k →
        k.norms?.map Prod.fst = (lastAccepted? ops.length calls).or (LinearOperator.norms? ops) ∧
        (∀ ns k', k.norms? = some (ns, k') → ns.length = ops.length) ∧
        ((lastAccepted? ops.length calls ≠ none ∨ ∀ op ∈ ops, op.knownNorm = none → op.Responds) →
          ∃ ns k', k.norms? = some (ns, k')) ∧
        ∀ norms, (Acceptable ops.length norms → ∃ k', k.perform (.give norms) = .ok none k') ∧
          (¬Acceptable ops.length norms → k.perform (.give norms) = .error (refusal ops.length norms) k)) ∧
    (∀ {setup : SpdhgSetup S σ} {m₀ m : Spdhg S (BlockSource σ W)}, setup.build = .ok m₀ → m₀.Reachable m →
      (∀ sigma tau, (∃ e, m.perform (.setStepSizes sigma tau) = .error e m) ∨
        ∃ m', m.perform (.setStepSizes sigma tau) = .ok () m' ∧ m.DiffersInSteps m' ∧
          m'.sigma.length = setup.count ∧ 0 < m'.tau) ∧
      ∀ gamma rho, (∃ e, m.perform (.setStepSizesFromRatio gamma rho) = .error e m) ∨
        ∃ m', m.perform (.setStepSizesFromRatio gamma rho) = .ok () m' ∧ m.DiffersInSteps m' ∧
          m'.sigma.length = setup.count ∧ 0 < gamma ∧ 0 < rho ∧
          (∃ r, PrimalDual.leastRatio? m.scales m'.sigma = some r ∧ PrimalDual.ratioFloor < r ∧
            m'.tau = rho / gamma * r) ∧
          (PrimalDual.ratioFloor < rho / gamma → 0 < m'.tau)) ∧
    ∀ {σ : Type} {m m' : Spdhg ℝ σ} {gamma rho : ℝ}, m.setStepSizesFromRatio gamma rho = .ok m' → 0 < m'.tau := by
  refine ⟨?_, ?_, ?_⟩
  · intro ops start k calls hstart hk
    obtain ⟨rfl, hunknown⟩ := unknown_of_ofBlocks hstart
    obtain ⟨hblocks, hanswer⟩ := hk.answer hunknown
    refine ⟨hanswer, fun ns k' hread => ?_, hk.exists_answer hunknown,
      fun norms => ⟨fun haccept => ?_, fun hrefuse => ?_⟩⟩
    · rw [← hblocks]
      exact (blocks_of_norms? hread).2.2
    · rw [← hblocks] at haccept
      obtain ⟨k', hset, -⟩ := setNorms_of_acceptable haccept
      exact ⟨k', by rw [OperatorStack.perform, hset]⟩
    · rw [← hblocks] at hrefuse ⊢
      rw [OperatorStack.perform, setNorms_of_not_acceptable hrefuse]
  · intro setup m₀ m hbuild hm
    have hlength : ∀ {m'}, m₀.Reachable m' → m'.sigma.length = setup.count := by
      intro m' hm'
      exact (hm'.fits (SpdhgSetup.shaped_of_build hbuild) (SpdhgSetup.fits_of_build hbuild)
        (SpdhgSetup.domainDim_of_build hbuild)).length_sigma
    refine ⟨fun sigma tau => ?_, fun gamma rho => ?_⟩
    · rcases m.setStepSizes_cases sigma tau with hrefused | ⟨m', hm', hrest, hpos⟩
      · exact Or.inl hrefused
      · exact Or.inr ⟨m', hm', hrest, hlength (hm.call (congrArg Outcome.state? hm')), hpos⟩
    · rcases m.setStepSizesFromRatio_cases gamma rho with
        hrefused | ⟨m', hm', hrest, hgamma, hrho, r, hr, hfloor, htau⟩
      · exact Or.inl hrefused
      · refine Or.inr ⟨m', hm', hrest, hlength (hm.call (congrArg Outcome.state? hm')), hgamma, hrho,
          ⟨r, hr, hfloor, htau⟩, fun hquotient => ?_⟩
        rw [htau]
        exact KeepsFloor.product_pos hquotient hfloor
  · intro σ m m' gamma rho h
    obtain ⟨hgamma, hrho, r, -, hfloor, htau⟩ :=
      PrimalDual.tau_of_stepsFromRatio (Spdhg.resolved_of_setStepSizesFromRatio h)
    rw [show m'.tau = rho / gamma * r from htau]
    exact mul_pos (div_pos hrho hgamma) (zero_lt_ratioFloor.trans hfloor)

/-! ## In double precision -/

/-- One block on the line, the identity, and two squared distances, in double precision. -/
def doubleLine : SpdhgSetup Float (Sampler Float) where
  terms := [SquaredDistance.unit.functional]
  primalTerm := SquaredDistance.unit.functional
  operator := {
    blocks := [.identity 1]
    domainDim := 1
    knownNorms := none
    blocks_ne_nil := by simp
    domainDim_of_mem := by simp [LinearOperator.identity]
    length_knownNorms := by simp }
  initial := none
  sigma := some [1]
  tau := some 1
  source := some (Sampler.fresh .sequential 1 0 (.rounds #[0] #[0] false))
  weights := none
  probabilities := none
  norms := none
  seed := 0

/-- The method that belongs to it, with other steps. -/
def doubleLineMethod (sigma tau : Float) : Spdhg Float (BlockSource (Sampler Float) Float) where
  blocks := [⟨SquaredDistance.unit.functional, .identity 1, 1, 1, sigma, [0], [0], [0]⟩]
  domainDim := 1
  primalTerm := SquaredDistance.unit.functional
  source := .given (Sampler.fresh .sequential 1 0 (.rounds #[0] #[0] false))
  tau := tau
  x := [0]
  scratch := [0]
  z := [0]
  zbar := [0]
  losses := #[]
  iteration := 0

/-- Two identities on the line. -/
def identities (knownNorms : Option (List Float)) (h : ∀ ns, knownNorms = some ns → ns.length = 2) :
    OperatorStack Float where
  blocks := [.identity 1, .identity 1]
  domainDim := 1
  knownNorms := knownNorms
  blocks_ne_nil := by simp
  domainDim_of_mem := by simp [LinearOperator.identity]
  length_knownNorms := h

theorem build_doubleLine : doubleLine.build = .ok (doubleLineMethod 1 1) := rfl

/-- Its steps for a trade-off and a margin, if the ratio of the block is above the floor. -/
theorem perform_doubleLine {gamma rho : Float} (hgamma : 0 < gamma) (hrho : 0 < rho)
    (hfloor : PrimalDual.ratioFloor < PrimalDual.ratio ⟨1, 1⟩ (gamma * rho / 1)) :
    (doubleLineMethod 1 1).perform (.setStepSizesFromRatio gamma rho) = .ok ()
      (doubleLineMethod (gamma * rho / 1) (rho / gamma * PrimalDual.ratio ⟨1, 1⟩ (gamma * rho / 1))) :=
  congrArg (fun c => (doubleLineMethod 1 1).changeOrKeep ((doubleLineMethod 1 1).withSteps <$> c))
    (PrimalDual.stepsFromRatio_of_unit hgamma hrho hfloor)

open OperatorStack in
/-- Two identities, whose norms are read, given, and given again with a negative one; a trade-off of 2 with a margin of
    a half, in double precision; and a trade-off below the margin, in exact arithmetic. -/
theorem configuration_changes_are_atomic_on_the_line :
    (∃ start k : OperatorStack Float, ofBlocks [.identity 1, .identity 1] = .ok start ∧
      Configured start [.give [-1, 1], .give [2, 3], .read] k ∧ k.norms?.map Prod.fst = some [2, 3]) ∧
    (∃ m', doubleLine.build = .ok (doubleLineMethod 1 1) ∧
      (doubleLineMethod 1 1).perform (.setStepSizesFromRatio 2 0.5) = .ok () m' ∧
      (doubleLineMethod 1 1).DiffersInSteps m' ∧ 0 < m'.tau) ∧
    ∃ m, identityMethod.setStepSizesFromRatio (1 / 2) 1 = .ok m ∧ 0 < m.tau := by
  obtain ⟨hnorms, hsteps, hexact⟩ := configuration_changes_are_atomic (S := Float) (σ := Sampler Float)
  refine ⟨?_, ?_, ?_⟩
  · have hstart : ofBlocks [.identity 1, .identity 1] = .ok (identities none nofun) := rfl
    have hread : Configured (identities none nofun) [.read] (identities (some [1, 1]) (by simp)) := .call .start rfl
    have hgiven : Configured (identities none nofun) [.give [2, 3], .read] (identities (some [2, 3]) (by simp)) :=
      .call hread rfl
    -- the negative norm is refused, so that the call leaves the stack as it was
    have hrefused := Configured.call (c := .give [-1, 1]) hgiven rfl
    exact ⟨_, _, hstart, hrefused, (hnorms hstart hrefused).1⟩
  · have hchange : (doubleLineMethod 1 1).perform (.setStepSizesFromRatio 2 0.5) = .ok () _ :=
      perform_doubleLine (by decide) (by decide) (by decide +kernel)
    rcases (hsteps build_doubleLine .start).2 2 0.5 with ⟨e, herror⟩ | ⟨m', hm', hrest, -, -, -, -, hpos⟩
    · rw [hchange] at herror
      cases herror
    · exact ⟨m', build_doubleLine, hm', hrest, hpos (by decide)⟩
  · obtain ⟨m, hm, -⟩ :=
      setStepSizesFromRatio_identityMethod (1 / 2) 1 (by norm_num) (by norm_num) (by norm_num)
    exact ⟨m, hm, hexact hm⟩

/-- **A quotient may come out as zero.** With a trade-off of `10 ^ 200` and a margin of `10 ^ -200` the steps are
    accepted, and the primal step that they leave is zero. -/
theorem steps_from_ratio_leave_zero :
    ∃ m₀ m : Spdhg Float (BlockSource (Sampler Float) Float), doubleLine.build = .ok m₀ ∧ m₀.Reachable m₀ ∧
      m₀.perform (.setStepSizesFromRatio 1e200 1e-200) = .ok () m ∧ m.tau = 0 ∧ ¬0 < m.tau :=
  ⟨_, _, build_doubleLine, .start, perform_doubleLine (by decide +kernel) (by decide +kernel) (by decide +kernel),
    by decide +kernel, by decide +kernel⟩

end Splitting
