import Splitting.Proofs.PrimalDual.LeastRatio
import Splitting.Proofs.PrimalDual.RunningAdjoint

/-!
# `Splitting.Proofs.PrimalDual.DerivedSteps` — the steps of a method and the bound they are derived from

The primal-dual method converges if `σᵢ τ nᵢ² ≤ pᵢ` for every block. Steps that are not given are derived from
this bound. In exact arithmetic:

* `Spdhg.DerivedSteps` — what is promised of steps of which one side or both are derived;
* `Spdhg.bound_of_primalStep` — the bound behind a derived primal step, for the blocks of a method;
* `Spdhg.derivedSteps_of_setStepSizes`, `SpdhgSetup.derivedSteps_of_build` — setting and building keep it;
* `derived_steps_meet_bound` — the bound, and when it is that no step can be derived from it;
* `ratio_steps_meet_bound_iff` — the bound of steps that belong to a trade-off and a margin.
-/

namespace Splitting

variable {W σ : Type}

/-! ## The steps of a method -/

namespace DualBlock

/-- What the steps of the block depend on. -/
def scale {S : Type} (b : DualBlock S) : DualScale S := ⟨b.weight, b.norm⟩

end DualBlock

namespace Spdhg

/-- What the steps of the blocks depend on, with the dual steps. -/
def scaledSteps {S : Type} (m : Spdhg S σ) : List (DualScale S × S) :=
  m.blocks.map fun b => (b.scale, b.sigma)

theorem scaledSteps_withSteps {S : Type} (m : Spdhg S σ) (steps : List S × S) :
    (m.withSteps steps).scaledSteps = m.scales.zip steps.1 := by
  rw [scaledSteps, withSteps, scales, List.map_zipWith, List.zip_map_left, ← List.map_uncurry_zip_eq_zipWith]
  rfl

theorem mem_scaledSteps_iff {S : Type} {m : Spdhg S σ} {p : DualScale S × S} :
    p ∈ m.scaledSteps ↔ ∃ b ∈ m.blocks, (b.scale, b.sigma) = p :=
  List.mem_map

/-- The method passes the check if no block violates the bound. -/
theorem checkConvergence_iff {m : Spdhg ℝ σ} :
    m.checkConvergence = true ↔ ∀ b ∈ m.blocks, b.sigma * m.tau * b.norm ^ 2 ≤ b.weight := by
  simp only [checkConvergence, Bool.not_eq_true', List.any_eq_false, decide_eq_true_eq, not_lt, pow_two,
    mul_assoc]

/-- **Derived steps.** The steps of a method of which `sigma` and `tau` were given, not both: what was given
    stays as it is, and what was derived meets the bound with the margin 0.99. Beside a primal step that was
    given the bound is met exactly by every block; a primal step that was derived meets it for the blocks
    above the floor, and exactly for one of them. -/
structure DerivedSteps (sigma : Option (List ℝ)) (tau : Option ℝ) (m : Spdhg ℝ σ) : Prop where
  kept : (∀ s ∈ sigma, m.sigma = s) ∧ ∀ t ∈ tau, m.tau = t
  tau_pos : 0 < m.tau
  sigma_pos : ∀ b ∈ m.blocks, 0 < b.sigma ∨ tau.isSome ∧ b.weight = 0 ∧ b.sigma = 0
  exact_of_given : tau.isSome → ∀ b ∈ m.blocks, b.sigma * m.tau * b.norm ^ 2 = 0.99 * b.weight
  bound_of_derived : tau = none → ∀ b ∈ m.blocks, 1e-8 < b.weight / (b.sigma * b.norm ^ 2) →
    b.sigma * m.tau * b.norm ^ 2 ≤ 0.99 * b.weight
  attained_of_derived : tau = none → ∃ b ∈ m.blocks, 1e-8 < b.weight / (b.sigma * b.norm ^ 2) ∧
    b.sigma * m.tau * b.norm ^ 2 = 0.99 * b.weight
  check : m.checkConvergence = true ∨
    tau = none ∧ ∃ b ∈ m.blocks, b.weight / (b.sigma * b.norm ^ 2) ≤ 1e-8

section

variable {m : Spdhg ℝ σ} {scales : List (DualScale ℝ)} {sigma : Option (List ℝ)} {tau : Option ℝ}

/-- What holds of every pair of a scale and a step holds of every block. -/
theorem forall_blocks_of_scaledSteps {s : List ℝ} {P : DualScale ℝ → ℝ → Prop}
    (hscaled : m.scaledSteps = scales.zip s) (h : ∀ p ∈ scales.zip s, P p.1 p.2) :
    ∀ b ∈ m.blocks, P b.scale b.sigma := by
  intro b hb
  refine h (b.scale, b.sigma) ?_
  rw [← hscaled]
  exact List.mem_map_of_mem hb

/-- A bound that leaves a margin passes the check. -/
theorem check_of_margin (hweight : ∀ b ∈ m.blocks, 0 ≤ b.weight)
    (h : ∀ b ∈ m.blocks, b.sigma * m.tau * b.norm ^ 2 ≤ 0.99 * b.weight) : m.checkConvergence = true := by
  refine checkConvergence_iff.mpr fun b hb => (h b hb).trans ?_
  linarith [hweight b hb]

/-- Dual steps that match a primal one meet the bound exactly. -/
theorem derivedSteps_of_matching {t : ℝ} (ht : 0 < t) (htau : m.tau = t)
    (hscaled : m.scaledSteps =
      scales.zip (PrimalDual.matchingDualSteps PrimalDual.tradeOff PrimalDual.margin scales t))
    (hdata : ∀ b ∈ m.blocks, 0 ≤ b.weight ∧ 0 < b.norm) : m.DerivedSteps none (some t) := by
  have hsigma : ∀ b ∈ m.blocks, b.sigma = 0.99 * b.weight / (t * b.norm ^ 2) := by
    refine forall_blocks_of_scaledSteps (P := fun c s => s = 0.99 * c.weight / (t * c.norm ^ 2)) hscaled ?_
    intro p hp
    rw [PrimalDual.matchingDualSteps, ← List.map_prod_left_eq_zip] at hp
    obtain ⟨c, -, rfl⟩ := List.mem_map.mp hp
    show 1 * 0.99 * c.weight / (t * c.norm * c.norm) = 0.99 * c.weight / (t * c.norm ^ 2)
    rw [one_mul, pow_two, mul_assoc t]
  have hexact : ∀ b ∈ m.blocks, b.sigma * m.tau * b.norm ^ 2 = 0.99 * b.weight := by
    intro b hb
    have hn := (hdata b hb).2
    rw [hsigma b hb, htau]
    field_simp
  refine ⟨⟨nofun, ?_⟩, htau ▸ ht, ?_, fun _ => hexact, nofun, nofun, Or.inl ?_⟩
  · rintro _ ⟨⟩
    exact htau
  · intro b hb
    obtain ⟨hweight, hn⟩ := hdata b hb
    rcases hweight.eq_or_lt with hzero | hpos
    · refine Or.inr ⟨rfl, hzero.symm, ?_⟩
      rw [hsigma b hb, ← hzero, mul_zero, zero_div]
    · refine Or.inl ?_
      rw [hsigma b hb]
      positivity
  · exact check_of_margin (fun b hb => (hdata b hb).1) fun b hb => (hexact b hb).le

/-- The bound behind a derived primal step, for the blocks of a method. -/
theorem bound_of_primalStep {s : List ℝ} {gamma rho : ℝ} (hgamma : 0 < gamma) (hrho : 0 < rho)
    (hscaled : m.scaledSteps = scales.zip s) (hpos : ∀ b ∈ m.blocks, 0 < b.norm ∧ 0 < b.sigma)
    (hprimal : PrimalDual.primalStep gamma rho scales s = .ok m.tau) :
    0 < m.tau ∧
      (∀ b ∈ m.blocks, 1e-8 < b.weight / (b.sigma * b.norm ^ 2) →
        b.sigma * m.tau * b.norm ^ 2 ≤ rho / gamma * b.weight) ∧
      ∃ b ∈ m.blocks, 1e-8 < b.weight / (b.sigma * b.norm ^ 2) ∧
        b.sigma * m.tau * b.norm ^ 2 = rho / gamma * b.weight := by
  have hpairs : ∀ p ∈ scales.zip s, 0 < p.1.norm ∧ 0 < p.2 := by
    intro p hp
    rw [← hscaled] at hp
    obtain ⟨b, hb, rfl⟩ := mem_scaledSteps_iff.mp hp
    exact hpos b hb
  obtain ⟨htau, hbound, p, hp, hfloor, hattained⟩ :=
    PrimalDual.bound_of_primalStep hgamma hrho hpairs hprimal
  refine ⟨htau, ?_, ?_⟩
  · intro b hb hb'
    have hmem : (b.scale, b.sigma) ∈ scales.zip s := hscaled ▸ List.mem_map_of_mem hb
    refine hbound _ hmem ?_
    rw [PrimalDual.ratio_eq]
    exact hb'
  · rw [← hscaled] at hp
    obtain ⟨b, hb, rfl⟩ := mem_scaledSteps_iff.mp hp
    rw [PrimalDual.ratio_eq] at hfloor
    exact ⟨b, hb, hfloor, hattained⟩

/-- A derived primal step meets the bound for the blocks above the floor. -/
theorem derivedSteps_of_primalStep {s : List ℝ} (hlen : s.length = scales.length)
    (hscaled : m.scaledSteps = scales.zip s)
    (hdual : PrimalDual.dualSteps scales sigma none = .ok s)
    (hprimal : PrimalDual.primalStep PrimalDual.tradeOff PrimalDual.margin scales s = .ok m.tau)
    (hdata : ∀ b ∈ m.blocks, 0 ≤ b.weight ∧ 0 < b.norm) : m.DerivedSteps sigma none := by
  have hscales : m.scaledSteps.map Prod.fst = scales := by rw [hscaled, List.map_fst_zip hlen.ge]
  have hsteps : m.scaledSteps.map Prod.snd = s := by rw [hscaled, List.map_snd_zip hlen.le]
  have hnorm : ∀ c ∈ scales, 0 < c.norm := by
    intro c hc
    rw [← hscales] at hc
    obtain ⟨p, hp, rfl⟩ := List.mem_map.mp hc
    obtain ⟨b, hb, rfl⟩ := mem_scaledSteps_iff.mp hp
    exact (hdata b hb).2
  have hsigma : ∀ b ∈ m.blocks, 0 < b.sigma := by
    intro b hb
    refine PrimalDual.pos_of_dualSteps hnorm hdual _ ?_
    rw [← hsteps]
    exact List.mem_map_of_mem (List.mem_map_of_mem hb)
  obtain ⟨htau, hbound, hattained⟩ := bound_of_primalStep (show (0 : ℝ) < 1 by norm_num)
    (show (0 : ℝ) < 0.99 by norm_num) hscaled (fun b hb => ⟨(hdata b hb).2, hsigma b hb⟩) hprimal
  rw [div_one] at hbound hattained
  refine ⟨⟨?_, nofun⟩, htau, fun b hb => Or.inl (hsigma b hb), nofun, fun _ => hbound, fun _ => hattained, ?_⟩
  · rintro g ⟨⟩
    obtain ⟨-, rfl⟩ := PrimalDual.dualSteps_none_eq_ok_iff.mp hdual
    rw [scaledSteps, List.map_map] at hsteps
    exact hsteps
  · -- either every block is above the floor, and meets the bound, or one is not
    by_cases hall : ∀ b ∈ m.blocks, 1e-8 < b.weight / (b.sigma * b.norm ^ 2)
    · exact Or.inl (check_of_margin (fun b hb => (hdata b hb).1) fun b hb => hbound b hb (hall b hb))
    · push Not at hall
      exact Or.inr ⟨rfl, hall⟩

/-- **Steps that are resolved with one side or both missing are derived steps.** -/
theorem derivedSteps_of_resolveSteps {steps : List ℝ × ℝ} (hmissing : sigma = none ∨ tau = none)
    (hsteps : PrimalDual.resolveSteps scales sigma tau = .ok steps)
    (hscaled : m.scaledSteps = scales.zip steps.1) (htau : m.tau = steps.2)
    (hdata : ∀ b ∈ m.blocks, 0 ≤ b.weight ∧ 0 < b.norm) : m.DerivedSteps sigma tau := by
  have hlen := PrimalDual.length_of_resolveSteps hsteps
  rcases PrimalDual.resolveSteps_cases hmissing hsteps with ⟨rfl, rfl, hpos, hs⟩ | ⟨rfl, hdual, hprimal⟩
  · exact derivedSteps_of_matching hpos htau (hs ▸ hscaled) hdata
  · exact derivedSteps_of_primalStep hlen hscaled hdual (htau ▸ hprimal) hdata

/-- The probabilities and norms do not change with the steps. -/
theorem scales_withSteps {S : Type} {m : Spdhg S σ} {steps : List S × S}
    (hlen : steps.1.length = m.blocks.length) : (m.withSteps steps).scales = m.scales :=
  map_blocks_withSteps (fun _ _ => rfl) hlen

theorem forall_blocks_of_scales {S : Type} {m m' : Spdhg S σ} {P : DualScale S → Prop}
    (hscales : m'.scales = m.scales) (h : ∀ b ∈ m.blocks, P b.scale) : ∀ b ∈ m'.blocks, P b.scale := by
  intro b hb
  have hmem : b.scale ∈ m.scales := hscales ▸ List.mem_map_of_mem hb
  obtain ⟨b₀, hb₀, hscale⟩ := List.mem_map.mp hmem
  exact hscale ▸ h b₀ hb₀

/-- **Setting steps of which one side or both are missing derives them,** and keeps what they depend on. -/
theorem derivedSteps_of_setStepSizes {m m' : Spdhg ℝ σ} (hmissing : sigma = none ∨ tau = none)
    (hdata : ∀ b ∈ m.blocks, 0 ≤ b.weight ∧ 0 < b.norm) (h : m.setStepSizes sigma tau = .ok m') :
    m'.scales = m.scales ∧ m'.DerivedSteps sigma tau := by
  unfold setStepSizes at h
  obtain ⟨steps, hsteps, rfl⟩ := Except.map_eq_ok_iff.mp h
  have hscales : (m.withSteps steps).scales = m.scales :=
    scales_withSteps ((PrimalDual.length_of_resolveSteps hsteps).trans m.length_scales)
  refine ⟨hscales, derivedSteps_of_resolveSteps hmissing hsteps (m.scaledSteps_withSteps steps) rfl ?_⟩
  exact forall_blocks_of_scales (P := fun c => 0 ≤ c.weight ∧ 0 < c.norm) hscales hdata

end

end Spdhg

/-! ## The steps of a method that was built -/

namespace SpdhgSetup

variable [Scalar W] [Precision ℝ W] [IndexSource σ W] {setup : SpdhgSetup ℝ σ}

/-- **Building with one side or both missing derives the steps.** -/
theorem derivedSteps_of_build {m : Spdhg ℝ (BlockSource σ W)}
    (hmissing : setup.sigma = none ∨ setup.tau = none) (h : setup.build = .ok m)
    (hdata : ∀ b ∈ m.blocks, 0 ≤ b.weight ∧ 0 < b.norm) : m.DerivedSteps setup.sigma setup.tau := by
  obtain ⟨given, weights, source, norms, steps, x, -, -, -, hsteps, -, ⟨hf, hp, hn, hs, -⟩, rfl⟩ :=
    build_eq_ok h
  exact Spdhg.derivedSteps_of_resolveSteps hmissing hsteps (map_blocks_scaled hf hp hn hs) rfl hdata

theorem start_ne_invalidParameter {fault : ParameterFault} :
    setup.start ≠ .error (.invalidParameter fault) := by
  unfold start
  cases setup.initial with
  | none => simp
  | some x =>
    by_cases hlen : x.length = setup.operator.domainDim
    · simp [hlen]
    · simp [hlen]

/-- The probabilities and norms on which the steps of a setup depend: everything that is checked before the
    steps is in order. -/
def Scaled (W : Type) [Scalar W] [Precision ℝ W] [IndexSource σ W] (setup : SpdhgSetup ℝ σ)
    (scales : List (DualScale ℝ)) : Prop :=
  setup.checkTerms = .ok () ∧ ∃ given stack weights norms, ∃ source : BlockSource σ W, ∃ stack',
    setup.resolveWeights (W := W) = .ok given ∧ setup.stack = .ok stack ∧
    setup.completeWeights given = .ok weights ∧ setup.blockSource weights = .ok source ∧
    stack.norms? (W := W) = some (norms, stack') ∧ scales = List.zipWith DualScale.mk weights norms

/-- After everything before them is in order, building refuses a parameter exactly when the steps do. -/
theorem refuses_build_iff {name : String} {scales : List (DualScale ℝ)} (h : setup.Scaled W scales) :
    Refuses name (setup.build : Except Fault (Spdhg ℝ (BlockSource σ W))) ↔
      Refuses name (Fault.lift (PrimalDual.resolveSteps scales setup.sigma setup.tau)) := by
  obtain ⟨hterms, given, stack, weights, norms, source, stack', hgiven, hstack, hweights, hsource, hnorms,
    rfl⟩ := h
  unfold build
  rw [hterms, hgiven, hstack]
  simp only [Fault.lift, bind, Except.bind]
  rw [hweights]
  simp only [hsource, hnorms, Fault.ofOption]
  cases PrimalDual.resolveSteps (List.zipWith DualScale.mk weights norms) setup.sigma setup.tau with
  | error e => simp [Refuses]
  | ok steps =>
    -- only the starting point is checked after the steps, and its length is no parameter
    refine iff_of_false ?_ (not_refuses_ok steps)
    rintro ⟨fault, h, -⟩
    cases hstart : setup.start with
    | ok x => simp [hstart, pure, Except.pure] at h
    | error e =>
      simp only [hstart, Except.error.injEq, Fault.error.injEq] at h
      exact start_ne_invalidParameter (h ▸ hstart)

end SpdhgSetup

/-- **Derived steps respect the bound they are derived from.** If one side of the steps or both are missing,
    then the steps of a method that is built, or whose steps are set, are derived steps in exact arithmetic,
    whatever the probabilities and the positive norms are; and where the primal step is missing, it is refused
    exactly when no block is above the floor, provided that what is given is valid. -/
theorem derived_steps_meet_bound [Scalar W] [Precision ℝ W] [IndexSource σ W] {sigma : Option (List ℝ)}
    {tau : Option ℝ} (hmissing : sigma = none ∨ tau = none) :
    (∀ m m' : Spdhg ℝ σ, (∀ b ∈ m.blocks, 0 ≤ b.weight ∧ 0 < b.norm) → m.setStepSizes sigma tau = .ok m' →
        m'.scales = m.scales ∧ m'.DerivedSteps sigma tau) ∧
      (∀ (setup : SpdhgSetup ℝ σ) (m : Spdhg ℝ (BlockSource σ W)), setup.sigma = sigma → setup.tau = tau →
        setup.build = .ok m → (∀ b ∈ m.blocks, 0 ≤ b.weight ∧ 0 < b.norm) → m.DerivedSteps sigma tau) ∧
      (tau = none → ∀ scales : List (DualScale ℝ),
        (∀ s ∈ sigma, s.length = scales.length ∧ ∀ v ∈ s, 0 < v) →
        (∀ m : Spdhg ℝ σ, m.scales = scales →
          (Refuses "tau" (Fault.lift (m.setStepSizes sigma tau)) ↔
            PrimalDual.NoBlockAboveFloor scales sigma)) ∧
        ∀ setup : SpdhgSetup ℝ σ, setup.sigma = sigma → setup.tau = tau → setup.Scaled W scales →
          (Refuses "tau" (setup.build : Except Fault (Spdhg ℝ (BlockSource σ W))) ↔
            PrimalDual.NoBlockAboveFloor scales sigma)) := by
  refine ⟨fun m m' hdata h => Spdhg.derivedSteps_of_setStepSizes hmissing hdata h, ?_, ?_⟩
  · rintro setup m rfl rfl hbuild hdata
    exact SpdhgSetup.derivedSteps_of_build hmissing hbuild hdata
  · rintro rfl scales hgiven
    constructor
    · rintro m rfl
      exact refuses_map_iff.trans (PrimalDual.refuses_resolveSteps_iff hgiven)
    · rintro setup rfl htau hscaled
      rw [SpdhgSetup.refuses_build_iff hscaled, htau]
      exact PrimalDual.refuses_resolveSteps_iff hgiven

/-- Two blocks drawn equally often, with the norms `|a|` and `|b|`. -/
noncomputable def lineScales (a b : ℝ) : List (DualScale ℝ) := [⟨1 / (1 + 1), |a|⟩, ⟨1 / (1 + 1), |b|⟩]

theorem resolveSteps_lineScales :
    ∃ s t u, PrimalDual.resolveSteps (lineScales 3 2) none none = .ok ([s, t], u) := by
  have hgiven : ∀ g ∈ (none : Option (List ℝ)), g.length = (lineScales 3 2).length ∧ ∀ v ∈ g, 0 < v := nofun
  rw [PrimalDual.resolveSteps_of_valid hgiven, Option.getD_none, PrimalDual.primalStep]
  cases h : PrimalDual.leastRatio? (lineScales 3 2)
      (PrimalDual.balancedDualSteps PrimalDual.tradeOff PrimalDual.margin (lineScales 3 2)) with
  | some r => exact ⟨_, _, _, rfl⟩
  | none =>
    have hfirst := PrimalDual.leastRatio?_eq_none_iff.mp h _ List.mem_cons_self
    simp only [PrimalDual.ratio, PrimalDual.tradeOff, PrimalDual.margin, PrimalDual.ratioFloor] at hfirst
    norm_num at hfirst

/-- The two blocks on the real line, with their steps to be derived. -/
noncomputable def underivedLine (a b start : ℝ) : SpdhgSetup ℝ (Sampler ℝ) :=
  { oneDimensional a b start with sigma := none, tau := none }

theorem build_underivedLine (start : ℝ) : ∃ m : Spdhg ℝ (BlockSource (Sampler ℝ) ℝ),
    (underivedLine 3 2 start).build = .ok m ∧ m.scales = lineScales 3 2 := by
  obtain ⟨s, t, u, hsteps⟩ := resolveSteps_lineScales
  rw [lineScales] at hsteps
  simp only [SpdhgSetup.build, underivedLine, oneDimensional, SpdhgSetup.checkTerms, SpdhgSetup.count,
    SpdhgSetup.resolveWeights, SpdhgSetup.stack, SpdhgSetup.completeWeights, SpdhgSetup.blockSource,
    OperatorStack.norms?, frequencies?_two_in_turn, Option.bind_some, Option.map_some, Option.getD_some, List.map_cons,
    List.map_nil, List.length_cons, List.length_nil, if_true, SpdhgSetup.start, Fault.lift, Fault.ofOption,
    bind, Except.bind, pure, Except.pure, Precision.narrow, List.zipWith_cons_cons, List.zipWith_nil_left,
    hsteps]
  exact ⟨_, rfl, rfl⟩

theorem derived_steps_meet_bound_on_the_line :
    (∃ m : Spdhg ℝ (BlockSource (Sampler ℝ) ℝ), (underivedLine 3 2 3).build = .ok m ∧
        (∀ b ∈ m.blocks, 0 ≤ b.weight ∧ 0 < b.norm) ∧ m.DerivedSteps none none) ∧
      (∃ m', (oneDimensionalMethod 3 2 3).setStepSizes none (some 2) = .ok m' ∧
        m'.DerivedSteps none (some 2)) ∧
      Refuses "tau" (Fault.lift
        ((oneDimensionalMethod 3 2 3).setStepSizes (some [10 ^ 9, 10 ^ 9]) none)) := by
  have hdata : ∀ m : Spdhg ℝ (BlockSource (Sampler ℝ) ℝ), m.scales = lineScales 3 2 →
      ∀ b ∈ m.blocks, 0 ≤ b.weight ∧ 0 < b.norm := by
    intro m hm b hb
    have hmem : b.scale ∈ lineScales 3 2 := hm ▸ List.mem_map_of_mem hb
    rcases List.mem_pair.mp hmem with h | h
    · obtain ⟨hweight, hnorm⟩ := DualScale.mk.inj h
      rw [hweight, hnorm]
      norm_num
    · obtain ⟨hweight, hnorm⟩ := DualScale.mk.inj h
      rw [hweight, hnorm]
      norm_num
  obtain ⟨m, hbuild, hscales⟩ := build_underivedLine 3
  have hset : ∃ m', (oneDimensionalMethod 3 2 3).setStepSizes none (some 2) = .ok m' := by
    have htwo : (0 : ℝ) < 2 := two_pos
    simp only [Spdhg.setStepSizes, PrimalDual.resolveSteps, PrimalDual.requirePositive, if_pos htwo,
      PrimalDual.dualSteps, bind, Except.bind]
    exact ⟨_, rfl⟩
  obtain ⟨m', hm'⟩ := hset
  refine ⟨⟨m, hbuild, hdata m hscales, ?_⟩, ⟨m', hm', ?_⟩, ?_⟩
  · exact (derived_steps_meet_bound (W := ℝ) (Or.inl rfl)).2.1 (underivedLine 3 2 3) m rfl rfl hbuild
      (hdata m hscales)
  · exact ((derived_steps_meet_bound (W := ℝ) (Or.inl rfl)).1 _ m' (hdata _ rfl) hm').2
  · -- beside dual steps as large as these, no ratio exceeds the floor
    refine (((derived_steps_meet_bound (W := ℝ) (Or.inr rfl)).2.2 rfl (lineScales 3 2) ?_).1 _ rfl).mpr ?_
    · rintro s ⟨⟩
      exact ⟨rfl, by simp⟩
    · intro p hp
      rcases List.mem_pair.mp hp with rfl | rfl
      · norm_num
      · norm_num

/-! ## Steps of a trade-off and a margin -/

/-- The steps of a trade-off and a margin: balanced dual steps, and the primal step derived from them. -/
theorem Spdhg.steps_of_setStepSizesFromRatio {m m' : Spdhg ℝ σ} {gamma rho : ℝ}
    (h : m.setStepSizesFromRatio gamma rho = .ok m') :
    0 < gamma ∧ 0 < rho ∧ m'.scales = m.scales ∧ (∀ b ∈ m'.blocks, b.sigma = gamma * rho / b.norm) ∧
      ∃ s, m'.scaledSteps = m.scales.zip s ∧ PrimalDual.primalStep gamma rho m.scales s = .ok m'.tau := by
  unfold setStepSizesFromRatio at h
  obtain ⟨steps, hsteps, rfl⟩ := Except.map_eq_ok_iff.mp h
  obtain ⟨hgamma, hrho, hdual, hprimal⟩ := PrimalDual.stepsFromRatio_eq_ok hsteps
  have hlen := (PrimalDual.length_of_stepsFromRatio hsteps).trans m.length_scales
  have hscaled := m.scaledSteps_withSteps steps
  refine ⟨hgamma, hrho, scales_withSteps hlen, ?_, steps.1, hscaled, hprimal⟩
  refine forall_blocks_of_scaledSteps (P := fun c v => v = gamma * rho / c.norm) hscaled ?_
  intro p hp
  rw [hdual, PrimalDual.balancedDualSteps, ← List.map_prod_left_eq_zip] at hp
  obtain ⟨c, -, rfl⟩ := List.mem_map.mp hp
  rfl

/-- **The steps of a trade-off `γ` and a margin `ρ` meet `ρ / γ` of the bound,** not `ρ` of it: the dual steps
    already have the factor `γ ρ`, and the primal one divides by `γ` the ratio that contains them. If every
    block is above the floor, the method therefore passes the check exactly if `ρ ≤ γ`. -/
theorem ratio_steps_meet_bound_iff {m m' : Spdhg ℝ σ} {gamma rho : ℝ}
    (hdata : ∀ b ∈ m.blocks, 0 < b.weight ∧ 0 < b.norm) (h : m.setStepSizesFromRatio gamma rho = .ok m')
    (hfloor : ∀ b ∈ m'.blocks, 1e-8 < b.weight / (b.sigma * b.norm ^ 2)) :
    (∀ b ∈ m'.blocks, b.sigma * m'.tau * b.norm ^ 2 ≤ rho / gamma * b.weight) ∧
      (∃ b ∈ m'.blocks, b.sigma * m'.tau * b.norm ^ 2 = rho / gamma * b.weight) ∧
      (m'.checkConvergence = true ↔ rho ≤ gamma) := by
  obtain ⟨hgamma, hrho, hscales, hsigma, s, hscaled, hprimal⟩ := Spdhg.steps_of_setStepSizesFromRatio h
  have hdata' : ∀ b ∈ m'.blocks, 0 < b.weight ∧ 0 < b.norm :=
    Spdhg.forall_blocks_of_scales (P := fun c => 0 < c.weight ∧ 0 < c.norm) hscales hdata
  have hpos : ∀ b ∈ m'.blocks, 0 < b.norm ∧ 0 < b.sigma := by
    intro b hb
    rw [hsigma b hb]
    exact ⟨(hdata' b hb).2, div_pos (mul_pos hgamma hrho) (hdata' b hb).2⟩
  obtain ⟨-, hbound, b, hb, -, hattained⟩ := Spdhg.bound_of_primalStep hgamma hrho hscaled hpos hprimal
  refine ⟨fun c hc => hbound c hc (hfloor c hc), ⟨b, hb, hattained⟩, ?_⟩
  rw [Spdhg.checkConvergence_iff]
  constructor
  · -- the block that attains the bound decides the check
    intro hcheck
    have hle : rho / gamma * b.weight ≤ 1 * b.weight := by
      rw [one_mul]
      exact hattained.symm.trans_le (hcheck b hb)
    exact (div_le_one hgamma).mp (le_of_mul_le_mul_right hle (hdata' b hb).1)
  · intro hle c hc
    calc c.sigma * m'.tau * c.norm ^ 2 ≤ rho / gamma * c.weight := hbound c hc (hfloor c hc)
      _ ≤ 1 * c.weight :=
        mul_le_mul_of_nonneg_right ((div_le_one hgamma).mpr hle) (hdata' c hc).1.le
      _ = c.weight := one_mul _

/-- A single block on the real line, the identity with the norm 1, which is drawn every time. -/
noncomputable def identityMethod : Spdhg ℝ (Sampler ℝ) where
  blocks := [⟨SquaredDistance.unit.functional, .identity 1, 1, 1, 1, [0], [0], [0]⟩]
  domainDim := 1
  primalTerm := SquaredDistance.unit.functional
  source := Sampler.fresh .sequential 1 0 (.rounds #[0] #[0] false)
  tau := 1
  x := [0]
  scratch := [0]
  z := [0]
  zbar := [0]
  losses := #[]
  iteration := 0

theorem setStepSizesFromRatio_identityMethod (gamma rho : ℝ) (hgamma : 0 < gamma) (hrho : 0 < rho)
    (hfloor : 1e-8 < 1 / (gamma * rho)) :
    ∃ m, identityMethod.setStepSizesFromRatio gamma rho = .ok m ∧ m.tau = 1 / gamma ^ 2 ∧
      ∃ b, m.blocks = [b] ∧ b.weight = 1 ∧ b.norm = 1 ∧ b.sigma = gamma * rho := by
  have hratio : PrimalDual.ratioFloor < PrimalDual.ratio ⟨1, 1⟩ (gamma * rho / 1) := by
    show (1e-8 : ℝ) < 1 / (gamma * rho / 1 * 1 * 1)
    simpa using hfloor
  refine ⟨identityMethod.withSteps
      ([gamma * rho / 1], rho / gamma * PrimalDual.ratio ⟨1, 1⟩ (gamma * rho / 1)),
    ?_, ?_, _, rfl, rfl, rfl, div_one _⟩
  · exact congrArg (identityMethod.withSteps <$> ·) (PrimalDual.stepsFromRatio_of_unit hgamma hrho hratio)
  · show rho / gamma * (1 / (gamma * rho / 1 * 1 * 1)) = 1 / gamma ^ 2
    field_simp

theorem ratio_steps_meet_bound_iff_on_the_line :
    ∃ m, identityMethod.setStepSizesFromRatio 2 (1 / 2) = .ok m ∧
      (∀ b ∈ identityMethod.blocks, 0 < b.weight ∧ 0 < b.norm) ∧
      (∀ b ∈ m.blocks, 1e-8 < b.weight / (b.sigma * b.norm ^ 2)) ∧ m.checkConvergence = true := by
  obtain ⟨m, hm, -, b, hb, hweight, hnorm, hsigma⟩ :=
    setStepSizesFromRatio_identityMethod 2 (1 / 2) (by norm_num) (by norm_num) (by norm_num)
  have hdata : ∀ b ∈ identityMethod.blocks, 0 < b.weight ∧ 0 < b.norm := by
    intro c hc
    rw [List.mem_singleton.mp hc]
    exact ⟨one_pos, one_pos⟩
  have hfloor : ∀ b ∈ m.blocks, 1e-8 < b.weight / (b.sigma * b.norm ^ 2) := by
    rw [hb]
    intro c hc
    rw [List.mem_singleton.mp hc, hweight, hnorm, hsigma]
    norm_num
  exact ⟨m, hm, hdata, hfloor, (ratio_steps_meet_bound_iff hdata hm hfloor).2.2.mpr (by norm_num)⟩

/-- **A trade-off below the margin breaks the bound.** With the trade-off 1/2 and the margin 1 every block is
    above the floor, and yet `σ τ n²` is twice the probability. -/
theorem ratio_steps_miss_bound : ∃ m, identityMethod.setStepSizesFromRatio (1 / 2) 1 = .ok m ∧
    (∀ b ∈ identityMethod.blocks, 0 < b.weight ∧ 0 < b.norm) ∧
    (∀ b ∈ m.blocks, 1e-8 < b.weight / (b.sigma * b.norm ^ 2)) ∧
    (∀ b ∈ m.blocks, b.sigma * m.tau * b.norm ^ 2 = 2 * b.weight) ∧ m.checkConvergence = false := by
  obtain ⟨m, hm, htau, b, hb, hweight, hnorm, hsigma⟩ :=
    setStepSizesFromRatio_identityMethod (1 / 2) 1 (by norm_num) (by norm_num) (by norm_num)
  have hmem : b ∈ m.blocks := hb ▸ List.mem_singleton_self b
  have hvalue : b.sigma * m.tau * b.norm ^ 2 = 2 * b.weight := by
    rw [hweight, hnorm, hsigma, htau]
    norm_num
  refine ⟨m, hm, ?_, ?_, ?_, ?_⟩
  · intro c hc
    rw [List.mem_singleton.mp hc]
    exact ⟨one_pos, one_pos⟩
  · rw [hb]
    intro c hc
    rw [List.mem_singleton.mp hc, hweight, hnorm, hsigma]
    norm_num
  · rw [hb]
    intro c hc
    rw [List.mem_singleton.mp hc]
    exact hvalue
  · refine Bool.eq_false_of_not_eq_true fun hcheck => ?_
    have hle := Spdhg.checkConvergence_iff.mp hcheck b hmem
    rw [hvalue, hweight] at hle
    norm_num at hle

end Splitting
