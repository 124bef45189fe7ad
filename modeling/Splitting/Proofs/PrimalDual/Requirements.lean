import Splitting.Proofs.Checks
import Splitting.Proofs.Operator.Norms
import Splitting.Proofs.PrimalDual.LeastRatio

/-!
# `Splitting.Proofs.PrimalDual.Requirements` — what a setup has to meet, and which complaint comes first

A setup of the primal-dual method has ten options, and building looks at them one after the other. So the
errors have an order: what is checked later is complained about only where everything before it is in order.
This module lists the requirements once, in that order, each with what it asks and with the error that is
raised where it is not met.

* `SpdhgSetup.listed`, `SpdhgSetup.resolved` — the probabilities, from the one place that gives them;
* `Requirement`, `SpdhgSetup.Meets`, `SpdhgSetup.complaint` — the requirements, what they ask, and their errors;
* `SpdhgSetup.norms?`, `SpdhgSetup.HasNorms` — the norms of the blocks, and when they can be had at all;
* `SpdhgSetup.checks_build` — building checks the requirements in order; `SpdhgSetup.exists_build_iff`,
  `SpdhgSetup.build_eq_error_iff` — when it succeeds, and with which error it fails.
-/

namespace Splitting

variable {S W σ : Type}

/-! ## The probabilities of a setup -/

namespace SpdhgSetup

section

variable [Precision S W] [IndexSource σ W]

/-- The frequencies that the source reports, as scalars of the method. -/
def reported (setup : SpdhgSetup S σ) : Option (List S) :=
  (setup.source.bind IndexSource.frequencies?).map fun ws => ws.map Precision.narrow

/-- The probabilities that are given: those of the source, or those under the one name or the other. -/
def listed (setup : SpdhgSetup S σ) : Option (List S) :=
  setup.reported.or (setup.weights.or setup.probabilities)

/-- **The probabilities of the blocks:** those that are given, or else uniform ones. -/
def resolved [Scalar S] (setup : SpdhgSetup S σ) : List S :=
  setup.listed.getD (List.replicate setup.count (1 / (setup.count : S)))

end

end SpdhgSetup

/-! ## The default source -/

section

variable [Scalar W]

/-- The sum of some numbers, begun with the first. -/
def Sampler.total (ws : List W) : W := ws.tail.foldl (· + ·) (ws.headD 0)

theorem Weighted.exists_ofWeights {ws : List W} (hne : ws ≠ []) (hsigns : ∀ w ∈ ws, 0 ≤ w) :
    ∃ prepared, ofWeights? ws = some prepared := by
  obtain ⟨w, rest, rfl⟩ := List.exists_cons_of_ne_nil hne
  exact ⟨_, if_pos (List.all_eq_true.mpr fun v hv => decide_eq_true (hsigns v hv))⟩

theorem Weighted.ofWeights?_eq_none {ws : List W} (hsigns : ¬ ∀ w ∈ ws, 0 ≤ w) : ofWeights? ws = none := by
  cases ws with
  | nil => rfl
  | cons w rest =>
    refine if_neg fun h => hsigns fun v hv => ?_
    exact of_decide_eq_true (List.all_eq_true.mp h v hv)

/-- Independent draws with one probability for each index are refused for the total or for a sign. -/
theorem Sampler.randomWithReplacement_eq {n : Nat} {ws : List W} (hlength : ws.length = n) (hne : ws ≠ [])
    (seed : UInt64) : randomWithReplacement n (some ws) seed =
      if 1e-6 < Scalar.abs (total ws - 1) then .error (.invalidSampler (.totalNotOne (Scalar.text (total ws))))
      else match Weighted.ofWeights? ws with
        | none => .error (.invalidSampler .invalidWeight)
        | some prepared => .ok (fresh .randomWithReplacement n seed (.independent ws prepared)) := by
  have hn : n ≠ 0 := by
    rintro rfl
    exact hne (List.eq_nil_of_length_eq_zero hlength)
  rw [randomWithReplacement, if_neg hn, Option.getD_some, if_neg (not_not_intro hlength)]
  rfl

end

/-! ## The requirements -/

/-- What building a method requires of a setup, in the order in which it is checked. -/
inductive Requirement where
  /-- There is one term for each block. -/
  | termCount
  /-- Probabilities are not given beside those of the source. -/
  | weightsOnce
  /-- Probabilities are not given by their old name beside others. -/
  | probabilitiesOnce
  /-- Norms that are given come one for each block. -/
  | normCount
  /-- Norms that are given are not negative. -/
  | normSigns
  /-- There is one probability for each block. -/
  | weightCount
  /-- The default source has probabilities that sum to one up to a millionth. -/
  | weightTotal
  /-- The default source has probabilities that are not negative. -/
  | weightSigns
  /-- A primal step that is given is positive. -/
  | tauSign
  /-- Dual steps that are given come one for each block. -/
  | sigmaCount
  /-- Dual steps that are given are positive. -/
  | sigmaSigns
  /-- Where the primal step is derived, some ratio exceeds the floor. -/
  | ratioAboveFloor
  /-- A starting point that is given has the length of the domain. -/
  | initialLength
deriving DecidableEq, Repr

/-- The requirements, the first one first. -/
def Requirement.inOrder : List Requirement :=
  [termCount, weightsOnce, probabilitiesOnce, normCount, normSigns, weightCount, weightTotal, weightSigns, tauSign,
    sigmaCount, sigmaSigns, ratioAboveFloor, initialLength]

theorem Requirement.mem_inOrder (r : Requirement) : r ∈ inOrder := by
  cases r <;> decide

namespace PrimalDual

variable [Scalar S]

theorem requireAllPositive_eq_error {s : List S} (h : ¬ ∀ v ∈ s, 0 < v) : requireAllPositive s =
    .error (.invalidParameter (.primalDualStepNotPositive .sigma
      ((s.find? fun v => ¬ 0 < v).elim "" Scalar.text))) := by
  induction s with
  | nil => exact absurd (by simp) h
  | cons v rest ih =>
    by_cases hv : 0 < v
    · have hrest : ¬ ∀ w ∈ rest, 0 < w := fun hall => h (List.forall_mem_cons.mpr ⟨hv, hall⟩)
      rw [requireAllPositive, requirePositive_eq_ok_iff.mpr hv, List.find?_cons_of_neg (by simp [hv])]
      exact ih hrest
    · rw [requireAllPositive, requirePositive, if_neg hv, List.find?_cons_of_pos (by simp [hv])]
      rfl

/-- Dual steps beside which a primal one is derived are the given ones, or the balanced ones. -/
theorem eq_getD_of_dualSteps {scales : List (DualScale S)} {sigma : Option (List S)} {s : List S}
    (h : dualSteps scales sigma none = .ok s) : s = sigma.getD (balancedDualSteps tradeOff margin scales) := by
  unfold dualSteps at h
  cases sigma with
  | none => exact (Except.ok.inj h).symm
  | some given =>
    simp only at h
    split at h
    · cases h
    · split at h
      · cases h
      · exact (Except.ok.inj h).symm

/-- A primal step can be derived where some ratio exceeds the floor. -/
theorem exists_primalStep {gamma rho : S} {scales : List (DualScale S)} {sigma : List S}
    (h : ∃ r ∈ List.zipWith ratio scales sigma, ratioFloor < r) :
    ∃ t, primalStep gamma rho scales sigma = .ok t := by
  obtain ⟨r, hr, hfloor⟩ := h
  have hmem : r ∈ (List.zipWith ratio scales sigma).filter fun r => ratioFloor < r :=
    List.mem_filter.mpr ⟨hr, decide_eq_true hfloor⟩
  obtain ⟨r', rest, hlimiting⟩ := List.exists_cons_of_ne_nil (List.ne_nil_of_mem hmem)
  rw [primalStep, leastRatio?, hlimiting]
  exact ⟨_, rfl⟩

theorem primalStep_eq_error {gamma rho : S} {scales : List (DualScale S)} {sigma : List S}
    (h : ¬ ∃ r ∈ List.zipWith ratio scales sigma, ratioFloor < r) :
    primalStep gamma rho scales sigma = .error (.invalidParameter .noPrimalStep) := by
  have hlimiting : (List.zipWith ratio scales sigma).filter (fun r => ratioFloor < r) = [] := by
    refine List.filter_eq_nil_iff.mpr fun r hr hfloor => h ⟨r, hr, of_decide_eq_true hfloor⟩
  rw [primalStep, leastRatio?, hlimiting]
  rfl

end PrimalDual

namespace SpdhgSetup

variable [Scalar S] [Scalar W] [Precision S W] [IndexSource σ W]

omit [IndexSource σ W] in
/-- The norms of the blocks: those that the setup gives, those that the stack knows, or estimates. -/
def norms? (setup : SpdhgSetup S σ) : Option (List S) :=
  setup.norms.or (setup.operator.norms?.map Prod.fst)

omit [Scalar W] [Precision S W] [IndexSource σ W] in
/-- The norms of the blocks are given or known, or each operator that does not know its own responds. -/
def HasNorms (setup : SpdhgSetup S σ) : Prop :=
  setup.norms ≠ none ∨ setup.operator.knownNorms ≠ none ∨
    ∀ op ∈ setup.operator.blocks, op.knownNorm = none → op.Responds

omit [Scalar W] in
/-- What the steps depend on, with the norms of the blocks. -/
def scales (setup : SpdhgSetup S σ) (norms : List S) : List (DualScale S) :=
  List.zipWith DualScale.mk setup.resolved norms

omit [Scalar W] in
/-- The ratios that limit a primal step that is derived, beside the dual steps that are given or the balanced
    ones. -/
def ratios (setup : SpdhgSetup S σ) (norms : List S) : List S :=
  List.zipWith PrimalDual.ratio (setup.scales norms)
    (setup.sigma.getD (PrimalDual.balancedDualSteps PrimalDual.tradeOff PrimalDual.margin (setup.scales norms)))

/-- What a requirement asks of a setup. -/
def Meets (setup : SpdhgSetup S σ) : Requirement → Prop
  | .termCount => setup.terms.length = setup.count
  | .weightsOnce => setup.reported = none ∨ setup.weights = none
  | .probabilitiesOnce => setup.probabilities = none ∨ setup.reported = none ∧ setup.weights = none
  | .normCount => ∀ ns ∈ setup.norms, ns.length = setup.count
  | .normSigns => ∀ ns ∈ setup.norms, ∀ n ∈ ns, Scalar.isNaN n = false ∧ ¬ n < 0
  | .weightCount => setup.resolved.length = setup.count
  | .weightTotal => setup.source.isNone →
      ¬ 1e-6 < Scalar.abs (Sampler.total (setup.resolved.map Precision.widen) - 1)
  | .weightSigns => setup.source.isNone → ∀ w ∈ setup.resolved, 0 ≤ Precision.widen w
  | .tauSign => ∀ t ∈ setup.tau, 0 < t
  | .sigmaCount => ∀ s ∈ setup.sigma, s.length = setup.count
  | .sigmaSigns => ∀ s ∈ setup.sigma, ∀ v ∈ s, 0 < v
  | .ratioAboveFloor => setup.tau.isNone →
      ∀ ns ∈ setup.norms?, ∃ r ∈ setup.ratios ns, PrimalDual.ratioFloor < r
  | .initialLength => ∀ x ∈ setup.initial, x.length = setup.operator.domainDim

/-- The error that is raised where a requirement is not met. -/
def complaint (setup : SpdhgSetup S σ) : Requirement → Error
  | .termCount => .lengthMismatch .functions setup.count setup.terms.length
  | .weightsOnce => .invalidParameter .weightsTwice
  | .probabilitiesOnce => .invalidParameter .probabilitiesTwice
  | .normCount => .lengthMismatch .norms setup.count (setup.norms.getD []).length
  | .normSigns => .invalidParameter .negativeNorm
  | .weightCount => .lengthMismatch .weights setup.count setup.resolved.length
  | .weightTotal => .invalidSampler
      (.totalNotOne (Scalar.text (Sampler.total (setup.resolved.map Precision.widen))))
  | .weightSigns => .invalidSampler .invalidWeight
  | .tauSign => .invalidParameter (.primalDualStepNotPositive .tau (setup.tau.elim "" Scalar.text))
  | .sigmaCount => .lengthMismatch .dualSteps setup.count (setup.sigma.getD []).length
  | .sigmaSigns => .invalidParameter (.primalDualStepNotPositive .sigma
      (((setup.sigma.getD []).find? fun v => ¬ 0 < v).elim "" Scalar.text))
  | .ratioAboveFloor => .invalidParameter .noPrimalStep
  | .initialLength => .lengthMismatch .initialPoint setup.operator.domainDim (setup.initial.getD []).length

/-! Each part of the building checks its requirements. -/

variable {setup : SpdhgSetup S σ}

theorem checks_terms : ChecksInOrder setup.Meets setup.complaint [.termCount] setup.checkTerms :=
  ⟨fun h => ⟨(), checkTerms_eq_ok_iff.mpr h⟩, fun h => if_neg h⟩

omit [Scalar S] [Scalar W] in
/-- The probabilities that are given are refused if they come from two places. -/
theorem resolveWeights_eq : setup.resolveWeights =
    if setup.reported = none ∨ setup.weights = none then
      if setup.probabilities = none ∨ setup.reported = none ∧ setup.weights = none then .ok setup.listed
      else .error (.invalidParameter .probabilitiesTwice)
    else .error (.invalidParameter .weightsTwice) := by
  unfold resolveWeights listed reported
  generalize (setup.source.bind IndexSource.frequencies?).map (fun ws => ws.map (Precision.narrow : W → S)) = r
  cases r <;> cases setup.weights <;> cases setup.probabilities <;> simp

theorem checks_resolveWeights :
    ChecksInOrder setup.Meets setup.complaint [.weightsOnce, .probabilitiesOnce] setup.resolveWeights := by
  rw [resolveWeights_eq]
  constructor
  · intro (hweights : setup.reported = none ∨ setup.weights = none)
    rw [if_pos hweights]
    exact ⟨fun h => ⟨_, if_pos h⟩, fun h => if_neg h⟩
  · intro hweights
    exact if_neg hweights

omit [Scalar S] [Scalar W] in
theorem eq_listed_of_resolveWeights {given : Option (List S)} (h : setup.resolveWeights = .ok given) :
    given = setup.listed := by
  rw [resolveWeights_eq] at h
  split at h
  · split at h
    · exact (Except.ok.inj h).symm
    · cases h
  · cases h

theorem checks_stack : ChecksInOrder setup.Meets setup.complaint [.normCount, .normSigns] setup.stack := by
  unfold stack
  cases hgiven : setup.norms with
  | none => exact ⟨fun _ => ⟨fun _ => ⟨_, rfl⟩, fun h => absurd (by simp [Meets, hgiven]) h⟩,
      fun h => absurd (by simp [Meets, hgiven]) h⟩
  | some ns =>
    have hcount : setup.Meets .normCount ↔ ns.length = setup.operator.blocks.length := by
      simp [Meets, hgiven, count]
    have hsigns : setup.Meets .normSigns ↔ ¬ (ns.any fun n => Scalar.isNaN n || n < 0) = true := by
      simp [Meets, hgiven]
    simp only [OperatorStack.setNorms]
    constructor
    · intro hl
      rw [dif_pos (hcount.mp hl)]
      exact ⟨fun h => ⟨_, if_neg (hsigns.mp h)⟩, fun h => if_pos (Decidable.not_not.mp (mt hsigns.mpr h))⟩
    · intro hl
      rw [dif_neg (mt hcount.mpr hl), complaint, hgiven]
      rfl

omit [IndexSource σ W] in
/-- The stack with the norms that the setup gives knows the norms of the setup. -/
theorem norms?_of_stack {k : OperatorStack S} (h : setup.stack = .ok k) :
    k.norms?.map Prod.fst = setup.norms? := by
  unfold stack at h
  unfold SpdhgSetup.norms?
  cases hgiven : setup.norms with
  | none =>
    rw [hgiven] at h
    cases h
    rfl
  | some ns =>
    rw [hgiven] at h
    simp only [OperatorStack.setNorms] at h
    split at h
    · split at h
      · cases h
      · cases h
        rfl
    · cases h

omit [IndexSource σ W] in
theorem exists_norms (h : setup.HasNorms) : ∃ ns, setup.norms? = some ns := by
  unfold SpdhgSetup.norms?
  cases hgiven : setup.norms with
  | some ns => exact ⟨ns, rfl⟩
  | none =>
    cases hknown : setup.operator.knownNorms with
    | some ns =>
      rw [OperatorStack.norms?_of_known hknown]
      exact ⟨ns, rfl⟩
    | none =>
      have hresponds := (h.resolve_left (not_not_intro hgiven)).resolve_left (not_not_intro hknown)
      obtain ⟨ns, hns⟩ := LinearOperator.exists_norms hresponds
      obtain ⟨k, hk, -, -⟩ := OperatorStack.norms?_of_estimated hknown hns
      rw [hk]
      exact ⟨ns, rfl⟩

theorem checks_completeWeights :
    ChecksInOrder setup.Meets setup.complaint [.weightCount] (setup.completeWeights setup.listed) :=
  ⟨fun h => ⟨setup.resolved, if_pos h⟩, fun h => if_neg h⟩

theorem checks_blockSource (hpos : setup.resolved ≠ []) :
    ChecksInOrder setup.Meets setup.complaint [.weightTotal, .weightSigns] (setup.blockSource setup.resolved) := by
  unfold blockSource
  cases hsource : setup.source with
  | some s => exact ⟨fun _ => ⟨fun _ => ⟨_, rfl⟩, fun h => absurd (by simp [Meets, hsource]) h⟩,
      fun h => absurd (by simp [Meets, hsource]) h⟩
  | none =>
    have hlength : (setup.resolved.map (Precision.widen : S → W)).length = setup.resolved.length :=
      List.length_map _
    have hne : setup.resolved.map (Precision.widen : S → W) ≠ [] := by simpa using hpos
    have htotal : setup.Meets .weightTotal ↔
        ¬ 1e-6 < Scalar.abs (Sampler.total (setup.resolved.map Precision.widen) - 1) := by
      simp [Meets, hsource]
    have hsigns : setup.Meets .weightSigns ↔ ∀ w ∈ setup.resolved.map (Precision.widen : S → W), 0 ≤ w := by
      simp [Meets, hsource]
    show ChecksInOrder _ _ _ (BlockSource.standard <$> Sampler.randomWithReplacement _ _ _)
    rw [Sampler.randomWithReplacement_eq hlength hne]
    constructor
    · intro h
      rw [if_neg (htotal.mp h)]
      constructor
      · intro h
        obtain ⟨prepared, hprepared⟩ := Weighted.exists_ofWeights hne (hsigns.mp h)
        rw [hprepared]
        exact ⟨_, rfl⟩
      · intro h
        rw [Weighted.ofWeights?_eq_none (mt hsigns.mpr h)]
        rfl
    · intro h
      rw [if_pos (Decidable.not_not.mp (mt htotal.mpr h))]
      rfl

theorem checks_dualSteps {norms : List S} (hlength : (setup.scales norms).length = setup.count) :
    ChecksInOrder setup.Meets setup.complaint [.sigmaCount, .sigmaSigns]
      (PrimalDual.dualSteps (setup.scales norms) setup.sigma setup.tau) := by
  unfold PrimalDual.dualSteps
  cases hsigma : setup.sigma with
  | none =>
    refine ⟨fun _ => ⟨fun _ => ?_, fun h => absurd (by simp [Meets, hsigma]) h⟩,
      fun h => absurd (by simp [Meets, hsigma]) h⟩
    cases setup.tau with
    | none => exact ⟨_, rfl⟩
    | some t => exact ⟨_, rfl⟩
  | some s =>
    have hcount : setup.Meets .sigmaCount ↔ s.length = (setup.scales norms).length := by
      simp [Meets, hsigma, hlength]
    have hsigns : setup.Meets .sigmaSigns ↔ ∀ v ∈ s, 0 < v := by
      simp [Meets, hsigma]
    constructor
    · intro h
      simp only [if_neg (not_not_intro (hcount.mp h))]
      constructor
      · intro h
        rw [PrimalDual.requireAllPositive_eq_ok_iff.mpr (hsigns.mp h)]
        exact ⟨s, rfl⟩
      · intro h
        rw [PrimalDual.requireAllPositive_eq_error (mt hsigns.mpr h), complaint, hsigma]
        rfl
    · intro h
      simp only [if_pos (mt hcount.mpr h)]
      rw [complaint, hsigma, hlength]
      rfl

theorem checks_resolveSteps {norms : List S} (hnorms : setup.norms? = some norms)
    (hlength : (setup.scales norms).length = setup.count) :
    ChecksInOrder setup.Meets setup.complaint [.tauSign, .sigmaCount, .sigmaSigns, .ratioAboveFloor]
      (PrimalDual.resolveSteps (setup.scales norms) setup.sigma setup.tau) := by
  have hdual := checks_dualSteps hlength
  unfold PrimalDual.resolveSteps
  cases htau : setup.tau with
  | some t =>
    have hsign : setup.Meets .tauSign ↔ 0 < t := by simp [Meets, htau]
    have hpositive : ChecksInOrder setup.Meets setup.complaint [.tauSign]
        (PrimalDual.requirePositive .tau t) := by
      refine ⟨fun h => ⟨(), PrimalDual.requirePositive_eq_ok_iff.mpr (hsign.mp h)⟩, fun h => ?_⟩
      rw [PrimalDual.requirePositive, if_neg (mt hsign.mpr h), complaint, htau]
      rfl
    rw [htau] at hdual
    refine hpositive.bind fun _ _ => hdual.bind fun s _ => ⟨fun _ => ⟨(s, t), rfl⟩, fun h => ?_⟩
    exact absurd (by simp [Meets, htau]) h
  | none =>
    have hnothing : ChecksInOrder setup.Meets setup.complaint [.tauSign] (.ok () : Except Error Unit) :=
      ⟨fun _ => ⟨(), rfl⟩, fun h => absurd (by simp [Meets, htau]) h⟩
    rw [htau] at hdual
    refine hnothing.bind fun _ _ => hdual.bind fun s hs => ?_
    obtain rfl := PrimalDual.eq_getD_of_dualSteps hs
    have hratio : setup.Meets .ratioAboveFloor ↔ ∃ r ∈ setup.ratios norms, PrimalDual.ratioFloor < r := by
      simp [Meets, htau, hnorms]
    have hprimal : ChecksInOrder setup.Meets setup.complaint [.ratioAboveFloor]
        (PrimalDual.primalStep PrimalDual.tradeOff PrimalDual.margin (setup.scales norms) _) :=
      ⟨fun h => PrimalDual.exists_primalStep (hratio.mp h),
        fun h => PrimalDual.primalStep_eq_error (mt hratio.mpr h)⟩
    exact hprimal.bind fun t _ => ⟨_, rfl⟩

theorem checks_start : ChecksInOrder setup.Meets setup.complaint [.initialLength] setup.start := by
  unfold start
  cases hinitial : setup.initial with
  | none => exact ⟨fun _ => ⟨_, rfl⟩, fun h => absurd (by simp [Meets, hinitial]) h⟩
  | some x =>
    have hlength : setup.Meets .initialLength ↔ x.length = setup.operator.domainDim := by
      simp [Meets, hinitial]
    refine ⟨fun h => ⟨x, if_pos (hlength.mp h)⟩, fun h => ?_⟩
    rw [complaint, hinitial]
    exact if_neg (mt hlength.mpr h)

/-- **Building a method checks the requirements in order,** if the norms of the blocks can be had. -/
theorem checks_build (hnorms : setup.HasNorms) :
    ChecksInOrder setup.Meets (fun r => .error (setup.complaint r)) Requirement.inOrder setup.build := by
  unfold build
  refine checks_terms.lift.bind fun _ _ => ?_
  refine checks_resolveWeights.lift.bind fun given hgiven => ?_
  obtain rfl := eq_listed_of_resolveWeights (Fault.lift_eq_ok_iff.mp hgiven)
  refine checks_stack.lift.bind fun stack hstack => ?_
  refine checks_completeWeights.lift.bind fun weights hweights => ?_
  obtain ⟨hresolved, hcount⟩ := completeWeights_eq_ok_iff.mp (Fault.lift_eq_ok_iff.mp hweights)
  obtain rfl : weights = setup.resolved := hresolved
  have hne : setup.resolved ≠ [] := by
    intro hnil
    rw [hnil] at hcount
    exact setup.operator.blocks_ne_nil (List.eq_nil_of_length_eq_zero hcount.symm)
  refine (checks_blockSource hne).lift.bind fun source _ => ?_
  -- the norms can be had, so that reading them is no requirement
  rw [Fault.lift_eq_ok_iff] at hstack
  obtain ⟨_, hknown⟩ := exists_norms hnorms
  obtain ⟨⟨norms, stack'⟩, hread, rfl⟩ := Option.map_eq_some_iff.mp ((norms?_of_stack hstack).trans hknown)
  have hlength : (setup.scales norms).length = setup.count := by
    refine Vec.length_zipWith_of_length hcount ?_
    exact (OperatorStack.blocks_of_norms? hread).2.2.trans (congrArg List.length (blocks_of_stack hstack).1)
  have hreads : ChecksInOrder setup.Meets (fun r => .error (setup.complaint r)) [] (Fault.ofOption stack.norms?) :=
    ⟨_, Fault.ofOption_eq_ok_iff.mpr hread⟩
  refine hreads.bind fun read hsame => ?_
  obtain rfl := Option.some.inj (hread.symm.trans (Fault.ofOption_eq_ok_iff.mp hsame))
  refine (checks_resolveSteps hknown hlength).lift.bind fun steps _ => ?_
  refine checks_start.lift.bind fun x _ => ⟨_, rfl⟩

/-- The requirement is the first one that the setup does not meet. -/
def ViolatesFirst (setup : SpdhgSetup S σ) (r : Requirement) : Prop :=
  (∃ before after, Requirement.inOrder = before ++ r :: after ∧ ∀ q ∈ before, setup.Meets q) ∧
    ¬ setup.Meets r

theorem exists_build_iff (hnorms : setup.HasNorms) : (∃ m, setup.build = .ok m) ↔ ∀ r, setup.Meets r := by
  rw [(checks_build hnorms).succeeds_iff]
  exact ⟨fun h r => h r r.mem_inOrder, fun h r _ => h r⟩

theorem build_eq_error_iff (hnorms : setup.HasNorms) {fault : Fault} :
    setup.build = .error fault ↔ ∃ r, setup.ViolatesFirst r ∧ fault = .error (setup.complaint r) := by
  rw [(checks_build hnorms).eq_error_iff]
  constructor
  · rintro ⟨before, r, after, horder, hbefore, hr, he⟩
    exact ⟨r, ⟨⟨before, after, horder, hbefore⟩, hr⟩, he⟩
  · rintro ⟨r, ⟨⟨before, after, horder, hbefore⟩, hr⟩, he⟩
    exact ⟨before, r, after, horder, hbefore, hr, he⟩

omit [Scalar S] [Scalar W] [Precision S W] [IndexSource σ W] in
/-- In exact arithmetic the probabilities of the default source have to sum to one up to a millionth. -/
theorem meets_weightTotal_iff [IndexSource σ ℝ] {setup : SpdhgSetup ℝ σ} :
    setup.Meets .weightTotal ↔ (setup.source.isNone → |setup.resolved.sum - 1| ≤ 1e-6) := by
  have htotal : Sampler.total (setup.resolved.map Precision.widen) = setup.resolved.sum :=
    (congrArg Sampler.total (List.map_id' setup.resolved)).trans (Vec.foldl_tail_eq_sum _)
  rw [Meets, htotal, scalar_abs, not_lt]

end SpdhgSetup

end Splitting
