import Splitting.Proofs.PrimalDual.OrderFree
import Splitting.Proofs.PrimalDual.Requirements
import Splitting.Proofs.Relabelling

/-!
# `Splitting.Proofs.PrimalDual.RelabelledSetup` — one problem with its blocks in two orders

A setup lists what belongs to the blocks several times over: their terms, operators, norms, probabilities and dual
steps, each in a list of its own. If all lists are put into another order by one permutation, and the source of
indices is told of it, nothing else about the method changes. This module says so of the steps and of building; the
calls follow in another one.

* `SucceedTogether` — two computations that both succeed with related values, or both fail;
* `PrimalDual.resolveSteps_together`, `PrimalDual.stepsFromRatio_together` — the steps;
* `DrawsRelabelled` — two sources of which one always names what the other does, under the other index;
* `Spdhg.Relabelled`, `SpdhgSetup.Relabelled` — two methods, and two setups, with their blocks in two orders;
* `SpdhgSetup.Relabelled.build` — such setups build such methods.
-/

namespace Splitting

variable {S W σ σ' : Type} {π : Equiv.Perm ℕ}

/-! ## Computations that succeed together -/

/-- Both computations succeed with related values, or both fail, for whatever cause. -/
inductive SucceedTogether {ε ε' α β : Type} (R : α → β → Prop) : Except ε α → Except ε' β → Prop where
  | ok {a : α} {b : β} : R a b → SucceedTogether R (.ok a) (.ok b)
  | error {e : ε} {e' : ε'} : SucceedTogether R (.error e) (.error e')

namespace SucceedTogether

variable {ε ε' α β γ δ : Type} {R : α → β → Prop} {Q : γ → δ → Prop} {c : Except ε α} {c' : Except ε' β}

theorem bind {f : α → Except ε γ} {g : β → Except ε' δ} (h : SucceedTogether R c c')
    (hnext : ∀ a b, R a b → SucceedTogether Q (f a) (g b)) : SucceedTogether Q (c >>= f) (c' >>= g) := by
  cases h with
  | ok hab => exact hnext _ _ hab
  | error => exact .error

theorem map {f : α → γ} {g : β → δ} (h : SucceedTogether R c c') (hfg : ∀ a b, R a b → Q (f a) (g b)) :
    SucceedTogether Q (f <$> c) (g <$> c') := by
  cases h with
  | ok hab => exact .ok (hfg _ _ hab)
  | error => exact .error

/-- What the first computation gives may tell more of the relation. -/
theorem imp {R' : α → β → Prop} (h : SucceedTogether R c c') (himp : ∀ a b, c = .ok a → R a b → R' a b) :
    SucceedTogether R' c c' := by
  cases h with
  | ok hab => exact .ok (himp _ _ rfl hab)
  | error => exact .error

theorem refl (c : Except ε α) : SucceedTogether Eq c c := by
  cases c with
  | ok a => exact .ok rfl
  | error e => exact .error

theorem lift {c : Except Error α} {c' : Except Error β} (h : SucceedTogether R c c') :
    SucceedTogether R (Fault.lift c) (Fault.lift c') := by
  cases h with
  | ok hab => exact .ok hab
  | error => exact .error

theorem ofOption {o : Option α} {o' : Option β} (h : Option.Rel R o o') :
    SucceedTogether R (Fault.ofOption o) (Fault.ofOption o') := by
  cases h with
  | some hab => exact .ok hab
  | none => exact .error

/-- A check of something that holds of both or of neither. -/
theorem check {p p' : Prop} [Decidable p] [Decidable p'] {a : α} {b : β} {e : ε} {e' : ε'} (hp : p ↔ p')
    (hab : R a b) : SucceedTogether R (if p then .ok a else .error e) (if p' then .ok b else .error e') := by
  by_cases h : p
  · rw [if_pos h, if_pos (hp.mp h)]
    exact .ok hab
  · rw [if_neg h, if_neg (mt hp.mpr h)]
    exact .error

theorem of_ok {a : α} (h : SucceedTogether R (.ok a : Except ε α) c') : ∃ b, c' = .ok b ∧ R a b := by
  cases h with
  | ok hab => exact ⟨_, rfl, hab⟩

theorem exists_ok_iff (h : SucceedTogether R c c') : (∃ a, c = .ok a) ↔ ∃ b, c' = .ok b := by
  cases h with
  | ok _ => exact iff_of_true ⟨_, rfl⟩ ⟨_, rfl⟩
  | error => exact iff_of_false (by simp) (by simp)

end SucceedTogether

/-! ## The steps -/

namespace PrimalDual

variable [Scalar S] {scales scales' : List (DualScale S)} {given given' : Option (List S)} {sigma sigma' : List S}

theorem dualSteps_together (hscales : Relabels π scales scales') (hgiven : Option.Rel (Relabels π) given given')
    (tau : Option S) :
    SucceedTogether (Relabels π) (dualSteps scales given tau) (dualSteps scales' given' tau) := by
  cases hgiven with
  | none =>
    cases tau with
    | none => exact .ok (hscales.map _)
    | some t => exact .ok (hscales.map _)
  | @some s s' hs =>
    simp only [dualSteps, hs.length_eq, hscales.length_eq]
    by_cases hl : s.length ≠ scales.length
    · rw [if_pos hl, if_pos hl]
      exact .error
    · rw [if_neg hl, if_neg hl]
      by_cases hpos : ∀ v ∈ s, 0 < v
      · have hpos' : ∀ v ∈ s', 0 < v := fun v hv => hpos v (hs.mem_iff.mp hv)
        rw [requireAllPositive_eq_ok_iff.mpr hpos, requireAllPositive_eq_ok_iff.mpr hpos']
        exact .ok hs
      · have hneg' : ¬ ∀ v ∈ s', 0 < v := fun hall => hpos fun v hv => hall v (hs.mem_iff.mpr hv)
        rw [requireAllPositive_eq_error hpos, requireAllPositive_eq_error hneg']
        exact .error

variable [OrderFree S]

/-- The least ratio is one of all blocks. -/
theorem primalStep_of_relabels (gamma rho : S) (hscales : Relabels π scales scales')
    (hsigma : Relabels π sigma sigma') : primalStep gamma rho scales' sigma' = primalStep gamma rho scales sigma := by
  have hratios := (hscales.zipWith hsigma ratio).perm.filter fun r => ratioFloor < r
  simp only [primalStep, leastRatio?, least?_perm hratios]

/-- Steps of which the primal ones are equal. -/
def StepsRelabelled (π : Equiv.Perm ℕ) (steps steps' : List S × S) : Prop :=
  Relabels π steps.1 steps'.1 ∧ steps'.2 = steps.2

theorem withPrimalStep_together (gamma rho : S) (hscales : Relabels π scales scales')
    (hsigma : Relabels π sigma sigma') :
    SucceedTogether (StepsRelabelled π) (do
      let t ← primalStep gamma rho scales sigma
      .ok (sigma, t)) (do
      let t ← primalStep gamma rho scales' sigma'
      .ok (sigma', t)) := by
  rw [primalStep_of_relabels gamma rho hscales hsigma]
  refine (SucceedTogether.refl _).bind ?_
  rintro t _ rfl
  exact .ok ⟨hsigma, rfl⟩

/-- **The steps,** given and derived. -/
theorem resolveSteps_together (hscales : Relabels π scales scales') (hgiven : Option.Rel (Relabels π) given given')
    (tau : Option S) :
    SucceedTogether (StepsRelabelled π) (resolveSteps scales given tau) (resolveSteps scales' given' tau) := by
  unfold resolveSteps
  cases tau with
  | some t =>
    refine (SucceedTogether.refl _).bind fun _ _ _ => ?_
    exact (dualSteps_together hscales hgiven _).bind fun sigma sigma' hsigma => .ok ⟨hsigma, rfl⟩
  | none =>
    refine (SucceedTogether.refl _).bind fun _ _ _ => ?_
    refine (dualSteps_together hscales hgiven _).bind fun sigma sigma' hsigma => ?_
    exact withPrimalStep_together tradeOff margin hscales hsigma

/-- **The steps that belong to a trade-off and a margin.** -/
theorem stepsFromRatio_together (hscales : Relabels π scales scales') (gamma rho : S) :
    SucceedTogether (StepsRelabelled π) (stepsFromRatio scales gamma rho) (stepsFromRatio scales' gamma rho) := by
  unfold stepsFromRatio
  refine (SucceedTogether.refl _).bind fun _ _ _ => ?_
  refine (SucceedTogether.refl _).bind fun _ _ _ => ?_
  exact withPrimalStep_together gamma rho hscales (hscales.map _)

end PrimalDual

/-! ## The source of indices -/

/-- The index that a source names after `k` others. -/
def IndexSource.drawn [IndexSource σ W] (s : σ) : ℕ → ℕ
  | 0 => (next s).1
  | k + 1 => drawn (next s).2 k

/-- Whenever the first source names an index, the second one names what the permutation makes of it. -/
def DrawsRelabelled [IndexSource σ W] [IndexSource σ' W] (π : Equiv.Perm ℕ) (s : σ) (s' : σ') : Prop :=
  ∀ k, IndexSource.drawn s' k = π (IndexSource.drawn s k)

theorem BlockSource.drawn_given [Scalar W] [IndexSource σ W] (s : σ) (k : ℕ) :
    IndexSource.drawn (BlockSource.given s : BlockSource σ W) k = IndexSource.drawn s k := by
  induction k generalizing s with
  | zero => rfl
  | succ k ih => exact ih (IndexSource.next s).2

/-! ## The operators -/

namespace LinearOperator

variable [Scalar S] [Scalar W] [Precision S W] {ops ops' : List (LinearOperator S)}

theorem exists_norms?_of_relabels (h : Relabels π ops ops') {ns : List S} (hns : norms? ops = some ns) :
    ∃ ns', norms? ops' = some ns' ∧ Relabels π ns ns' := by
  obtain ⟨ns', hns'⟩ : ∃ ns', norms? ops' = some ns' := by
    rw [exists_norms?_iff]
    intro op hop
    exact exists_norms?_iff.mp ⟨ns, hns⟩ op (h.mem_iff.mp hop)
  have hnorms := h.map norm?
  rw [norms?_eq_some_iff.mp hns, norms?_eq_some_iff.mp hns'] at hnorms
  exact ⟨ns', hns', hnorms.of_map (Option.some_injective S)⟩

/-- The norms of operators are known or estimated one by one. -/
theorem norms?_relabels (h : Relabels π ops ops') : Option.Rel (Relabels π) (norms? ops) (norms? ops') := by
  cases hns : norms? ops with
  | some ns =>
    obtain ⟨ns', hns', hrelabels⟩ := exists_norms?_of_relabels h hns
    rw [hns']
    exact .some hrelabels
  | none =>
    cases hns' : norms? ops' with
    | none => exact .none
    | some ns' =>
      obtain ⟨ns, hsome, -⟩ := exists_norms?_of_relabels h.symm hns'
      rw [hns] at hsome
      cases hsome

end LinearOperator

namespace OperatorStack

/-- Two stacks of the same operators in two orders, with what is known of their norms. -/
structure Relabelled (π : Equiv.Perm ℕ) (k k' : OperatorStack S) : Prop where
  blocks : Relabels π k.blocks k'.blocks
  knownNorms : Option.Rel (Relabels π) k.knownNorms k'.knownNorms

namespace Relabelled

variable {k k' : OperatorStack S}

/-- They act on the same space. -/
theorem domainDim_eq (h : k.Relabelled π k') : k'.domainDim = k.domainDim := by
  obtain ⟨op, rest, hk⟩ := List.exists_cons_of_ne_nil k.blocks_ne_nil
  have hop : op ∈ k.blocks := hk ▸ List.mem_cons_self
  rw [← k.domainDim_of_mem op hop, ← k'.domainDim_of_mem op (h.blocks.mem_iff.mpr hop)]

variable [Scalar S]

theorem setNorms (h : k.Relabelled π k') {ns ns' : List S} (hns : Relabels π ns ns') :
    SucceedTogether (Relabelled π) (k.setNorms ns) (k'.setNorms ns') := by
  simp only [OperatorStack.setNorms, hns.length_eq, h.blocks.length_eq, ← hns.perm.any_eq]
  by_cases hl : ns.length = k.blocks.length
  · rw [dif_pos hl, dif_pos hl]
    by_cases hneg : (ns.any fun n => Scalar.isNaN n || decide (n < 0)) = true
    · rw [if_pos hneg, if_pos hneg]
      exact .error
    · rw [if_neg hneg, if_neg hneg]
      exact .ok ⟨h.blocks, .some hns⟩
  · rw [dif_neg hl, dif_neg hl]
    exact .error

/-- Norms that are not known are estimated in both stacks. -/
theorem norms? [Scalar W] [Precision S W] (h : k.Relabelled π k') :
    Option.Rel (fun r r' => Relabels π r.1 r'.1 ∧ r.2.Relabelled π r'.2) k.norms? k'.norms? := by
  have hknown := h.knownNorms
  generalize hns : k.knownNorms = known, hns' : k'.knownNorms = known' at hknown
  cases hknown with
  | some hrelabels =>
    rw [norms?_of_known hns, norms?_of_known hns']
    exact .some ⟨hrelabels, h⟩
  | none =>
    have hestimated := LinearOperator.norms?_relabels h.blocks
    generalize he : LinearOperator.norms? k.blocks = o, he' : LinearOperator.norms? k'.blocks = o' at hestimated
    cases hestimated with
    | some hrelabels =>
      obtain ⟨r, hr, hblocks, hknows⟩ := norms?_of_estimated hns he
      obtain ⟨r', hr', hblocks', hknows'⟩ := norms?_of_estimated hns' he'
      rw [hr, hr']
      refine .some ⟨hrelabels, ?_, ?_⟩
      · rw [hblocks, hblocks']
        exact h.blocks
      · rw [hknows, hknows']
        exact .some hrelabels
    | none =>
      rw [norms?_of_unknown hns he, norms?_of_unknown hns' he']
      exact .none

end Relabelled

end OperatorStack

/-! ## Methods and setups -/

/-- Two methods that differ in the order of their blocks, in their buffers for images and for sums of adjoints, and
    in their sources, where the second source knows of the other order. -/
structure Spdhg.Relabelled [IndexSource σ W] [IndexSource σ' W] (π : Equiv.Perm ℕ) (m : Spdhg S σ)
    (m' : Spdhg S σ') : Prop where
  /-- The permutation is one of the blocks. -/
  fixes : ∀ i, m.blocks.length ≤ i → π i = i
  blocks : Relabels π (m.blocks.map DualBlock.imageless) (m'.blocks.map DualBlock.imageless)
  domainDim : m'.domainDim = m.domainDim
  primalTerm : m'.primalTerm = m.primalTerm
  draws : DrawsRelabelled π m.source m'.source
  tau : m'.tau = m.tau
  x : m'.x = m.x
  scratch : m'.scratch.length = m.scratch.length
  z : m'.z = m.z
  zbar : m'.zbar = m.zbar
  losses : m'.losses = m.losses
  iteration : m'.iteration = m.iteration

/-- Two setups that differ in the order of their blocks: in the terms, the operators and their norms, the
    probabilities and the dual steps, as far as these are given, and in a source that reports no frequencies and
    knows of the other order. -/
structure SpdhgSetup.Relabelled [IndexSource σ W] [IndexSource σ' W] (π : Equiv.Perm ℕ) (setup : SpdhgSetup S σ)
    (setup' : SpdhgSetup S σ') : Prop where
  /-- The permutation is one of the blocks. -/
  fixes : ∀ i, setup.count ≤ i → π i = i
  terms : Relabels π setup.terms setup'.terms
  primalTerm : setup'.primalTerm = setup.primalTerm
  operator : setup.operator.Relabelled π setup'.operator
  initial : setup'.initial = setup.initial
  sigma : Option.Rel (Relabels π) setup.sigma setup'.sigma
  tau : setup'.tau = setup.tau
  weights : Option.Rel (Relabels π) setup.weights setup'.weights
  probabilities : Option.Rel (Relabels π) setup.probabilities setup'.probabilities
  norms : Option.Rel (Relabels π) setup.norms setup'.norms
  source : ∃ s s', setup.source = some s ∧ setup'.source = some s' ∧ IndexSource.frequencies? s = none ∧
    IndexSource.frequencies? s' = none ∧ DrawsRelabelled π s s'

namespace SpdhgSetup

variable [Scalar S]

variable {fs fs' : List (Functional S)} {ks ks' : List (LinearOperator S)} {ps ps' ns ns' ss ss' : List S}

/-- A block is made of the entries of five lists. -/
theorem blocks_eq_zipWith : blocks fs ks ps ns ss = List.zipWith
    (fun (c : Functional S × LinearOperator S) (q : S × S × S) =>
      let zeros := Vec.zeros c.2.rangeDim
      ⟨c.1, c.2, q.1, q.2.1, q.2.2, zeros, zeros, zeros⟩) (fs.zip ks) (ps.zip (ns.zip ss)) := by
  induction fs generalizing ks ps ns ss with
  | nil => rfl
  | cons f fs ih =>
    cases ks with
    | nil => rfl
    | cons k ks =>
      cases ps with
      | nil => rfl
      | cons p ps =>
        cases ns with
        | nil => rfl
        | cons n ns =>
          cases ss with
          | nil => rfl
          | cons s ss => rw [blocks, ih]; rfl

theorem blocks_relabels (hf : Relabels π fs fs') (hk : Relabels π ks ks') (hp : Relabels π ps ps')
    (hn : Relabels π ns ns') (hs : Relabels π ss ss') :
    Relabels π (blocks fs ks ps ns ss) (blocks fs' ks' ps' ns' ss') := by
  rw [blocks_eq_zipWith, blocks_eq_zipWith]
  exact (hf.zipWith hk _).zipWith (hp.zipWith (hn.zipWith hs _) _) _

theorem length_blocks_of_build [Scalar W] [Precision S W] [IndexSource σ W] {setup : SpdhgSetup S σ}
    {m : Spdhg S (BlockSource σ W)} (h : setup.build = .ok m) : m.blocks.length = setup.count := by
  obtain ⟨given, ws, source, ns, steps, x, -, -, -, -, -, ⟨hf, hp, hn, hs, -⟩, rfl⟩ := build_eq_ok h
  have hweights := congrArg List.length (map_blocks_weight hf hp hn hs)
  exact ((List.length_map _).symm.trans hweights).trans hp

namespace Relabelled

variable [Scalar W] [Precision S W] [IndexSource σ W] [IndexSource σ' W] {setup : SpdhgSetup S σ}
  {setup' : SpdhgSetup S σ'}

omit [Scalar S] [Scalar W] [Precision S W] in
theorem count_eq (h : setup.Relabelled π setup') : setup'.count = setup.count := h.operator.blocks.length_eq

omit [Scalar S] [Scalar W] in
/-- The source takes no part in where the probabilities come from. -/
theorem resolveWeights (h : setup.Relabelled π setup') :
    SucceedTogether (Option.Rel (Relabels π)) setup.resolveWeights setup'.resolveWeights := by
  obtain ⟨s, s', hs, hs', hreports, hreports', -⟩ := h.source
  have hreported : setup.reported = none := by rw [reported, hs, Option.bind_some, hreports, Option.map_none]
  have hreported' : setup'.reported = none := by rw [reported, hs', Option.bind_some, hreports', Option.map_none]
  have hweights := h.weights
  have hprobabilities := h.probabilities
  rw [resolveWeights_eq, resolveWeights_eq, listed, listed, hreported, hreported']
  generalize setup.weights = ws, setup'.weights = ws' at hweights
  generalize setup.probabilities = ps, setup'.probabilities = ps' at hprobabilities
  cases hweights with
  | none =>
    cases hprobabilities with
    | none => exact .ok .none
    | some hps => exact .ok (.some hps)
  | some hws =>
    cases hprobabilities with
    | none => exact .ok (.some hws)
    | some hps => exact .error

omit [Scalar W] [Precision S W] in
theorem stack (h : setup.Relabelled π setup') :
    SucceedTogether (OperatorStack.Relabelled π) setup.stack setup'.stack := by
  have hnorms := h.norms
  unfold SpdhgSetup.stack
  generalize setup.norms = ns, setup'.norms = ns' at hnorms
  cases hnorms with
  | none => exact .ok h.operator
  | some hns => exact h.operator.setNorms hns

omit [Scalar W] [Precision S W] in
theorem completeWeights (h : setup.Relabelled π setup') {given given' : Option (List S)}
    (hgiven : Option.Rel (Relabels π) given given') :
    SucceedTogether (Relabels π) (setup.completeWeights given) (setup'.completeWeights given') := by
  have hweights : Relabels π (given.getD (List.replicate setup.count (1 / (setup.count : S))))
      (given'.getD (List.replicate setup.count (1 / (setup.count : S)))) := by
    cases hgiven with
    | none => exact .replicate h.fixes _
    | some hws => exact hws
  simp only [SpdhgSetup.completeWeights, h.count_eq]
  exact .check (by rw [hweights.length_eq]) hweights

omit [Scalar S] in
theorem blockSource (h : setup.Relabelled π setup') (ws ws' : List S) :
    SucceedTogether (DrawsRelabelled π) (setup.blockSource ws) (setup'.blockSource ws') := by
  obtain ⟨s, s', hs, hs', -, -, hdraws⟩ := h.source
  unfold SpdhgSetup.blockSource
  rw [hs, hs']
  refine .ok fun k => ?_
  rw [BlockSource.drawn_given, BlockSource.drawn_given, hdraws]

omit [Scalar W] [Precision S W] in
theorem start (h : setup.Relabelled π setup') : setup'.start = setup.start := by
  unfold SpdhgSetup.start
  rw [h.initial, h.operator.domainDim_eq]

/-- **Setups with their blocks in two orders** build methods with their blocks in these orders, or neither builds
    any. -/
theorem build [OrderFree S] (h : setup.Relabelled π setup') :
    SucceedTogether (Spdhg.Relabelled π) setup.build setup'.build := by
  have hbuilt : SucceedTogether (fun m m' => (∀ i, m.blocks.length ≤ i → π i = i) → m.Relabelled π m')
      setup.build setup'.build := by
    unfold SpdhgSetup.build
    refine (SucceedTogether.lift (R := fun _ _ => True) ?_).bind fun _ _ _ => ?_
    · rw [SpdhgSetup.checkTerms, SpdhgSetup.checkTerms, h.count_eq]
      exact .check (by rw [h.terms.length_eq]) trivial
    refine h.resolveWeights.lift.bind fun given given' hgiven => ?_
    refine h.stack.lift.bind fun k k' hk => ?_
    refine (h.completeWeights hgiven).lift.bind fun ws ws' hws => ?_
    refine (h.blockSource ws ws').lift.bind fun s s' hs => ?_
    refine (SucceedTogether.ofOption hk.norms?).bind ?_
    rintro ⟨ns, k⟩ ⟨ns', k'⟩ ⟨hns, hk⟩
    rw [h.tau]
    refine (PrimalDual.resolveSteps_together (hws.zipWith hns DualScale.mk) h.sigma _).lift.bind ?_
    rintro ⟨sigma, tau⟩ ⟨sigma', tau'⟩ ⟨hsigma, htau⟩
    rw [h.start]
    refine (SucceedTogether.refl _).bind ?_
    rintro x _ rfl
    have hblocks := blocks_relabels h.terms hk.blocks hws hns hsigma
    have hdim := hk.domainDim_eq
    exact .ok fun hfixes => ⟨hfixes, hblocks.map _, hdim, h.primalTerm, hs, htau, rfl, by rw [hdim],
      congrArg Vec.zeros hdim, congrArg Vec.zeros hdim, rfl, rfl⟩
  -- there are as many blocks as the setup has, whose indices the permutation permutes
  refine hbuilt.imp fun m m' hm hrelabelled => hrelabelled ?_
  rw [length_blocks_of_build hm]
  exact h.fixes

end Relabelled

end SpdhgSetup

end Splitting
