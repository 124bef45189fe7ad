import Splitting.PrimalDual.Setup
import Splitting.Proofs.PrimalDual.Frames

/-!
# `Splitting.Proofs.PrimalDual.Shape` — the lengths that every reachable state has

A primal-dual method that was built keeps one block for each operator, primal vectors of the length of the
domain, and for each block three vectors of the length of its range, whatever is done to it afterwards.

* `SpdhgSetup.build_eq_ok` — the parts of a method that was built;
* `Spdhg.Call`, `Spdhg.perform`, `Spdhg.Reachable` — the calls by which a user moves the method, how each
  ends, and where they lead;
* `Spdhg.Reachable.data` — the problem itself stays as it was;
* `DualBlock.Shaped`, `Spdhg.Shaped` — the lengths;
* `SpdhgSetup.shaped_of_build`, `Spdhg.Shaped.perform` — they hold at first and after every call.
-/

namespace Splitting

variable {S W σ : Type}

/-! ## The steps come one for each block -/

namespace PrimalDual

variable [Scalar S]

theorem length_of_dualSteps {blocks : List (DualScale S)} {sigma : Option (List S)} {tau : Option S}
    {s : List S} (h : dualSteps blocks sigma tau = .ok s) : s.length = blocks.length := by
  unfold dualSteps at h
  split at h
  · next given _ =>
    split at h
    · cases h
    · next hlen =>
      split at h
      · cases h
      · cases h
        exact Decidable.not_not.mp hlen
  · cases h
    exact List.length_map _
  · cases h
    exact List.length_map _

theorem length_of_resolveSteps {blocks : List (DualScale S)} {sigma : Option (List S)} {tau : Option S}
    {steps : List S × S} (h : resolveSteps blocks sigma tau = .ok steps) :
    steps.1.length = blocks.length := by
  unfold resolveSteps at h
  cases tau with
  | some t =>
    obtain ⟨⟨⟩, -, h⟩ := Except.bind_eq_ok_iff.mp h
    obtain ⟨s, hs, h⟩ := Except.bind_eq_ok_iff.mp h
    cases h
    exact length_of_dualSteps hs
  | none =>
    obtain ⟨⟨⟩, -, h⟩ := Except.bind_eq_ok_iff.mp h
    obtain ⟨s, hs, h⟩ := Except.bind_eq_ok_iff.mp h
    obtain ⟨t, -, h⟩ := Except.bind_eq_ok_iff.mp h
    cases h
    exact length_of_dualSteps hs

theorem length_of_stepsFromRatio {blocks : List (DualScale S)} {gamma rho : S} {steps : List S × S}
    (h : stepsFromRatio blocks gamma rho = .ok steps) : steps.1.length = blocks.length := by
  unfold stepsFromRatio at h
  obtain ⟨⟨⟩, -, h⟩ := Except.bind_eq_ok_iff.mp h
  obtain ⟨⟨⟩, -, h⟩ := Except.bind_eq_ok_iff.mp h
  obtain ⟨t, -, h⟩ := Except.bind_eq_ok_iff.mp h
  cases h
  exact List.length_map _

end PrimalDual

/-! ## What a setup builds -/

namespace OperatorStack

variable [Scalar S]

theorem blocks_of_setNorms {k k' : OperatorStack S} {ns : List S} (h : k.setNorms ns = .ok k') :
    k'.blocks = k.blocks ∧ k'.domainDim = k.domainDim := by
  unfold setNorms at h
  split at h
  · split at h
    · cases h
    · cases h
      exact ⟨rfl, rfl⟩
  · cases h

theorem blocks_of_norms? [Scalar W] [Precision S W] {k k' : OperatorStack S} {ns : List S}
    (h : k.norms? = some (ns, k')) :
    k'.blocks = k.blocks ∧ k'.domainDim = k.domainDim ∧ ns.length = k.blocks.length := by
  unfold norms? at h
  split at h
  · next ms hms =>
    cases h
    exact ⟨rfl, rfl, k.length_knownNorms _ hms⟩
  · split at h
    · cases h
    · next ms hms =>
      cases h
      exact ⟨rfl, rfl, LinearOperator.length_of_norms? hms⟩

end OperatorStack

namespace SpdhgSetup

variable [Scalar S]

/-- Blocks come one for each entry of five lists of one length. -/
theorem map_blocks_eq_zipWith {β : Type} {g : DualBlock S → β} {fs : List (Functional S)}
    {ks : List (LinearOperator S)} {ps ns ss : List S} (hf : fs.length = ks.length)
    (hp : ps.length = ks.length) (hn : ns.length = ks.length) (hs : ss.length = ks.length)
    {h : Functional S → LinearOperator S → β} (hg : ∀ f k p n s,
      g ⟨f, k, p, n, s, Vec.zeros k.rangeDim, Vec.zeros k.rangeDim, Vec.zeros k.rangeDim⟩ = h f k) :
    (blocks fs ks ps ns ss).map g = List.zipWith h fs ks := by
  induction ks generalizing fs ps ns ss with
  | nil =>
    obtain rfl := List.eq_nil_of_length_eq_zero hf
    rfl
  | cons k ks ih =>
    obtain ⟨f, fs, rfl⟩ := List.exists_cons_of_length_eq_add_one hf
    obtain ⟨p, ps, rfl⟩ := List.exists_cons_of_length_eq_add_one hp
    obtain ⟨n, ns, rfl⟩ := List.exists_cons_of_length_eq_add_one hn
    obtain ⟨s, ss, rfl⟩ := List.exists_cons_of_length_eq_add_one hs
    simp only [List.length_cons, Nat.add_right_cancel_iff] at hf hp hn hs
    rw [blocks, List.map_cons, List.zipWith_cons_cons, ih hf hp hn hs, hg]

/-- What depends on the operators only comes one for each operator. -/
theorem map_blocks_eq {β : Type} {g : DualBlock S → β} {fs : List (Functional S)}
    {ks : List (LinearOperator S)} {ps ns ss : List S} (hf : fs.length = ks.length)
    (hp : ps.length = ks.length) (hn : ns.length = ks.length) (hs : ss.length = ks.length)
    {h : LinearOperator S → β}
    (hg : ∀ f k p n s,
      g ⟨f, k, p, n, s, Vec.zeros k.rangeDim, Vec.zeros k.rangeDim, Vec.zeros k.rangeDim⟩ = h k) :
    (blocks fs ks ps ns ss).map g = ks.map h := by
  rw [map_blocks_eq_zipWith hf hp hn hs (h := fun _ k => h k) hg, ← List.map_uncurry_zip_eq_zipWith]
  calc (fs.zip ks).map (Function.uncurry fun _ k => h k) = ((fs.zip ks).map Prod.snd).map h := by
        rw [List.map_map]
        rfl
    _ = ks.map h := by rw [List.map_snd_zip (Nat.le_of_eq hf.symm)]

/-- The probabilities, norms and steps of blocks come from the lists that describe them. -/
theorem map_blocks_scaled {fs : List (Functional S)} {ks : List (LinearOperator S)} {ps ns ss : List S}
    (hf : fs.length = ks.length) (hp : ps.length = ks.length) (hn : ns.length = ks.length)
    (hs : ss.length = ks.length) :
    (blocks fs ks ps ns ss).map (fun b => (DualScale.mk b.weight b.norm, b.sigma)) =
      (List.zipWith DualScale.mk ps ns).zip ss := by
  induction ks generalizing fs ps ns ss with
  | nil =>
    obtain rfl := List.eq_nil_of_length_eq_zero hf
    obtain rfl := List.eq_nil_of_length_eq_zero hp
    rfl
  | cons k ks ih =>
    obtain ⟨f, fs, rfl⟩ := List.exists_cons_of_length_eq_add_one hf
    obtain ⟨p, ps, rfl⟩ := List.exists_cons_of_length_eq_add_one hp
    obtain ⟨n, ns, rfl⟩ := List.exists_cons_of_length_eq_add_one hn
    obtain ⟨s, ss, rfl⟩ := List.exists_cons_of_length_eq_add_one hs
    simp only [List.length_cons, Nat.add_right_cancel_iff] at hf hp hn hs
    rw [blocks, List.map_cons, ih hf hp hn hs, List.zipWith_cons_cons, List.zip_cons_cons]

/-- The probabilities of blocks are those that they are given. -/
theorem map_blocks_weight {fs : List (Functional S)} {ks : List (LinearOperator S)} {ps ns ss : List S}
    (hf : fs.length = ks.length) (hp : ps.length = ks.length) (hn : ns.length = ks.length)
    (hs : ss.length = ks.length) : (blocks fs ks ps ns ss).map (·.weight) = ps := by
  have hscaled := congrArg (List.map fun c => c.1.weight) (map_blocks_scaled hf hp hn hs)
  rw [List.map_map] at hscaled
  refine hscaled.trans (List.ext_getElem ?_ fun i _ _ => ?_)
  · simp [hp, hn, hs]
  · simp

theorem mem_of_mem_blocks {b : DualBlock S} {fs : List (Functional S)} {ks : List (LinearOperator S)}
    {ps ns ss : List S} (h : b ∈ blocks fs ks ps ns ss) : b.term ∈ fs ∧ b.operator ∈ ks := by
  fun_induction blocks fs ks ps ns ss with
  | case1 f fs k ks p ps n ns s ss zeros ih =>
    rcases List.mem_cons.mp h with rfl | h
    · exact ⟨List.mem_cons_self, List.mem_cons_self⟩
    · exact ⟨List.mem_cons_of_mem f (ih h).1, List.mem_cons_of_mem k (ih h).2⟩
  | case2 => cases h

/-! The parts that a setup checks, each with what its check promises. -/

variable [Scalar W] [Precision S W] [IndexSource σ W] {setup : SpdhgSetup S σ}

omit [Scalar S] in
theorem checkTerms_eq_ok_iff : setup.checkTerms = .ok () ↔ setup.terms.length = setup.count := by
  unfold checkTerms
  by_cases h : setup.terms.length = setup.count
  · simp [h]
  · simp [h]

/-- The norms of a setup belong to its operators. -/
theorem blocks_of_stack {k : OperatorStack S} (h : setup.stack = .ok k) :
    k.blocks = setup.operator.blocks ∧ k.domainDim = setup.operator.domainDim := by
  unfold stack at h
  cases hn : setup.norms with
  | none =>
    rw [hn] at h
    cases h
    exact ⟨rfl, rfl⟩
  | some ns =>
    rw [hn] at h
    exact OperatorStack.blocks_of_setNorms h

omit [Scalar S] [Scalar W] in
/-- A source that reports frequencies leaves no room for probabilities from elsewhere. -/
theorem given_of_reported {given : Option (List S)} {ws : List W}
    (hreported : setup.source.bind IndexSource.frequencies? = some ws) (h : setup.resolveWeights = .ok given) :
    given = some (ws.map Precision.narrow) := by
  unfold resolveWeights at h
  rw [hreported] at h
  cases hw : setup.weights with
  | some _ =>
    rw [hw] at h
    cases h
  | none =>
    cases hp : setup.probabilities with
    | some _ =>
      rw [hw, hp] at h
      cases h
    | none =>
      rw [hw, hp] at h
      exact (Except.ok.inj h).symm

/-- The probabilities are those that are given, or uniform ones; there is one for each block. -/
theorem completeWeights_eq_ok_iff {given : Option (List S)} {weights : List S} :
    setup.completeWeights given = .ok weights ↔
      weights = given.getD (List.replicate setup.count (1 / (setup.count : S))) ∧
        weights.length = setup.count := by
  unfold completeWeights
  by_cases hl : (given.getD (List.replicate setup.count (1 / (setup.count : S)))).length = setup.count
  · simp only [if_pos hl, Except.ok.injEq]
    constructor
    · rintro rfl
      exact ⟨rfl, hl⟩
    · rintro ⟨rfl, -⟩
      rfl
  · simp only [if_neg hl, reduceCtorEq, false_iff]
    rintro ⟨rfl, hlength⟩
    exact hl hlength

/-- The starting point is the origin, or a given one of the right length. -/
theorem start_eq_ok {x : Vec S} (h : setup.start = .ok x) :
    x = Vec.zeros setup.operator.domainDim ∨
      setup.initial = some x ∧ x.length = setup.operator.domainDim := by
  unfold start at h
  cases hi : setup.initial with
  | none =>
    rw [hi] at h
    cases h
    exact Or.inl rfl
  | some x₀ =>
    rw [hi] at h
    by_cases hl : x₀.length = setup.operator.domainDim
    · simp only [if_pos hl] at h
      cases h
      exact Or.inr ⟨rfl, hl⟩
    · simp only [if_neg hl] at h
      cases h

/-- **What a setup builds:** one block for each operator, all vectors zero apart from the starting point, and
    the steps that the weights and norms give. -/
theorem build_eq_ok {m : Spdhg S (BlockSource σ W)} (h : setup.build = .ok m) :
    ∃ given weights source norms steps x,
      setup.resolveWeights = .ok given ∧ setup.completeWeights given = .ok weights ∧
      setup.blockSource weights = .ok source ∧
      PrimalDual.resolveSteps (List.zipWith DualScale.mk weights norms) setup.sigma setup.tau = .ok steps ∧
      setup.start = .ok x ∧
      (setup.terms.length = setup.count ∧ weights.length = setup.count ∧ norms.length = setup.count ∧
        steps.1.length = setup.count ∧ x.length = setup.operator.domainDim) ∧
      m = {
        blocks := blocks setup.terms setup.operator.blocks weights norms steps.1
        domainDim := setup.operator.domainDim
        primalTerm := setup.primalTerm
        source := source
        tau := steps.2
        x := x
        scratch := Vec.zeros setup.operator.domainDim
        z := Vec.zeros setup.operator.domainDim
        zbar := Vec.zeros setup.operator.domainDim
        losses := #[]
        iteration := 0 } := by
  unfold build at h
  obtain ⟨⟨⟩, hterms, h⟩ := Except.bind_eq_ok_iff.mp h
  obtain ⟨given, hgiven, h⟩ := Except.bind_eq_ok_iff.mp h
  obtain ⟨stack, hstack, h⟩ := Except.bind_eq_ok_iff.mp h
  obtain ⟨weights, hweights, h⟩ := Except.bind_eq_ok_iff.mp h
  obtain ⟨source, hsource, h⟩ := Except.bind_eq_ok_iff.mp h
  obtain ⟨⟨norms, stack'⟩, hnorms, h⟩ := Except.bind_eq_ok_iff.mp h
  obtain ⟨⟨sigma, tau⟩, hsteps, h⟩ := Except.bind_eq_ok_iff.mp h
  obtain ⟨x, hx, h⟩ := Except.bind_eq_ok_iff.mp h
  rw [Fault.lift_eq_ok_iff] at hterms hgiven hstack hweights hsource hsteps hx
  rw [Fault.ofOption_eq_ok_iff] at hnorms
  -- the stack carries the norms through the building, and is otherwise the one that was given
  obtain ⟨hblocks₀, hdim₀⟩ := blocks_of_stack hstack
  obtain ⟨hblocks, hdim, hnormsLength⟩ := OperatorStack.blocks_of_norms? hnorms
  have hweightsLength : weights.length = setup.count := (completeWeights_eq_ok_iff.mp hweights).2
  have hnormsCount : norms.length = setup.count := hnormsLength.trans (congrArg List.length hblocks₀)
  have hstepsLength : sigma.length = setup.count :=
    (PrimalDual.length_of_resolveSteps hsteps).trans
      (Vec.length_zipWith_of_length hweightsLength hnormsCount)
  have hxLength : x.length = setup.operator.domainDim := by
    rcases start_eq_ok hx with rfl | ⟨-, hl⟩
    · exact Vec.length_zeros _
    · exact hl
  refine ⟨given, weights, source, norms, (sigma, tau), x, hgiven, hweights, hsource, hsteps, hx,
    ⟨checkTerms_eq_ok_iff.mp hterms, hweightsLength, hnormsCount, hstepsLength, hxLength⟩, ?_⟩
  cases h
  rw [hblocks, hdim, hblocks₀, hdim₀]

theorem domainDim_of_build {m : Spdhg S (BlockSource σ W)} (h : setup.build = .ok m) :
    m.domainDim = setup.operator.domainDim := by
  obtain ⟨given, weights, source, norms, steps, x, -, -, -, -, -, -, rfl⟩ := build_eq_ok h
  rfl

end SpdhgSetup

/-! ## Calls -/

/-- What a block is about: its term and operator, its probability and its norm. -/
def DualBlock.data (b : DualBlock S) : Functional S × LinearOperator S × S × S :=
  (b.term, b.operator, b.weight, b.norm)

namespace Spdhg

/-- A call by which a user moves the method. -/
inductive Call (S : Type) where
  | update
  | recordObjective
  | setStepSizes (sigma : Option (List S)) (tau : Option S)
  | setStepSizesFromRatio (gamma rho : S)

/-- A change of a state, which stays as it was if the change is refused. -/
def changeOrKeep (m : Spdhg S σ) : Except Error (Spdhg S σ) → Outcome (Spdhg S σ) Unit
  | .ok m' => .ok () m'
  | .error e => .error e m

variable [Scalar S]

/-- How a call ends. -/
def perform [IndexSource σ W] (m : Spdhg S σ) : Call S → Outcome (Spdhg S σ) Unit
  | .update => m.update
  | .recordObjective => m.recordObjective
  | .setStepSizes sigma tau => m.changeOrKeep (m.setStepSizes sigma tau)
  | .setStepSizesFromRatio gamma rho => m.changeOrKeep (m.setStepSizesFromRatio gamma rho)

omit [Scalar S] in
theorem changeOrKeep_state? {m m' : Spdhg S σ} {c : Except Error (Spdhg S σ)}
    (h : (m.changeOrKeep c).state? = some m') : m' = m ∨ c = .ok m' := by
  cases c with
  | ok n =>
    cases h
    exact Or.inr rfl
  | error e =>
    cases h
    exact Or.inl rfl

omit [Scalar S] in
theorem length_scales (m : Spdhg S σ) : m.scales.length = m.blocks.length := List.length_map _

omit [Scalar S] in
/-- New steps of the method come one for each block, if they do so where they are computed. -/
theorem withSteps_of_map {m m' : Spdhg S σ} {c : Except Error (List S × S)}
    (hc : ∀ steps, c = .ok steps → steps.1.length = m.scales.length) (h : m.withSteps <$> c = .ok m') :
    ∃ steps, steps.1.length = m.blocks.length ∧ m' = m.withSteps steps := by
  cases c with
  | ok steps =>
    cases h
    exact ⟨steps, (hc steps rfl).trans m.length_scales, rfl⟩
  | error e => cases h

theorem withSteps_of_setStepSizes {m m' : Spdhg S σ} {sigma : Option (List S)} {tau : Option S}
    (h : m.setStepSizes sigma tau = .ok m') :
    ∃ steps, steps.1.length = m.blocks.length ∧ m' = m.withSteps steps :=
  withSteps_of_map (fun _ => PrimalDual.length_of_resolveSteps) h

theorem withSteps_of_setStepSizesFromRatio {m m' : Spdhg S σ} {gamma rho : S}
    (h : m.setStepSizesFromRatio gamma rho = .ok m') :
    ∃ steps, steps.1.length = m.blocks.length ∧ m' = m.withSteps steps :=
  withSteps_of_map (fun _ => PrimalDual.length_of_stepsFromRatio) h

/-- **A call completes an iteration, or fails in one, or makes a record, or changes the steps, or changes
    nothing.** -/
theorem perform_cases [IndexSource σ W] {m m' : Spdhg S σ} {c : Call S} (h : (m.perform c).state? = some m') :
    (c = .update ∧ m.update = .ok () m') ∨ (∃ e, m.update = .error e m') ∨
      m.recordObjective.state? = some m' ∨
      (∃ steps, steps.1.length = m.blocks.length ∧ m' = m.withSteps steps) ∨ m' = m := by
  cases c with
  | update =>
    rcases Outcome.state?_eq_some_iff.mp h with ⟨⟨⟩, hu⟩ | ⟨e, hu⟩
    · exact Or.inl ⟨rfl, hu⟩
    · exact Or.inr (Or.inl ⟨e, hu⟩)
  | recordObjective => exact Or.inr (Or.inr (Or.inl h))
  | setStepSizes sigma tau =>
    rcases changeOrKeep_state? h with rfl | hs
    · exact Or.inr (Or.inr (Or.inr (Or.inr rfl)))
    · exact Or.inr (Or.inr (Or.inr (Or.inl (withSteps_of_setStepSizes hs))))
  | setStepSizesFromRatio gamma rho =>
    rcases changeOrKeep_state? h with rfl | hs
    · exact Or.inr (Or.inr (Or.inr (Or.inr rfl)))
    · exact Or.inr (Or.inr (Or.inr (Or.inl (withSteps_of_setStepSizesFromRatio hs))))

/-- A method that calls lead to, completed or failed. A call that breaks off because lengths do not fit
    leaves no method, and leads to none. -/
inductive Reachable [IndexSource σ W] (start : Spdhg S σ) : Spdhg S σ → Prop where
  | start : Reachable start start
  | call {m m' : Spdhg S σ} {c : Call S} : Reachable start m → (m.perform c).state? = some m' →
      Reachable start m'

/-! ## The problem is fixed -/

omit [Scalar S] in
theorem map_data_of_map_outline {bs bs' : List (DualBlock S)}
    (h : bs'.map DualBlock.outline = bs.map DualBlock.outline) :
    bs'.map DualBlock.data = bs.map DualBlock.data := by
  have := congrArg (List.map fun o => DualBlock.data o.1) h
  rwa [List.map_map, List.map_map] at this

/-- No call changes the terms, the operators, the probabilities or the norms. -/
theorem data_of_perform [IndexSource σ W] {m m' : Spdhg S σ} {c : Call S}
    (h : (m.perform c).state? = some m') : m'.domainDim = m.domainDim ∧ m'.primalTerm = m.primalTerm ∧
      m'.blocks.map DualBlock.data = m.blocks.map DualBlock.data := by
  rcases perform_cases h with ⟨-, hu⟩ | ⟨e, hu⟩ | hr | ⟨steps, hlen, rfl⟩ | rfl
  · obtain ⟨point, x, b, image, ascent, y, delta, -, -, hb, -, -, -, -, -, -, -, rfl⟩ :=
      update_eq_ok_iff_equations.mp hu
    refine ⟨rfl, rfl, map_set_of_eq hb ?_⟩
    rfl
  · obtain ⟨x, scratch, source, blocks, rfl, -, -, hb⟩ := frame_of_update_error hu
    exact ⟨rfl, rfl, map_data_of_map_outline hb⟩
  · obtain ⟨scratch, blocks, losses, rfl, -, hb⟩ := frame_of_recordObjective hr
    exact ⟨rfl, rfl, map_data_of_map_outline hb⟩
  · exact ⟨rfl, rfl, map_blocks_withSteps (fun _ _ => rfl) hlen⟩
  · exact ⟨rfl, rfl, rfl⟩

/-- **What a method is about never changes.** -/
theorem Reachable.data [IndexSource σ W] {start m : Spdhg S σ} (h : Reachable start m) :
    m.domainDim = start.domainDim ∧ m.primalTerm = start.primalTerm ∧
      m.blocks.map DualBlock.data = start.blocks.map DualBlock.data := by
  induction h with
  | start => exact ⟨rfl, rfl, rfl⟩
  | call _ hc ih =>
    obtain ⟨hdim, hterm, hblocks⟩ := data_of_perform hc
    exact ⟨hdim.trans ih.1, hterm.trans ih.2.1, hblocks.trans ih.2.2⟩

end Spdhg

/-! ## The lengths -/

/-- The vectors of a block have the length of its range, and its operator acts on vectors of length `n`. -/
structure DualBlock.Shaped (n : Nat) (b : DualBlock S) : Prop where
  domainDim : b.operator.domainDim = n
  dual : b.dual.length = b.operator.rangeDim
  spare : b.spare.length = b.operator.rangeDim
  image : b.image.length = b.operator.rangeDim

/-- The primal vectors have the length of the domain, and every block is shaped for it. -/
structure Spdhg.Shaped (m : Spdhg S σ) : Prop where
  blocks_ne_nil : m.blocks ≠ []
  block : ∀ b ∈ m.blocks, b.Shaped m.domainDim
  x : m.x.length = m.domainDim
  scratch : m.scratch.length = m.domainDim
  z : m.z.length = m.domainDim
  zbar : m.zbar.length = m.domainDim

namespace DualBlock

theorem Shaped.of_outline {n : Nat} {b c : DualBlock S} (hc : c.outline = b.outline) (hb : b.Shaped n) :
    c.Shaped n := by
  obtain ⟨-, hop, -, -, -, hdual, hspare, himage⟩ := outline_eq_iff.mp hc
  exact ⟨hop ▸ hb.domainDim, by rw [hdual, hop]; exact hb.dual, by rw [hspare, hop]; exact hb.spare,
    by rw [himage, hop]; exact hb.image⟩

end DualBlock

namespace Spdhg.Shaped

variable [Scalar S] {m m' : Spdhg S σ}

omit [Scalar S] in
theorem ne_nil_of_map_eq {β : Type} {g : DualBlock S → β} {bs bs' : List (DualBlock S)} (hbs : bs ≠ [])
    (h : bs'.map g = bs.map g) : bs' ≠ [] := by
  rintro rfl
  exact hbs (List.map_eq_nil_iff.mp h.symm)

omit [Scalar S] in
theorem of_withSteps (h : m.Shaped) {steps : List S × S} (hlen : steps.1.length = m.blocks.length) :
    (m.withSteps steps).Shaped := by
  let g : DualBlock S → LinearOperator S × Nat × Nat × Nat := fun b =>
    (b.operator, b.dual.length, b.spare.length, b.image.length)
  have hmap : (m.withSteps steps).blocks.map g = m.blocks.map g := map_blocks_withSteps (fun _ _ => rfl) hlen
  refine ⟨ne_nil_of_map_eq h.blocks_ne_nil hmap, ?_, h.x, h.scratch, h.z, h.zbar⟩
  refine forall_mem_of_map_eq (p := DualBlock.Shaped m.domainDim) (fun a b hab ha => ?_) hmap h.block
  simp only [g, Prod.mk.injEq] at hab
  obtain ⟨hop, hdual, hspare, himage⟩ := hab
  exact ⟨hop ▸ ha.domainDim, by rw [hdual, hop]; exact ha.dual, by rw [hspare, hop]; exact ha.spare,
    by rw [himage, hop]; exact ha.image⟩

variable [IndexSource σ W]

/-- **A successful iteration keeps the lengths.** -/
theorem of_update (h : m.Shaped) (hu : m.update = .ok () m') : m'.Shaped := by
  obtain ⟨point, x, b, image, ascent, y, delta, hpoint, hx, hb, himage, hascent, hy, hl, hdelta, hzl, hbl,
    rfl⟩ := update_eq_ok_iff_equations.mp hu
  have hbShaped : b.Shaped m.domainDim := h.block b (List.mem_of_getElem? hb)
  have hyLength : y.length = b.operator.rangeDim := hl.symm.trans hbShaped.dual
  have hdeltaLength : delta.length = m.domainDim := hzl.symm.trans h.z
  have hzLength : (List.zipWith (· + ·) m.z delta).length = m.domainDim :=
    Vec.length_zipWith_of_length h.z hdeltaLength
  refine ⟨?_, ?_, (Functional.length_of_sameLength hx).trans h.x, hdeltaLength, hzLength,
    Vec.length_zipWith_of_length hzLength hdeltaLength⟩
  · intro hnil
    exact h.blocks_ne_nil ((List.set_eq_nil_iff _ _).mp hnil)
  · -- the drawn block has new vectors of the lengths of the old ones; the others are as they were
    intro d hd
    rcases List.mem_or_eq_of_mem_set hd with hd | rfl
    · exact h.block d hd
    · refine ⟨hbShaped.domainDim, hyLength, Vec.length_zipWith_of_length hbShaped.dual hyLength, ?_⟩
      exact (Vec.length_of_zip? hascent).trans
        ((LinearOperator.length_of_directInto himage).trans hbShaped.image)

/-- **Every call keeps the lengths.** -/
theorem perform (h : m.Shaped) {c : Call S} (hc : (m.perform c).state? = some m') : m'.Shaped := by
  rcases perform_cases hc with ⟨-, hu⟩ | ⟨e, hu⟩ | hr | ⟨steps, hlen, rfl⟩ | rfl
  · exact h.of_update hu
  · obtain ⟨x, scratch, source, blocks, rfl, hx, hs, hb⟩ := frame_of_update_error hu
    refine ⟨ne_nil_of_map_eq h.blocks_ne_nil hb, ?_, hx.trans h.x, hs.trans h.scratch, h.z, h.zbar⟩
    exact forall_mem_of_map_eq (fun _ _ hab => DualBlock.Shaped.of_outline hab) hb h.block
  · obtain ⟨scratch, blocks, losses, rfl, hs, hb⟩ := frame_of_recordObjective hr
    refine ⟨ne_nil_of_map_eq h.blocks_ne_nil hb, ?_, h.x, hs.trans h.scratch, h.z, h.zbar⟩
    exact forall_mem_of_map_eq (fun _ _ hab => DualBlock.Shaped.of_outline hab) hb h.block
  · exact h.of_withSteps hlen
  · exact h

end Spdhg.Shaped

theorem Spdhg.Reachable.shaped [Scalar S] [IndexSource σ W] {start m : Spdhg S σ} (h : Reachable start m)
    (hstart : start.Shaped) : m.Shaped := by
  induction h with
  | start => exact hstart
  | call _ hc ih => exact ih.perform hc

/-- **A method that was built is shaped.** -/
theorem SpdhgSetup.shaped_of_build [Scalar S] [Scalar W] [Precision S W] [IndexSource σ W]
    {setup : SpdhgSetup S σ} {m : Spdhg S (BlockSource σ W)} (h : setup.build = .ok m) : m.Shaped := by
  obtain ⟨given, weights, source, norms, steps, x, -, -, -, -, -, ⟨hf, hp, hn, hs, hx⟩, rfl⟩ := build_eq_ok h
  have hoperators : (blocks setup.terms setup.operator.blocks weights norms steps.1).map
      (fun b => (b.operator, b.dual.length, b.spare.length, b.image.length)) =
      setup.operator.blocks.map fun k => (k, k.rangeDim, k.rangeDim, k.rangeDim) :=
    map_blocks_eq hf hp hn hs fun f k p n s => by simp only [Vec.length_zeros]
  refine ⟨?_, ?_, hx, Vec.length_zeros _, Vec.length_zeros _, Vec.length_zeros _⟩
  · -- a stack has at least one operator, and so the method at least one block
    intro hnil
    dsimp only at hnil
    rw [hnil, List.map_nil] at hoperators
    exact setup.operator.blocks_ne_nil (List.map_eq_nil_iff.mp hoperators.symm)
  · intro b hb
    obtain ⟨k, hk, hkb⟩ := List.mem_map.mp (hoperators ▸ List.mem_map_of_mem hb)
    simp only [Prod.mk.injEq] at hkb
    obtain ⟨rfl, hdual, hspare, himage⟩ := hkb
    exact ⟨setup.operator.domainDim_of_mem _ hk, hdual.symm, hspare.symm, himage.symm⟩

end Splitting
