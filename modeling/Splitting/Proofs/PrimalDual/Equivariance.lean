import Splitting.Proofs.PrimalDual.RelabelledSetup

/-!
# `Splitting.Proofs.PrimalDual.Equivariance` — the order of the blocks does not matter

Nothing in the problem `∑ fᵢ (Kᵢ x) + g x` depends on the order of its blocks, and in exact arithmetic nothing in
the method does. Take two setups with their blocks in two orders, and sources that name the same blocks. Then
corresponding calls end in the same way, and leave methods that differ in the order of their blocks only. Buffers
are left out of the comparison: a record that fails has written into some of them, and which ones these are does
depend on the order.

* `Spdhg.Relabelled.update_agree` — an iteration;
* `Spdhg.Relabelled.objectives?_eq`, `Spdhg.Relabelled.of_records` — a record;
* `Spdhg.Relabelled.setStepSizes_together`, `Spdhg.Relabelled.setStepSizesFromRatio_together` — new steps;
* `Outcome.Together`, `Spdhg.Call.Relabelled`, `Spdhg.Relabelled.perform` — corresponding calls, and how they end;
* `Spdhg.InStep`, `Spdhg.InStep.relabelled` — the methods that they lead to;
* `blocks_can_be_relabelled` — the main statement.
-/

namespace Splitting

variable {S W σ σ' : Type} {π : Equiv.Perm ℕ}

theorem DrawsRelabelled.symm [IndexSource σ W] [IndexSource σ' W] {s : σ} {s' : σ'}
    (h : DrawsRelabelled π s s') : DrawsRelabelled π.symm s' s := by
  intro k
  rw [h k, Equiv.symm_apply_apply]

namespace Spdhg.Relabelled

variable [IndexSource σ W] [IndexSource σ' W] {m : Spdhg S σ} {m' : Spdhg S σ'}

/-! ## What two methods share -/

theorem length_blocks (h : m.Relabelled π m') : m'.blocks.length = m.blocks.length := by
  simpa only [List.length_map] using h.blocks.length_eq

theorem symm (h : m.Relabelled π m') : m'.Relabelled π.symm m where
  fixes i hi := by
    rw [h.length_blocks] at hi
    exact (Equiv.symm_apply_eq π).mpr (h.fixes i hi).symm
  blocks := h.blocks.symm
  domainDim := h.domainDim.symm
  primalTerm := h.primalTerm.symm
  draws := h.draws.symm
  tau := h.tau.symm
  x := h.x.symm
  scratch := h.scratch.symm
  z := h.z.symm
  zbar := h.zbar.symm
  losses := h.losses.symm
  iteration := h.iteration.symm

/-- What can be read off a block without its image buffer stands under the other index. -/
theorem map_blocks (h : m.Relabelled π m') {β : Type} (f : DualBlock S → β)
    (hf : ∀ b : DualBlock S, f b.imageless.1 = f b) : Relabels π (m.blocks.map f) (m'.blocks.map f) := by
  have hmap := h.blocks.map fun p => f p.1
  rw [List.map_map, List.map_map] at hmap
  rwa [show (fun p => f p.1) ∘ DualBlock.imageless = f from funext hf] at hmap

theorem exists_block (h : m.Relabelled π m') {i : ℕ} {b : DualBlock S} (hb : m.blocks[i]? = some b) :
    ∃ image, image.length = b.image.length ∧ m'.blocks[π i]? = some { b with image := image } := by
  have hentry := h.blocks i
  rw [List.getElem?_map, List.getElem?_map, hb] at hentry
  obtain ⟨b', hb', himageless⟩ := Option.map_eq_some_iff.mp hentry
  obtain ⟨image, hl, rfl⟩ := DualBlock.imageless_eq_iff.mp himageless
  exact ⟨image, hl, hb'⟩

/-- What holds of all blocks of one method, whatever their image buffers hold, holds of all blocks of the other. -/
theorem forall_blocks (h : m.Relabelled π m') {p : DualBlock S → Prop}
    (hp : ∀ b image, image.length = b.image.length → p b → p { b with image := image })
    (hall : ∀ b ∈ m.blocks, p b) : ∀ b ∈ m'.blocks, p b := by
  intro b' hb'
  obtain ⟨b, hb, himageless⟩ := List.mem_map.mp (h.blocks.mem_iff.mp (List.mem_map_of_mem hb'))
  obtain ⟨image, hl, rfl⟩ := DualBlock.imageless_eq_iff.mp himageless.symm
  exact hp b image hl (hall b hb)

/-- The lengths fit in both methods. -/
theorem shaped (h : m.Relabelled π m') (hm : m.Shaped) : m'.Shaped where
  blocks_ne_nil hnil := by
    have hlength := h.length_blocks
    rw [hnil] at hlength
    exact hm.blocks_ne_nil (List.eq_nil_of_length_eq_zero hlength.symm)
  block := h.forall_blocks
    (fun b image hl hb => ⟨hb.domainDim, hb.dual, hb.spare, hl.trans hb.image⟩)
    (by rw [h.domainDim]; exact hm.block)
  x := by rw [h.x, h.domainDim, hm.x]
  scratch := by rw [h.scratch, h.domainDim, hm.scratch]
  z := by rw [h.z, h.domainDim, hm.z]
  zbar := by rw [h.zbar, h.domainDim, hm.zbar]

theorem overwrites (h : m.Relabelled π m') (hm : ∀ b ∈ m.blocks, b.operator.Overwrites) :
    ∀ b ∈ m'.blocks, b.operator.Overwrites :=
  h.forall_blocks (fun _ _ _ hb => hb) hm

theorem duals (h : m.Relabelled π m') : Relabels π m.duals m'.duals := h.map_blocks _ fun _ => rfl

theorem sigma (h : m.Relabelled π m') : Relabels π m.sigma m'.sigma := h.map_blocks _ fun _ => rfl

theorem scales (h : m.Relabelled π m') : Relabels π m.scales m'.scales := h.map_blocks _ fun _ => rfl

theorem nextIndex (h : m.Relabelled π m') : m'.nextIndex = π m.nextIndex := h.draws 0

theorem nextSource (h : m.Relabelled π m') : DrawsRelabelled π m.nextSource m'.nextSource :=
  fun k => h.draws (k + 1)

variable [Scalar S]

/-- The bound of the steps is one of all blocks. -/
theorem checkConvergence (h : m.Relabelled π m') : m'.checkConvergence = m.checkConvergence := by
  have hbounds := h.map_blocks (fun b => decide (b.weight < b.sigma * m.tau * b.norm * b.norm)) fun _ => rfl
  have hany := hbounds.perm.any_eq (f := id)
  rw [List.any_map, List.any_map] at hany
  rw [Spdhg.checkConvergence, Spdhg.checkConvergence, h.tau]
  exact congrArg _ hany.symm

/-! ## An iteration -/

theorem forwardPoint? (h : m.Relabelled π m') : m'.forwardPoint? = m.forwardPoint? := by
  have hwrite : m'.scratch.write? = m.scratch.write? := funext fun new => Vec.write?_eq_of_length h.scratch new
  rw [Spdhg.forwardPoint?, Spdhg.forwardPoint?, h.x, h.zbar, h.tau, hwrite]

omit [Scalar S] in
/-- A block that is replaced in one method is replaced under its other index in the other. -/
theorem set_block (h : m.Relabelled π m') (i : ℕ) (c : DualBlock S) :
    Relabels π ((m.blocks.set i c).map DualBlock.imageless) ((m'.blocks.set (π i) c).map DualBlock.imageless) := by
  rw [List.map_set, List.map_set]
  exact h.blocks.set i c.imageless

/-- **An iteration that succeeds** draws the same block, wherever it stands. -/
theorem update_ok (h : m.Relabelled π m') (hops : ∀ b ∈ m.blocks, b.operator.Overwrites) {n : Spdhg S σ}
    (hu : m.update = .ok () n) : ∃ n', m'.update = .ok () n' ∧ n.Relabelled π n' := by
  obtain ⟨point, x, b, image, ascent, y, delta, hpoint, hx, hb, himage, hascent, hy, hl, hdelta, hz, hzbar, rfl⟩ :=
    update_eq_ok_iff_equations.mp hu
  obtain ⟨buffer, hbuffer, hb'⟩ := h.exists_block hb
  have hfills := (hops b (List.mem_of_getElem? hb)).fills?_directInto x
  rw [← h.nextIndex] at hb'
  refine ⟨_, update_eq_ok_iff_equations.mpr ⟨point, x, _, image, ascent, y, delta, ?_, ?_, hb', ?_, hascent, hy, hl,
    hdelta, ?_, ?_, rfl⟩, ?_⟩
  · rw [h.forwardPoint?, hpoint]
  · rw [h.primalTerm, h.tau, h.x, hx]
  · exact hfills hbuffer himage
  · rw [h.z, hz]
  · rw [h.z, h.zbar, hzbar]
  · refine ⟨?_, ?_, h.domainDim, h.primalTerm, h.nextSource, h.tau, rfl, rfl, ?_, ?_, h.losses, ?_⟩
    · intro i hi
      exact h.fixes i (List.length_set ▸ hi)
    · rw [h.nextIndex]
      exact h.set_block _ _
    · rw [h.z]
    · rw [h.z]
    · rw [h.iteration]

/-- **An iteration that fails** fails for the same cause: in the primal step, on an index without a block, or in the
    dual step of the block that is drawn. -/
theorem update_error (h : m.Relabelled π m') (hops : ∀ b ∈ m.blocks, b.operator.Overwrites) {e : Error}
    {n : Spdhg S σ} (hu : m.update = .error e n) : ∃ n', m'.update = .error e n' ∧ n.Relabelled π n' := by
  obtain ⟨point, x, hpoint, hcases⟩ := update_eq_error_iff.mp hu
  have hpoint' : m'.forwardPoint? = some point := h.forwardPoint?.trans hpoint
  have hprimal : m'.primalTerm.proximalInto point m'.tau m'.x = m.primalTerm.proximalInto point m.tau m.x := by
    rw [h.primalTerm, h.tau, h.x]
  rcases hcases with ⟨hx, rfl⟩ | ⟨hx, hnone, rfl, rfl⟩ | ⟨hx, b, c, hb, hascend, rfl⟩
  · refine ⟨_, update_eq_error_iff.mpr ⟨point, x, hpoint', Or.inl ⟨hprimal.trans hx, rfl⟩⟩, ?_⟩
    exact ⟨h.fixes, h.blocks, h.domainDim, h.primalTerm, h.draws, h.tau, rfl, rfl, h.z, h.zbar, h.losses, h.iteration⟩
  · -- an index without a block is no index of a block, and stays as it is
    have hindex : m'.nextIndex = m.nextIndex :=
      h.nextIndex.trans (h.fixes _ (List.getElem?_eq_none_iff.mp hnone))
    have hnone' : m'.blocks[m'.nextIndex]? = none := by
      rw [hindex, List.getElem?_eq_none_iff, h.length_blocks]
      exact List.getElem?_eq_none_iff.mp hnone
    refine ⟨_, update_eq_error_iff.mpr
      ⟨point, x, hpoint', Or.inr (Or.inl ⟨hprimal.trans hx, hnone', ?_, rfl⟩)⟩, ?_⟩
    · rw [hindex, h.length_blocks]
    · exact ⟨h.fixes, h.blocks, h.domainDim, h.primalTerm, h.nextSource, h.tau, rfl, rfl, h.z, h.zbar, h.losses,
        h.iteration⟩
  · obtain ⟨buffer, hbuffer, hb'⟩ := h.exists_block hb
    rw [← h.nextIndex] at hb'
    have hsame : ({ b with image := buffer } : DualBlock S).ascend x = b.ascend x :=
      ascend_of_imageless (hops b (List.mem_of_getElem? hb)).direct (DualBlock.imageless_eq_iff.mpr ⟨_, hbuffer, rfl⟩)
    refine ⟨_, update_eq_error_iff.mpr
      ⟨point, x, hpoint', Or.inr (Or.inr ⟨hprimal.trans hx, _, c, hb', hsame.trans hascend, rfl⟩)⟩, ?_⟩
    refine ⟨?_, ?_, h.domainDim, h.primalTerm, h.nextSource, h.tau, rfl, rfl, h.z, h.zbar, h.losses, h.iteration⟩
    · intro i hi
      exact h.fixes i (List.length_set ▸ hi)
    · rw [h.nextIndex]
      exact h.set_block _ c

/-- **An iteration** ends in the same way in both methods. -/
theorem update_agree (h : m.Relabelled π m') (hops : ∀ b ∈ m.blocks, b.operator.Overwrites) :
    Outcome.Agree Eq (Spdhg.Relabelled π) m.update m'.update := by
  have hops' := h.overwrites hops
  cases hu : m.update with
  | ok _ n =>
    obtain ⟨n', hu', hn⟩ := h.update_ok hops hu
    rw [hu']
    exact .ok rfl hn
  | error e n =>
    obtain ⟨n', hu', hn⟩ := h.update_error hops hu
    rw [hu']
    exact .error hn
  | mismatch =>
    -- an end of the other kind would carry over from the second method to the first
    cases hu' : m'.update with
    | ok _ n' =>
      obtain ⟨n, hn, -⟩ := h.symm.update_ok hops' hu'
      rw [hu] at hn
      cases hn
    | error e n' =>
      obtain ⟨n, hn, -⟩ := h.symm.update_error hops' hu'
      rw [hu] at hn
      cases hn
    | mismatch => exact .mismatch

/-! ## A record -/

variable [OrderFree S]

theorem negatedAdjoint?_eq (h : m.Relabelled π m') (hops : ∀ b ∈ m.blocks, b.operator.Overwrites) :
    m'.negatedAdjoint? = m.negatedAdjoint? := by
  have hpairs := (h.map_blocks (fun b => (b.operator, b.dual)) fun _ => rfl).perm
  rw [Spdhg.negatedAdjoint?, Spdhg.negatedAdjoint?, h.scratch, h.domainDim]
  refine congrArg _ (LinearOperator.adjointSum?_perm hpairs fun p hp => ?_).symm
  obtain ⟨b, hb, rfl⟩ := List.mem_map.mp hp
  exact hops b hb

/-- **The objectives** are sums over all blocks. -/
theorem objectives?_eq (h : m.Relabelled π m') (hops : ∀ b ∈ m.blocks, b.operator.Overwrites) :
    m'.objectives? = m.objectives? := by
  have hblocks : ∀ g : S, blockObjectives? m.x g 0 m'.blocks = blockObjectives? m.x g 0 m.blocks := by
    intro g
    have hemptied := (h.map_blocks (fun b => b.imageless.1) fun _ => rfl).perm
    rw [← blockObjectives?_map_imageless, ← blockObjectives?_perm hemptied, blockObjectives?_map_imageless]
  simp only [Spdhg.objectives?, h.primalTerm, h.x, h.negatedAdjoint?_eq hops, hblocks]

/-- **A record** is made in both methods or in neither. -/
theorem exists_record_iff (h : m.Relabelled π m') (hm : m.Shaped) (hops : ∀ b ∈ m.blocks, b.operator.Overwrites) :
    (∃ n, m.recordObjective = .ok () n) ↔ ∃ n', m'.recordObjective = .ok () n' := by
  have hfills : m.FillsImages := fun b hb => (hops b hb).direct
  have hfills' : m'.FillsImages := fun b hb => (h.overwrites hops b hb).direct
  rw [Spdhg.exists_record_iff hm hfills, Spdhg.exists_record_iff (h.shaped hm) hfills', h.objectives?_eq hops]

omit [Scalar S] [OrderFree S] in
/-- Buffers and records may be others. -/
theorem of_images (h : m.Relabelled π m') {scratch scratch' : Vec S} {bs bs' : List (DualBlock S)}
    {losses losses' : Array (ObjectiveRecord S)} (hscratch : scratch.length = m.scratch.length)
    (hscratch' : scratch'.length = m'.scratch.length)
    (hbs : bs.map DualBlock.imageless = m.blocks.map DualBlock.imageless)
    (hbs' : bs'.map DualBlock.imageless = m'.blocks.map DualBlock.imageless) (hlosses : losses' = losses) :
    Spdhg.Relabelled π { m with scratch := scratch, blocks := bs, losses := losses }
      { m' with scratch := scratch', blocks := bs', losses := losses' } := by
  have hlength : bs.length = m.blocks.length := by simpa only [List.length_map] using congrArg List.length hbs
  refine ⟨?_, ?_, h.domainDim, h.primalTerm, h.draws, h.tau, h.x, ?_, h.z, h.zbar, hlosses, h.iteration⟩
  · intro i hi
    exact h.fixes i (hlength ▸ hi)
  · rw [hbs, hbs']
    exact h.blocks
  · rw [hscratch, hscratch', h.scratch]

/-- Records, made or failed, leave the same losses. -/
theorem losses_of_records (h : m.Relabelled π m') (hm : m.Shaped) (hops : ∀ b ∈ m.blocks, b.operator.Overwrites)
    {n : Spdhg S σ} {n' : Spdhg S σ'} (hn : m.recordObjective.state? = some n)
    (hn' : m'.recordObjective.state? = some n') : n'.losses = n.losses := by
  have htogether := h.exists_record_iff hm hops
  refine Array.ext' ?_
  rcases Outcome.state?_eq_some_iff.mp hn with ⟨⟨⟩, hr⟩ | ⟨e, hr⟩
  · obtain ⟨k', hk'⟩ := htogether.mp ⟨n, hr⟩
    obtain rfl : k' = n' := by
      rw [hk'] at hn'
      exact Option.some.inj hn'
    obtain ⟨v, hv, hpushed⟩ := record_eq_ok hm (fun b hb => (hops b hb).direct) hr
    obtain ⟨v', hv', hpushed'⟩ :=
      record_eq_ok (h.shaped hm) (fun b hb => (h.overwrites hops b hb).direct) hk'
    rw [h.objectives?_eq hops, hv] at hv'
    cases hv'
    rw [hpushed, hpushed', h.losses]
  · rcases Outcome.state?_eq_some_iff.mp hn' with ⟨⟨⟩, hr'⟩ | ⟨e', hr'⟩
    · obtain ⟨k, hk⟩ := htogether.mpr ⟨n', hr'⟩
      rw [hr] at hk
      cases hk
    · have hkept : n.losses.toList = m.losses.toList := keepsLosses.failed hr
      have hkept' : n'.losses.toList = m'.losses.toList := keepsLosses.failed hr'
      rw [hkept, hkept', h.losses]

/-- **Records,** made or failed, leave methods that differ in the order of the blocks only. -/
theorem of_records (h : m.Relabelled π m') (hm : m.Shaped) (hops : ∀ b ∈ m.blocks, b.operator.Overwrites)
    {n : Spdhg S σ} {n' : Spdhg S σ'} (hn : m.recordObjective.state? = some n)
    (hn' : m'.recordObjective.state? = some n') : n.Relabelled π n' := by
  have hlosses := h.losses_of_records hm hops hn hn'
  obtain ⟨scratch, bs, losses, rfl, hscratch, hbs⟩ := images_of_recordObjective hn
  obtain ⟨scratch', bs', losses', rfl, hscratch', hbs'⟩ := images_of_recordObjective hn'
  exact h.of_images hscratch hscratch' hbs hbs' hlosses

/-! ## New steps -/

omit [Scalar S] [OrderFree S] in
theorem withSteps (h : m.Relabelled π m') {steps steps' : List S × S}
    (hsteps : PrimalDual.StepsRelabelled π steps steps') (hlength : steps.1.length = m.blocks.length) :
    (m.withSteps steps).Relabelled π (m'.withSteps steps') := by
  refine ⟨?_, ?_, h.domainDim, h.primalTerm, h.draws, hsteps.2, h.x, h.scratch, h.z, h.zbar, h.losses, h.iteration⟩
  · intro i hi
    exact h.fixes i (by rwa [Spdhg.withSteps, List.length_zipWith, hlength, min_self] at hi)
  · rw [map_imageless_withSteps, map_imageless_withSteps]
    exact h.blocks.zipWith hsteps.1 _

omit [Scalar S] [OrderFree S] in
/-- Steps that are computed for both methods together are set in both. -/
theorem withSteps_together (h : m.Relabelled π m') {c c' : Except Error (List S × S)}
    (hc : SucceedTogether (PrimalDual.StepsRelabelled π) c c')
    (hlength : ∀ steps, c = .ok steps → steps.1.length = m.scales.length) :
    SucceedTogether (Spdhg.Relabelled π) (m.withSteps <$> c) (m'.withSteps <$> c') := by
  have hfit := hc.imp fun steps _ hsteps hrelabels => And.intro hrelabels (hlength steps hsteps)
  exact hfit.map fun _ _ hsteps => h.withSteps hsteps.1 (hsteps.2.trans m.length_scales)

/-- **New steps,** given in both orders or derived. -/
theorem setStepSizes_together (h : m.Relabelled π m') {sigma sigma' : Option (List S)}
    (hsigma : Option.Rel (Relabels π) sigma sigma') (tau : Option S) :
    SucceedTogether (Spdhg.Relabelled π) (m.setStepSizes sigma tau) (m'.setStepSizes sigma' tau) :=
  h.withSteps_together (PrimalDual.resolveSteps_together h.scales hsigma tau) fun _ =>
    PrimalDual.length_of_resolveSteps

/-- **New steps that belong to a trade-off and a margin.** -/
theorem setStepSizesFromRatio_together (h : m.Relabelled π m') (gamma rho : S) :
    SucceedTogether (Spdhg.Relabelled π) (m.setStepSizesFromRatio gamma rho) (m'.setStepSizesFromRatio gamma rho) :=
  h.withSteps_together (PrimalDual.stepsFromRatio_together h.scales gamma rho) fun _ =>
    PrimalDual.length_of_stepsFromRatio

end Spdhg.Relabelled

/-! ## Corresponding calls -/

/-- Two steps of which both succeed or neither does, and that leave related states, if both leave any. The causes of
    failures may be others. -/
structure Outcome.Together {τ τ' : Type} (R : τ → τ' → Prop) (o : Outcome τ Unit) (o' : Outcome τ' Unit) : Prop where
  succeed : (∃ s, o = .ok () s) ↔ ∃ s', o' = .ok () s'
  states : ∀ s s', o.state? = some s → o'.state? = some s' → R s s'

/-- Steps that agree go together. -/
theorem Outcome.Agree.together {τ τ' : Type} {R : τ → τ' → Prop} {o : Outcome τ Unit} {o' : Outcome τ' Unit}
    (h : Outcome.Agree Eq R o o') : Outcome.Together R o o' := by
  cases h with
  | ok _ hr =>
    refine ⟨iff_of_true ⟨_, rfl⟩ ⟨_, rfl⟩, fun s s' hs hs' => ?_⟩
    cases hs
    cases hs'
    exact hr
  | error hr =>
    refine ⟨iff_of_false (by simp) (by simp), fun s s' hs hs' => ?_⟩
    cases hs
    cases hs'
    exact hr
  | mismatch => exact ⟨iff_of_false (by simp) (by simp), fun s s' hs hs' => by cases hs⟩

namespace Spdhg

/-- The same call of two methods, with the dual steps that it gives in the two orders. -/
inductive Call.Relabelled (π : Equiv.Perm ℕ) : Call S → Call S → Prop where
  | update : Relabelled π .update .update
  | recordObjective : Relabelled π .recordObjective .recordObjective
  | setStepSizes {sigma sigma' : Option (List S)} (tau : Option S) : Option.Rel (Relabels π) sigma sigma' →
      Relabelled π (.setStepSizes sigma tau) (.setStepSizes sigma' tau)
  | setStepSizesFromRatio (gamma rho : S) :
      Relabelled π (.setStepSizesFromRatio gamma rho) (.setStepSizesFromRatio gamma rho)

variable [IndexSource σ W] [IndexSource σ' W] {m n start : Spdhg S σ} {m' n' start' : Spdhg S σ'}

/-- A change that is refused leaves both methods as they were. -/
theorem Relabelled.changeOrKeep (h : m.Relabelled π m') {c : Except Error (Spdhg S σ)}
    {c' : Except Error (Spdhg S σ')} (hc : SucceedTogether (Relabelled π) c c') :
    Outcome.Together (Relabelled π) (m.changeOrKeep c) (m'.changeOrKeep c') := by
  cases hc with
  | ok hn =>
    refine ⟨iff_of_true ⟨_, rfl⟩ ⟨_, rfl⟩, fun s s' hs hs' => ?_⟩
    cases hs
    cases hs'
    exact hn
  | error =>
    refine ⟨iff_of_false (by simp [Spdhg.changeOrKeep]) (by simp [Spdhg.changeOrKeep]), fun s s' hs hs' => ?_⟩
    cases hs
    cases hs'
    exact h

variable [Scalar S]

/-- Methods that corresponding calls lead to, completed or failed, from two others. -/
inductive InStep (π : Equiv.Perm ℕ) (start : Spdhg S σ) (start' : Spdhg S σ') : Spdhg S σ → Spdhg S σ' → Prop where
  | start : InStep π start start' start start'
  | call {m n : Spdhg S σ} {m' n' : Spdhg S σ'} {c c' : Call S} : InStep π start start' m m' →
      c.Relabelled π c' → (m.perform c).state? = some n → (m'.perform c').state? = some n' →
      InStep π start start' n n'

variable [OrderFree S]

/-- **Corresponding calls go together.** -/
theorem Relabelled.perform (h : m.Relabelled π m') (hm : m.Shaped) (hops : ∀ b ∈ m.blocks, b.operator.Overwrites)
    {c c' : Call S} (hc : c.Relabelled π c') :
    Outcome.Together (Relabelled π) (m.perform c) (m'.perform c') := by
  cases hc with
  | update => exact (h.update_agree hops).together
  | recordObjective => exact ⟨h.exists_record_iff hm hops, fun _ _ => h.of_records hm hops⟩
  | setStepSizes tau hsigma => exact h.changeOrKeep (h.setStepSizes_together hsigma tau)
  | setStepSizesFromRatio gamma rho => exact h.changeOrKeep (h.setStepSizesFromRatio_together gamma rho)

/-- **Whatever corresponding calls lead to** differs in the order of the blocks only. -/
theorem InStep.relabelled (h : InStep π start start' m m') (hstart : start.Relabelled π start')
    (hshaped : start.Shaped) (hops : ∀ b ∈ start.blocks, b.operator.Overwrites) :
    m.Relabelled π m' ∧ m.Shaped ∧ ∀ b ∈ m.blocks, b.operator.Overwrites := by
  induction h with
  | start => exact ⟨hstart, hshaped, hops⟩
  | call _ hc hn hn' ih =>
    obtain ⟨hrelabelled, hm, hoverwrites⟩ := ih
    refine ⟨(hrelabelled.perform hm hoverwrites hc).states _ _ hn hn', hm.perform hn, ?_⟩
    refine forall_mem_of_map_eq (fun a b hab ha => ?_) (data_of_perform hn).2.2 hoverwrites
    have hoperator : b.operator = a.operator := congrArg (fun d => d.2.1) hab
    rw [hoperator]
    exact ha

end Spdhg

theorem SpdhgSetup.operators_overwrite_of_build [Scalar S] [Scalar W] [Precision S W] [IndexSource σ W]
    {setup : SpdhgSetup S σ} {m : Spdhg S (BlockSource σ W)} (h : setup.build = .ok m)
    (hops : ∀ op ∈ setup.operator.blocks, op.Overwrites) : ∀ b ∈ m.blocks, b.operator.Overwrites := by
  obtain ⟨given, ws, source, ns, steps, x, -, -, -, -, -, -, rfl⟩ := build_eq_ok h
  intro b hb
  exact hops _ (mem_of_mem_blocks hb).2

open Spdhg in
/-- **The blocks can be relabelled.** Take two setups with their blocks in two orders, in arithmetic in which sums
    and minima may be taken in any order: all that is given for the blocks, that is terms, operators, norms,
    probabilities and dual steps, is in the one order here and in the other there. Neither source reports
    frequencies, and the second names the block that the first one names. The operators overwrite their buffers.

    Then both setups build a method, or neither does. Make corresponding calls of the two methods, completed or
    failed, in which dual steps are given in the two orders. After each of them the solutions, `z`, `z̄`, the primal
    steps, the records of the objectives and what is said of convergence are equal, and the dual variables and the
    dual steps are those of the same blocks. The next iteration ends in the same way, with the same error if it
    fails; and every other call succeeds with both methods or with neither. -/
theorem blocks_can_be_relabelled [Scalar S] [OrderFree S] [Scalar W] [Precision S W] [IndexSource σ W]
    [IndexSource σ' W] {setup : SpdhgSetup S σ} {setup' : SpdhgSetup S σ'} (hsetups : setup.Relabelled π setup')
    (hops : ∀ op ∈ setup.operator.blocks, op.Overwrites) :
    ((∃ m₀, setup.build = .ok m₀) ↔ ∃ m₀', setup'.build = .ok m₀') ∧
    ∀ m₀ m₀', setup.build = .ok m₀ → setup'.build = .ok m₀' → ∀ m m', InStep π m₀ m₀' m m' →
      (m'.x = m.x ∧ m'.z = m.z ∧ m'.zbar = m.zbar ∧ m'.tau = m.tau ∧
        m'.checkConvergence = m.checkConvergence ∧ m'.losses = m.losses ∧
        Relabels π m.duals m'.duals ∧ Relabels π m.sigma m'.sigma) ∧
      Outcome.Agree Eq (InStep π m₀ m₀') m.update m'.update ∧
      ∀ c c', Call.Relabelled π c c' → ((∃ n, m.perform c = .ok () n) ↔ ∃ n', m'.perform c' = .ok () n') := by
  have hbuilds := hsetups.build
  refine ⟨hbuilds.exists_ok_iff, fun m₀ m₀' hm₀ hm₀' m m' hstep => ?_⟩
  have hstart : m₀.Relabelled π m₀' := by
    rw [hm₀, hm₀'] at hbuilds
    obtain ⟨k, hk, hrelabelled⟩ := hbuilds.of_ok
    cases hk
    exact hrelabelled
  obtain ⟨h, hm, hoverwrites⟩ := hstep.relabelled hstart (SpdhgSetup.shaped_of_build hm₀)
    (SpdhgSetup.operators_overwrite_of_build hm₀ hops)
  refine ⟨⟨h.x, h.z, h.zbar, h.tau, h.checkConvergence, h.losses, h.duals, h.sigma⟩, ?_, ?_⟩
  · exact (h.update_agree hoverwrites).imp fun n n' hn hn' _ => hstep.call .update hn hn'
  · intro c c' hc
    exact (h.perform hm hoverwrites hc).succeed

/-! ## An instance -/

/-- A source that names two indices in turn, and does not say how often. -/
structure InTurn where
  index : ℕ
  other : ℕ

instance : IndexSource InTurn ℝ where
  next s := (s.index, ⟨s.other, s.index⟩)
  frequencies? _ := none

theorem drawsRelabelled_inTurn (π : Equiv.Perm ℕ) (i j : ℕ) :
    DrawsRelabelled π (InTurn.mk i j) (InTurn.mk (π i) (π j)) := by
  intro k
  induction k generalizing i j with
  | zero => rfl
  | succ k ih => exact ih j i

/-- Two blocks on the real line, with the probabilities `p` and `q`. -/
noncomputable def inTurnLine (a b p q start : ℝ) : SpdhgSetup ℝ InTurn :=
  { oneDimensional a b start with
    source := some ⟨0, 1⟩
    weights := some [p, q] }

/-- The stack with its blocks the other way round. -/
def OperatorStack.reverse (k : OperatorStack S) : OperatorStack S where
  blocks := k.blocks.reverse
  domainDim := k.domainDim
  knownNorms := k.knownNorms.map List.reverse
  blocks_ne_nil hnil := k.blocks_ne_nil (List.reverse_eq_nil_iff.mp hnil)
  domainDim_of_mem op hop := k.domainDim_of_mem op (List.mem_reverse.mp hop)
  length_knownNorms ns hns := by
    obtain ⟨ms, hms, rfl⟩ := Option.map_eq_some_iff.mp hns
    rw [List.length_reverse, List.length_reverse, k.length_knownNorms ms hms]

/-- The same with the second block first. -/
noncomputable def turnedLine (a b p q start : ℝ) : SpdhgSetup ℝ InTurn :=
  { inTurnLine a b p q start with
    terms := (inTurnLine a b p q start).terms.reverse
    operator := (inTurnLine a b p q start).operator.reverse
    source := some ⟨1, 0⟩
    weights := some [q, p] }

/-- The method that belongs to the first of the two, before its first iteration. -/
noncomputable def inTurnMethod (a b p q start : ℝ) : Spdhg ℝ (BlockSource InTurn ℝ) :=
  { oneDimensionalMethod a b start with
    blocks := List.zipWith (fun block weight => { block with weight := weight })
      (oneDimensionalMethod a b start).blocks [p, q]
    source := .given ⟨0, 1⟩ }

theorem build_inTurnLine (a b p q start : ℝ) :
    (inTurnLine a b p q start).build = .ok (inTurnMethod a b p q start) := by
  simp [SpdhgSetup.build, inTurnLine, oneDimensional, oneDimensionalMethod, inTurnMethod, SpdhgSetup.checkTerms,
    SpdhgSetup.count, SpdhgSetup.resolveWeights, SpdhgSetup.stack, SpdhgSetup.completeWeights,
    SpdhgSetup.blockSource, IndexSource.frequencies?, OperatorStack.norms?, PrimalDual.resolveSteps,
    PrimalDual.requirePositive, PrimalDual.dualSteps, PrimalDual.requireAllPositive, SpdhgSetup.start, Fault.lift,
    Fault.ofOption, bind, Except.bind, pure, Except.pure, SpdhgSetup.blocks, LinearOperator.matrix,
    LinearOperator.diagonal, Vec.zeros]

/-- Two entries that change places. -/
theorem Relabels.pair {α : Type} (a b : α) : Relabels (Equiv.swap 0 1) [a, b] [b, a] := by
  intro i
  rcases i with _ | _ | i
  · rw [Equiv.swap_apply_left]
    rfl
  · rw [Equiv.swap_apply_right]
    rfl
  · rw [Equiv.swap_apply_of_ne_of_ne (by omega) (by omega)]
    rfl

theorem relabelled_turnedLine (a b p q start : ℝ) :
    (inTurnLine a b p q start).Relabelled (Equiv.swap 0 1) (turnedLine a b p q start) where
  fixes i hi := by
    have hcount : 2 ≤ i := hi
    exact Equiv.swap_apply_of_ne_of_ne (by omega) (by omega)
  terms := .pair _ _
  primalTerm := rfl
  operator := ⟨.pair _ _, .some (.pair _ _)⟩
  initial := rfl
  sigma := .some (.pair _ _)
  tau := rfl
  weights := .some (.pair _ _)
  probabilities := .none
  norms := .none
  source := by
    have hdraws := drawsRelabelled_inTurn (Equiv.swap 0 1) 0 1
    rw [Equiv.swap_apply_left, Equiv.swap_apply_right] at hdraws
    exact ⟨_, _, rfl, rfl, rfl, rfl, hdraws⟩

/-- The first iteration draws the matrix, and extrapolates by the inverse of its probability. -/
theorem inTurnLine_first_iteration : ∃ m, (inTurnMethod 3 2 (1 / 4) (3 / 4) 3).update = .ok () m ∧
    m.duals = [[1], [0]] ∧ m.zbar = [15] := by
  refine ⟨_, Spdhg.update_eq_ok_iff_equations.mpr
    ⟨[3], [1], _, [3], [3], [1], [3], ?_, ?_, rfl, ?_, ?_, ?_, rfl, ?_, rfl, rfl, rfl⟩, rfl, ?_⟩
  · simp [Spdhg.forwardPoint?_eq_some_iff, inTurnMethod, oneDimensionalMethod]
  · simp only [inTurnMethod, oneDimensionalMethod, Functional.proximalInto, SquaredDistance.functional,
      SquaredDistance.unit, SquaredDistance.proximal?, SquaredDistance.entries,
      Functional.sameLength_eq_ok_iff, Functional.overwrite_eq_ok_iff]
    norm_num
  · simp [LinearOperator.directInto, LinearOperator.matrix, Matrix.mulVec?, Vec.dot?_eq_pairing, Vec.pairing,
      Vec.write?]
  · simp [Vec.zip?]
  · simp [Functional.proximalConjugateInto, OneNorm.functional, OneNorm.clip, Functional.sameLength_eq_ok_iff,
      Functional.overwrite_eq_ok_iff]
  · simp [LinearOperator.adjointInto, LinearOperator.matrix, Matrix.transposeMulVec?, Matrix.columnDot?,
      Matrix.column, Vec.dot?_eq_pairing, Vec.pairing, Vec.write?]
  · simp only [inTurnMethod, oneDimensionalMethod, List.zipWith_cons_cons, List.zipWith_nil_left]
    norm_num

open Spdhg in
/-- The second method draws the matrix as well, which is its second block, and ends at the same point. -/
theorem blocks_can_be_relabelled_on_the_line :
    (inTurnLine 3 2 (1 / 4) (3 / 4) 3).Relabelled (Equiv.swap 0 1) (turnedLine 3 2 (1 / 4) (3 / 4) 3) ∧
    ∃ m₀' m m', (turnedLine 3 2 (1 / 4) (3 / 4) 3).build = .ok m₀' ∧
      (inTurnMethod 3 2 (1 / 4) (3 / 4) 3).update = .ok () m ∧ m₀'.update = .ok () m' ∧
      m.duals = [[1], [0]] ∧ m'.duals = [[0], [1]] ∧ m.zbar = [15] ∧ m'.zbar = [15] := by
  have hsetups := relabelled_turnedLine 3 2 (1 / 4) (3 / 4) 3
  have hoverwrites : ∀ op ∈ (inTurnLine 3 2 (1 / 4) (3 / 4) 3).operator.blocks, op.Overwrites := by
    intro op hop
    rcases List.mem_pair.mp hop with rfl | rfl
    · exact (BasicOperator.matrix _).overwrites
    · exact (BasicOperator.diagonal _).overwrites
  obtain ⟨hbuilds, hruns⟩ := blocks_can_be_relabelled hsetups hoverwrites
  have hm₀ := build_inTurnLine 3 2 (1 / 4) (3 / 4) 3
  obtain ⟨m₀', hm₀'⟩ := hbuilds.mp ⟨_, hm₀⟩
  obtain ⟨m, hu, hduals, hzbar⟩ := inTurnLine_first_iteration
  obtain ⟨-, hagree, -⟩ := hruns _ _ hm₀ hm₀' _ _ .start
  rw [hu] at hagree
  obtain ⟨⟨⟩, m', hu', -, hstep⟩ := hagree.of_ok
  obtain ⟨⟨-, -, hzbar', -, -, -, hduals', -⟩, -, -⟩ := hruns _ _ hm₀ hm₀' _ _ hstep
  have hturned : m'.duals = [[0], [1]] := by
    refine List.ext_getElem? fun i => ?_
    rw [hduals] at hduals'
    rw [← (Equiv.swap 0 1).apply_symm_apply i, hduals', Relabels.pair]
  exact ⟨hsetups, m₀', m, m', hm₀', hu, hu', hduals, hturned, hzbar, hzbar'.trans hzbar⟩

end Splitting
