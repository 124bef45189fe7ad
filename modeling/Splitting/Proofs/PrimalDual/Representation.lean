import Splitting.Proofs.PrimalDual.Refinement

/-!
# `Splitting.Proofs.PrimalDual.Representation` — lists that fit the stack, and the index of an iteration

The lists of a primal-dual method come from several places: the terms are given, the probabilities may be
reported or given or uniform, the norms may be computed, and the dual steps are given or derived. All of them
fit the operator stack, at first and after every call. So the only index without a block is one that the source
names beyond the stack, and that is an error; an iteration on any other index can break off in an operation of
the drawn block only.

* `Spdhg.Fits` — what it means that all lists and vectors fit a setup;
* `SpdhgSetup.listed_of_build`, `Spdhg.resolved_of_setStepSizes`, `Spdhg.resolved_of_setStepSizesFromRatio` —
  where the lists come from, and that none is cut off;
* `Spdhg.Reachable.fits` — every state that calls lead to fits;
* `DualBlock.BreaksOff`, `Spdhg.EndsOn` — how an iteration that has drawn a block ends;
* `reachable_states_fit` — the representation, and what it gives for the index that a source names.
-/

namespace Splitting

variable {S W σ : Type}

/-! ## What fits a setup -/

namespace Spdhg

/-- The operators, one for each block. -/
def operators (m : Spdhg S σ) : List (LinearOperator S) := m.blocks.map (·.operator)

/-- The terms of the blocks, without that of the primal variable. -/
def blockTerms (m : Spdhg S σ) : List (Functional S) := m.blocks.map (·.term)

/-- The buffers for the next dual variables, one for each block. -/
def spares (m : Spdhg S σ) : List (Vec S) := m.blocks.map (·.spare)

/-- The buffers for the images, one for each block. -/
def images (m : Spdhg S σ) : List (Vec S) := m.blocks.map (·.image)

/-- The method has one entry in each of its lists for each block of the setup, primal vectors of the length of
    the domain, and block vectors of the lengths of the ranges. -/
structure Fits {ρ : Type} (setup : SpdhgSetup S ρ) (m : Spdhg S σ) : Prop where
  count_pos : 0 < setup.count
  operators : m.operators = setup.operator.blocks
  terms : m.blockTerms = setup.terms
  length_terms : m.blockTerms.length = setup.count
  length_weights : m.weights.length = setup.count
  length_norms : m.norms.length = setup.count
  length_sigma : m.sigma.length = setup.count
  length_duals : m.duals.length = setup.count
  length_spares : m.spares.length = setup.count
  length_images : m.images.length = setup.count
  duals : m.duals.map List.length = setup.operator.rangeDims
  spares : m.spares.map List.length = setup.operator.rangeDims
  images : m.images.map List.length = setup.operator.rangeDims
  x : m.x.length = setup.operator.domainDim
  scratch : m.scratch.length = setup.operator.domainDim
  z : m.z.length = setup.operator.domainDim
  zbar : m.zbar.length = setup.operator.domainDim

/-- Shaped blocks hold vectors of the lengths of their operators' ranges. -/
theorem Shaped.map_length {m : Spdhg S σ} (h : m.Shaped) {v : DualBlock S → Vec S}
    (hv : ∀ b : DualBlock S, b.Shaped m.domainDim → (v b).length = b.operator.rangeDim) :
    (m.blocks.map v).map List.length = m.operators.map (·.rangeDim) := by
  rw [operators, List.map_map, List.map_map]
  exact List.map_congr_left fun b hb => hv b (h.block b hb)

/-- A shaped method fits a setup if its blocks have the operators and the terms of the setup. -/
theorem Shaped.fits {ρ : Type} {setup : SpdhgSetup S ρ} {m : Spdhg S σ} (h : m.Shaped)
    (hoperators : m.operators = setup.operator.blocks) (hterms : m.blockTerms = setup.terms)
    (hdim : m.domainDim = setup.operator.domainDim) : m.Fits setup := by
  have hcount : ∀ {β : Type} (v : DualBlock S → β), (m.blocks.map v).length = setup.count := by
    intro β v
    rw [SpdhgSetup.count, ← hoperators, operators, List.length_map, List.length_map]
  have hranges : ∀ {v : DualBlock S → Vec S},
      (∀ b : DualBlock S, b.Shaped m.domainDim → (v b).length = b.operator.rangeDim) →
      (m.blocks.map v).map List.length = setup.operator.rangeDims := by
    intro v hv
    rw [h.map_length hv, hoperators]
    rfl
  exact {
    count_pos := List.length_pos_of_ne_nil setup.operator.blocks_ne_nil
    operators := hoperators
    terms := hterms
    length_terms := hcount _
    length_weights := hcount _
    length_norms := hcount _
    length_sigma := hcount _
    length_duals := hcount _
    length_spares := hcount _
    length_images := hcount _
    duals := hranges fun _ hb => hb.dual
    spares := hranges fun _ hb => hb.spare
    images := hranges fun _ hb => hb.image
    x := h.x.trans hdim
    scratch := h.scratch.trans hdim
    z := h.z.trans hdim
    zbar := h.zbar.trans hdim }

end Spdhg

/-! ## Where the lists come from -/

namespace SpdhgSetup

variable [Scalar S] [Scalar W] [Precision S W] [IndexSource σ W] {setup : SpdhgSetup S σ}
  {m : Spdhg S (BlockSource σ W)}

/-- The probabilities, norms and steps of a new method are all those that were checked or derived. -/
theorem listed_of_build (h : setup.build = .ok m) : ∃ given,
    setup.resolveWeights = .ok given ∧ setup.completeWeights given = .ok m.weights ∧
      PrimalDual.resolveSteps m.scales setup.sigma setup.tau = .ok (m.sigma, m.tau) := by
  obtain ⟨given, weights, source, norms, steps, x, hgiven, hweights, -, hsteps, -, ⟨hf, hp, hn, hs, -⟩, rfl⟩ :=
    build_eq_ok h
  have hscaled : (blocks setup.terms setup.operator.blocks weights norms steps.1).map
      (fun b => (DualScale.mk b.weight b.norm, b.sigma)) =
      (List.zipWith DualScale.mk weights norms).zip steps.1 := map_blocks_scaled hf hp hn hs
  have hzipped : (List.zipWith DualScale.mk weights norms).length = steps.1.length :=
    (Vec.length_zipWith_of_length hp hn).trans hs.symm
  refine ⟨given, hgiven, ?_, ?_⟩
  · rw [Spdhg.weights, map_blocks_weight hf hp hn hs]
    exact hweights
  · -- both lists are read off the pairs of a scale and a step
    have hscales := congrArg (List.map Prod.fst) hscaled
    have hsigma := congrArg (List.map Prod.snd) hscaled
    rw [List.map_map, List.map_fst_zip (Nat.le_of_eq hzipped)] at hscales
    rw [List.map_map, List.map_snd_zip (Nat.le_of_eq hzipped.symm)] at hsigma
    exact (congrArg (PrimalDual.resolveSteps · _ _) hscales).trans
      (hsteps.trans (congrArg (fun s => Except.ok (s, steps.2)) hsigma.symm))

/-- A new method fits its setup. -/
theorem fits_of_build (h : setup.build = .ok m) : m.Fits setup := by
  have hshaped := shaped_of_build h
  obtain ⟨given, weights, source, norms, steps, x, -, -, -, -, -, ⟨hf, hp, hn, hs, -⟩, rfl⟩ := build_eq_ok h
  refine hshaped.fits ?_ ?_ rfl
  · rw [Spdhg.operators, map_blocks_eq hf hp hn hs (h := fun k => k) fun _ _ _ _ _ => rfl, List.map_id']
  · rw [Spdhg.blockTerms, map_blocks_eq_zipWith hf hp hn hs (h := fun f _ => f) fun _ _ _ _ _ => rfl,
      ← List.map_uncurry_zip_eq_zipWith]
    exact List.map_fst_zip (Nat.le_of_eq hf)

end SpdhgSetup

namespace Spdhg

/-- New steps of the right number all become those of the blocks. -/
theorem sigma_withSteps {m : Spdhg S σ} {steps : List S × S} (hlen : steps.1.length = m.blocks.length) :
    (m.withSteps steps).sigma = steps.1 := by
  rw [sigma, withSteps, List.map_zipWith, ← List.map_uncurry_zip_eq_zipWith]
  exact List.map_snd_zip (Nat.le_of_eq hlen)

variable [Scalar S]

omit [Scalar S] in
/-- The steps that a change computes come one for each block, and become those of the method. -/
theorem resolved_of_map {m m' : Spdhg S σ} {c : Except Error (List S × S)}
    (hc : ∀ steps, c = .ok steps → steps.1.length = m.scales.length) (h : m.withSteps <$> c = .ok m') :
    c = .ok (m'.sigma, m'.tau) := by
  obtain ⟨steps, hsteps, rfl⟩ := Except.map_eq_ok_iff.mp h
  rw [sigma_withSteps ((hc steps hsteps).trans m.length_scales)]
  exact hsteps

theorem resolved_of_setStepSizes {m m' : Spdhg S σ} {sigma : Option (List S)} {tau : Option S}
    (h : m.setStepSizes sigma tau = .ok m') :
    PrimalDual.resolveSteps m.scales sigma tau = .ok (m'.sigma, m'.tau) :=
  resolved_of_map (fun _ => PrimalDual.length_of_resolveSteps) h

theorem resolved_of_setStepSizesFromRatio {m m' : Spdhg S σ} {gamma rho : S}
    (h : m.setStepSizesFromRatio gamma rho = .ok m') :
    PrimalDual.stepsFromRatio m.scales gamma rho = .ok (m'.sigma, m'.tau) :=
  resolved_of_map (fun _ => PrimalDual.length_of_stepsFromRatio) h

variable [IndexSource σ W]

/-- **Calls keep what fits,** whether they succeed or fail. -/
theorem Reachable.fits {ρ : Type} {setup : SpdhgSetup S ρ} {start m : Spdhg S σ} (h : Reachable start m)
    (hstart : start.Shaped) (hfits : start.Fits setup)
    (hdim : start.domainDim = setup.operator.domainDim) : m.Fits setup := by
  obtain ⟨hdimension, -, hdata⟩ := h.data
  have hterms := congrArg (List.map fun d => d.1) hdata
  have hoperators := congrArg (List.map fun d => d.2.1) hdata
  rw [List.map_map, List.map_map] at hterms hoperators
  exact (h.shaped hstart).fits (hoperators.trans hfits.operators) (hterms.trans hfits.terms)
    (hdimension.trans hdim)

end Spdhg

/-! ## The index of an iteration -/

/-- An operation of the block breaks off on vectors of the lengths that belong to it. -/
inductive DualBlock.BreaksOff (b : DualBlock S) : Prop where
  | direct {x out : Vec S} : x.length = b.operator.domainDim → out.length = b.operator.rangeDim →
      b.operator.directInto x out = none → b.BreaksOff
  | adjoint {y out : Vec S} : y.length = b.operator.rangeDim → out.length = b.operator.domainDim →
      b.operator.adjointInto y out = none → b.BreaksOff
  | proximalConjugate {point out : Vec S} : point.length = b.operator.rangeDim →
      out.length = b.operator.rangeDim → b.term.proximalConjugateInto point b.sigma out = .mismatch →
      b.BreaksOff

/-- How an iteration ends that has drawn the block `b`: it succeeds, or it fails with the error of the block's
    proximal map at a point of the range, or an operation of the block breaks off. -/
inductive Spdhg.EndsOn (b : DualBlock S) : Outcome (Spdhg S σ) Unit → Prop where
  | completed {m : Spdhg S σ} : EndsOn b (.ok () m)
  | failed {m : Spdhg S σ} {e : Error} {point out y : Vec S} : point.length = b.operator.rangeDim →
      out.length = b.operator.rangeDim → b.term.proximalConjugateInto point b.sigma out = .error e y →
      EndsOn b (.error e m)
  | brokenOff : b.BreaksOff → EndsOn b .mismatch

variable [Scalar S]

/-- The dual step of a shaped block has all lengths it needs. -/
theorem DualBlock.Shaped.breaksOff_of_ascend {b : DualBlock S} {x : Vec S} {n : Nat} (hb : b.Shaped n)
    (hx : x.length = n) (h : b.ascend x = .mismatch) : b.BreaksOff := by
  unfold ascend at h
  cases himage : b.operator.directInto x b.image with
  | none => exact .direct (hx.trans hb.domainDim.symm) hb.image himage
  | some image =>
    have himageLength : image.length = b.operator.rangeDim :=
      (LinearOperator.length_of_directInto himage).trans hb.image
    have hpoint : Vec.zip? (fun a y => y + b.sigma * a) image b.dual =
        some (List.zipWith (fun a y => y + b.sigma * a) image b.dual) :=
      Vec.zip?_eq_some_iff.mpr ⟨himageLength.trans hb.dual.symm, rfl⟩
    simp only [himage, Option.bind_some, hpoint] at h
    exact .proximalConjugate (Vec.length_zipWith_of_length himageLength hb.dual) hb.spare
      (Outcome.mapState_eq_mismatch_iff.mp h)

namespace Spdhg

/-- The end of an iteration on a shaped method breaks off in the adjoint only. -/
theorem breaksOff_of_accumulate {m : Spdhg S σ} {b : DualBlock S} {i : Nat} {y point : Vec S}
    (hm : m.Shaped) (hb : b.Shaped m.domainDim) (hy : y.length = b.spare.length)
    (h : m.accumulate i { b with spare := y, image := point } = none) : b.BreaksOff := by
  have hyLength : y.length = b.operator.rangeDim := hy.trans hb.spare
  -- if the adjoint has a value, the sums that follow have one too
  cases hdelta : b.operator.adjointInto (List.zipWith (fun old new => new - old) b.dual y) m.scratch with
  | none =>
    exact .adjoint (Vec.length_zipWith_of_length hb.dual hyLength) (hm.scratch.trans hb.domainDim.symm) hdelta
  | some delta =>
    have hdeltaLength : delta.length = m.domainDim :=
      (LinearOperator.length_of_adjointInto hdelta).trans hm.scratch
    have hsome := accumulate_eq_some_iff (i := i).mpr
      ⟨_, delta, DualBlock.commit_eq_some_iff (b := { b with spare := y, image := point }).mpr
        ⟨hb.dual.trans hyLength.symm, rfl⟩, hdelta, hm.z.trans hdeltaLength.symm, hm.z.trans hm.zbar.symm, rfl⟩
    rw [hsome] at h
    cases h

variable [IndexSource σ W]

/-- After the primal step and the draw of a block, the dual step and the end of the iteration remain. -/
theorem update_of_drawn {m : Spdhg S σ} {point x : Vec S} {b : DualBlock S} (hpoint : m.forwardPoint? = some point)
    (hx : m.primalTerm.proximalInto point m.tau m.x = .ok () x) (hb : m.blocks[m.nextIndex]? = some b) :
    m.update = (dualPhase { m with x := x, scratch := point, source := m.nextSource } m.nextIndex b).bind
      fun b m' => .put (m'.accumulate m.nextIndex b) := by
  have hdraw : drawPhase { m with x := x, scratch := point } =
      .ok (m.nextIndex, b) { m with x := x, scratch := point, source := m.nextSource } :=
    drawPhase_eq_ok_iff.mpr ⟨rfl, hb, rfl⟩
  rw [update, primalPhase_eq_ok_iff.mpr ⟨point, x, hpoint, hx, rfl⟩, Outcome.bind_ok, hdraw, Outcome.bind_ok]

/-- An iteration of a shaped method ends on the block that it has drawn. -/
theorem Shaped.endsOn {m : Spdhg S σ} (hm : m.Shaped) {point x : Vec S} {b : DualBlock S}
    (hpoint : m.forwardPoint? = some point) (hx : m.primalTerm.proximalInto point m.tau m.x = .ok () x)
    (hb : m.blocks[m.nextIndex]? = some b) : EndsOn b m.update := by
  have hbShaped : b.Shaped m.domainDim := hm.block b (List.mem_of_getElem? hb)
  have hxLength : x.length = m.domainDim := (Functional.length_of_sameLength hx).trans hm.x
  have hpointLength : point.length = m.domainDim :=
    (Vec.length_of_zip? (hm.forwardPoint?_eq_some_iff.mp hpoint)).trans hm.x
  rw [update_of_drawn hpoint hx hb, dualPhase]
  dsimp only
  cases hascend : b.ascend x with
  | mismatch => exact .brokenOff (hbShaped.breaksOff_of_ascend hxLength hascend)
  | error e b' =>
    obtain ⟨image, ascent, y, himage, hascent, hy, -⟩ := DualBlock.ascend_eq_error_iff.mp hascend
    have himageLength : image.length = b.operator.rangeDim :=
      (LinearOperator.length_of_directInto himage).trans hbShaped.image
    exact .failed ((Vec.length_of_zip? hascent).trans himageLength) hbShaped.spare hy
  | ok _ b' =>
    obtain ⟨image, ascent, y, -, -, hy, rfl⟩ := DualBlock.ascend_eq_ok_iff.mp hascend
    rw [Outcome.bind_ok]
    generalize hend : (accumulate _ _ _ : Option (Spdhg S σ)) = o
    cases o with
    | some m' => exact .completed
    | none =>
      -- the method after the primal step and the draw is shaped as it was
      have hshaped : Shaped { m with x := x, scratch := point, source := m.nextSource } :=
        ⟨hm.blocks_ne_nil, hm.block, hxLength, hpointLength, hm.z, hm.zbar⟩
      exact .brokenOff (breaksOff_of_accumulate hshaped hbShaped (Functional.length_of_sameLength hy) hend)

/-- **The index that the source names** is the error of an iteration if it has no block. Otherwise the iteration
    ends on the block that it names. -/
theorem Shaped.update_of_index {m : Spdhg S σ} (hm : m.Shaped) {x : Vec S}
    (hx : m.primalTerm.proximalInto (List.zipWith (fun x zbar => x - m.tau * zbar) m.x m.zbar) m.tau m.x =
      .ok () x) :
    (m.blocks.length ≤ m.nextIndex →
      ∃ m', m.update = .error (.subsetOutOfRange m.nextIndex m.blocks.length) m') ∧
    (m.nextIndex < m.blocks.length → ∃ b, m.blocks[m.nextIndex]? = some b ∧ EndsOn b m.update) := by
  have hpoint : m.forwardPoint? = some (List.zipWith (fun x zbar => x - m.tau * zbar) m.x m.zbar) :=
    hm.forwardPoint?_eq_some_iff.mpr (Vec.zip?_eq_some_iff.mpr ⟨hm.x.trans hm.zbar.symm, rfl⟩)
  constructor
  · intro hi
    have hnone : m.blocks[m.nextIndex]? = none := List.getElem?_eq_none hi
    exact ⟨_, update_eq_error_iff.mpr ⟨_, x, hpoint, Or.inr (Or.inl ⟨hx, hnone, rfl, rfl⟩)⟩⟩
  · intro hi
    have hb : m.blocks[m.nextIndex]? = some m.blocks[m.nextIndex] := List.getElem?_eq_getElem hi
    exact ⟨_, hb, hm.endsOn hpoint hx hb⟩

end Spdhg

/-! ## Every state fits -/

open Spdhg in
/-- **The representation of a method.** Let a method be built, with any source of indices, and let any calls be
    made, completed or failed. The lists of the new method are those that its setup gives, and a change of the
    steps puts in place all the steps that it computes. In every state, each list has one entry for each of the
    blocks, of which there is one at least; the primal vectors have the length of the domain; and the dual
    variable and the two buffers of a block have the length of its range.

    So the source may name any index. Once the proximal map of `g` has succeeded, an iteration fails with that
    index and the number of blocks if there is no block for it. If there is one, the iteration succeeds or fails
    on this block, and it breaks off only if an operation of the block does, on vectors of the right lengths. -/
theorem reachable_states_fit [Scalar W] [Precision S W] [IndexSource σ W] {setup : SpdhgSetup S σ}
    {m₀ m : Spdhg S (BlockSource σ W)} (hbuild : setup.build = .ok m₀) (hm : Reachable m₀ m) :
    (∃ given, setup.resolveWeights = .ok given ∧ setup.completeWeights given = .ok m₀.weights ∧
      PrimalDual.resolveSteps m₀.scales setup.sigma setup.tau = .ok (m₀.sigma, m₀.tau)) ∧
    (∀ sigma tau m', m.setStepSizes sigma tau = .ok m' →
      PrimalDual.resolveSteps m.scales sigma tau = .ok (m'.sigma, m'.tau)) ∧
    (∀ gamma rho m', m.setStepSizesFromRatio gamma rho = .ok m' →
      PrimalDual.stepsFromRatio m.scales gamma rho = .ok (m'.sigma, m'.tau)) ∧
    m.Fits setup ∧
    ∀ x, m.primalTerm.proximalInto (List.zipWith (fun x zbar => x - m.tau * zbar) m.x m.zbar) m.tau m.x =
        .ok () x →
      (setup.count ≤ m.nextIndex →
        ∃ m', m.update = .error (.subsetOutOfRange m.nextIndex setup.count) m') ∧
      (m.nextIndex < setup.count → ∃ b, m.blocks[m.nextIndex]? = some b ∧ EndsOn b m.update) := by
  have hstart := SpdhgSetup.shaped_of_build hbuild
  have hfits : m.Fits setup :=
    hm.fits hstart (SpdhgSetup.fits_of_build hbuild) (SpdhgSetup.domainDim_of_build hbuild)
  have hcount : m.blocks.length = setup.count := by
    rw [← hfits.length_terms, blockTerms, List.length_map]
  refine ⟨SpdhgSetup.listed_of_build hbuild, fun _ _ _ => resolved_of_setStepSizes,
    fun _ _ _ => resolved_of_setStepSizesFromRatio, hfits, fun x hx => ?_⟩
  rw [← hcount]
  exact (hm.shaped hstart).update_of_index hx

/-- Two blocks on the real line, whose source names an index beyond them before it names the first of them. -/
noncomputable def strayLine (a b start : ℝ) : SpdhgSetup ℝ (Sampler ℝ) :=
  { oneDimensional a b start with source := some (.fresh .customOrder 2 0 (.rounds #[5, 0] #[5, 0] false)) }

/-- The method that belongs to it, before its first iteration. The source never names the second block. -/
noncomputable def strayMethod (a b start : ℝ) : Spdhg ℝ (BlockSource (Sampler ℝ) ℝ) :=
  { oneDimensionalMethod a b start with
    blocks := List.zipWith (fun block weight => { block with weight := weight })
      (oneDimensionalMethod a b start).blocks [1 / (1 + 1), 0]
    source := .given (.fresh .customOrder 2 0 (.rounds #[5, 0] #[5, 0] false)) }

theorem build_strayLine (a b start : ℝ) : (strayLine a b start).build = .ok (strayMethod a b start) := by
  have hvisits : Sampler.visits 2 #[5, 0] = #[1, 0] := by decide
  simp [SpdhgSetup.build, strayLine, oneDimensional, oneDimensionalMethod, strayMethod, SpdhgSetup.checkTerms,
    SpdhgSetup.count, SpdhgSetup.resolveWeights, SpdhgSetup.stack, SpdhgSetup.completeWeights,
    SpdhgSetup.blockSource, IndexSource.frequencies?, Sampler.frequencies, Sampler.fresh, hvisits,
    OperatorStack.norms?, PrimalDual.resolveSteps, PrimalDual.requirePositive, PrimalDual.dualSteps,
    PrimalDual.requireAllPositive, SpdhgSetup.start, Fault.lift, Fault.ofOption, bind, Except.bind, pure,
    Except.pure, Precision.narrow, SpdhgSetup.blocks, LinearOperator.matrix, LinearOperator.diagonal,
    Vec.zeros, one_add_one_eq_two]

/-- With the step one, the proximal map of the square divides by three. -/
theorem proximalInto_unit_one (a b : ℝ) :
    SquaredDistance.unit.functional.proximalInto [a] 1 [b] = .ok () [a / 3] := by
  simp only [Functional.proximalInto, SquaredDistance.functional, SquaredDistance.unit,
    SquaredDistance.proximal?, SquaredDistance.entries, Functional.sameLength_eq_ok_iff,
    Functional.overwrite_eq_ok_iff]
  norm_num

open Spdhg in
/-- The first iteration fails on the index beyond the blocks. The state that it leaves fits the setup, and its
    next iteration ends on the first block. -/
theorem reachable_states_fit_after_stray_index : ∃ m b, (strayLine 3 2 3).build = .ok (strayMethod 3 2 3) ∧
    (strayMethod 3 2 3).update = .error (.subsetOutOfRange 5 2) m ∧ Reachable (strayMethod 3 2 3) m ∧
    m.Fits (strayLine 3 2 3) ∧ m.blocks[0]? = some b ∧ EndsOn b m.update := by
  have hpoint : (strayMethod 3 2 3).forwardPoint? = some [3] := by
    simp [forwardPoint?_eq_some_iff, strayMethod, oneDimensionalMethod]
  have hu := update_eq_error_iff.mpr
    ⟨[3], [3 / 3], hpoint, Or.inr (Or.inl ⟨proximalInto_unit_one 3 3, rfl, rfl, rfl⟩)⟩
  have hm : Reachable (strayMethod 3 2 3) _ := .call (c := .update) .start (by rw [perform, hu]; rfl)
  obtain ⟨-, -, -, hfits, hnext⟩ := reachable_states_fit (build_strayLine 3 2 3) hm
  -- the failed iteration has moved the solution to one, and the source to its second index
  obtain ⟨b, hb, hends⟩ := (hnext [1 / 3] (by
    simpa [strayMethod, oneDimensionalMethod] using proximalInto_unit_one 1 1)).2 (by decide)
  exact ⟨_, b, build_strayLine 3 2 3, hu, hm, hfits, hb, hends⟩

end Splitting
