import Splitting.Proofs.Buffers
import Splitting.Proofs.PrimalDual.RunningAdjoint

/-!
# `Splitting.Proofs.PrimalDual.Refinement` — the buffers compute the documented iteration

An iteration works in buffers that hold what earlier calls have left there: the forward point or an adjoint,
the dual variable before the last or the change of it, the image of an older solution. None of this shows.
The vectors that an iteration ends with are those of the iteration as it is documented, operation by
operation, so that the two agree in any arithmetic.

* `Spdhg.Iterate` — the vectors of the method, without buffers;
* `Spdhg.documented?` — the documented iteration, which reads no buffer;
* `Spdhg.outline` — the method with its buffers emptied, and the lengths that they had;
* `Spdhg.documented?_eq_some_iff` — an iteration succeeds exactly when the documented one does, with its
  result;
* `update_refines_documented` — the main statement.
-/

namespace Splitting

variable {S W σ : Type}

namespace Spdhg

/-- The vectors of the method and the number of its iterations, without buffers. -/
structure Iterate (S : Type) where
  x : Vec S
  duals : List (Vec S)
  z : Vec S
  zbar : Vec S
  iteration : Nat

/-- The method as the documented iteration sees it. -/
def iterate (m : Spdhg S σ) : Iterate S := ⟨m.x, m.duals, m.z, m.zbar, m.iteration⟩

/-- The method with its buffers emptied, and the lengths that they had. -/
def outline (m : Spdhg S σ) : Spdhg S σ × Nat × List (DualBlock S × Nat × Nat) :=
  ({ m with blocks := [], scratch := [] }, m.scratch.length, m.blocks.map DualBlock.outline)

variable [Scalar S]

/-- **The documented iteration** with block `i`:

      `x' = prox (τ g) (x - τ z̄)`,
      `yᵢ' = prox (σᵢ fᵢ*) (yᵢ + σᵢ Kᵢ x')`,
      `Δ = Kᵢᵀ (yᵢ' - yᵢ)`,
      `z' = z + Δ`,
      `z̄' = z' + (1 / pᵢ) Δ`,

    with every vector a fresh one. -/
def documented? (m : Spdhg S σ) (i : Nat) : Option (Iterate S) := do
  let b ← m.blocks[i]?
  let x ← m.primalTerm.proximal? (← Vec.zip? (fun x zbar => x - m.tau * zbar) m.x m.zbar) m.tau
  let image ← b.operator.direct? x
  let y ← b.term.proximalConjugate? (← Vec.zip? (fun a y => y + b.sigma * a) image b.dual) b.sigma
  let delta ← b.operator.adjoint? (← Vec.zip? (fun old new => new - old) b.dual y)
  let z ← Vec.zip? (· + ·) m.z delta
  let zbar ← Vec.zip? (fun z d => z + 1 / b.weight * d) z delta
  return ⟨x, m.duals.set i y, z, zbar, m.iteration + 1⟩

theorem documented?_eq_some_iff_equations {m : Spdhg S σ} {i : Nat} {s : Iterate S} :
    m.documented? i = some s ↔ ∃ b point x image ascent y change delta z zbar, m.blocks[i]? = some b ∧
      Vec.zip? (fun x zbar => x - m.tau * zbar) m.x m.zbar = some point ∧
      m.primalTerm.proximal? point m.tau = some x ∧ b.operator.direct? x = some image ∧
      Vec.zip? (fun a y => y + b.sigma * a) image b.dual = some ascent ∧
      b.term.proximalConjugate? ascent b.sigma = some y ∧
      Vec.zip? (fun old new => new - old) b.dual y = some change ∧ b.operator.adjoint? change = some delta ∧
      Vec.zip? (· + ·) m.z delta = some z ∧ Vec.zip? (fun z d => z + 1 / b.weight * d) z delta = some zbar ∧
      s = ⟨x, m.duals.set i y, z, zbar, m.iteration + 1⟩ := by
  simp only [documented?, Option.bind_eq_bind, Option.bind_eq_some_iff, Option.pure_def, Option.some.injEq]
  constructor
  · rintro ⟨b, hb, point, hpoint, x, hx, image, himage, ascent, hascent, y, hy, change, hchange, delta,
      hdelta, z, hz, zbar, hzbar, rfl⟩
    exact ⟨b, point, x, image, ascent, y, change, delta, z, zbar, hb, hpoint, hx, himage, hascent, hy,
      hchange, hdelta, hz, hzbar, rfl⟩
  · rintro ⟨b, point, x, image, ascent, y, change, delta, z, zbar, hb, hpoint, hx, himage, hascent, hy,
      hchange, hdelta, hz, hzbar, rfl⟩
    exact ⟨b, hb, point, hpoint, x, hx, image, himage, ascent, hascent, y, hy, change, hchange, delta, hdelta,
      z, hz, zbar, hzbar, rfl⟩

/-! ## The law of buffers along a run -/

/-- The functions and operators of the method overwrite their buffers. -/
structure Overwrites (m : Spdhg S σ) : Prop where
  primalTerm : m.primalTerm.Overwrites
  block : ∀ b ∈ m.blocks, b.term.Overwrites ∧ b.operator.Overwrites

omit [Scalar S] in
theorem Overwrites.of_data {m m' : Spdhg S σ} (h : m.Overwrites) (hterm : m'.primalTerm = m.primalTerm)
    (hblocks : m'.blocks.map DualBlock.data = m.blocks.map DualBlock.data) : m'.Overwrites := by
  refine ⟨hterm ▸ h.primalTerm, forall_mem_of_map_eq (fun a b hab ha => ?_) hblocks h.block⟩
  simp only [DualBlock.data, Prod.mk.injEq] at hab
  obtain ⟨hf, hk, -, -⟩ := hab
  rwa [hf, hk]

end Spdhg

/-- A method that was built from functions and operators which overwrite their buffers is made of such. -/
theorem SpdhgSetup.overwrites_of_build [Scalar S] [Scalar W] [Precision S W] [IndexSource σ W]
    {setup : SpdhgSetup S σ} {m : Spdhg S (BlockSource σ W)} (h : setup.build = .ok m)
    (hg : setup.primalTerm.Overwrites) (hf : ∀ f ∈ setup.terms, f.Overwrites)
    (hK : ∀ op ∈ setup.operator.blocks, op.Overwrites) : m.Overwrites := by
  obtain ⟨given, weights, source, norms, steps, x, -, -, -, -, -, -, rfl⟩ := build_eq_ok h
  refine ⟨hg, ?_⟩
  intro b hb
  obtain ⟨hterm, hop⟩ := mem_of_mem_blocks hb
  exact ⟨hf _ hterm, hK _ hop⟩

namespace Spdhg

variable [Scalar S]

/-! ## The iteration and its documentation -/

section

variable [IndexSource σ W] {m : Spdhg S σ}

omit [IndexSource σ W] in
/-- The forward point always fits into the scratch buffer. -/
theorem Shaped.forwardPoint?_eq_some_iff (hm : m.Shaped) {point : Vec S} : m.forwardPoint? = some point ↔
    Vec.zip? (fun x zbar => x - m.tau * zbar) m.x m.zbar = some point := by
  rw [Spdhg.forwardPoint?_eq_some_iff, Vec.zip?_eq_some_iff]
  constructor
  · rintro ⟨hl, -, rfl⟩
    exact ⟨hl, rfl⟩
  · rintro ⟨hl, rfl⟩
    exact ⟨hl, hm.x.trans hm.scratch.symm, rfl⟩

omit [IndexSource σ W] in
/-- The buffers of the method and of the drawn block have the lengths of what is written into them. -/
theorem Shaped.length_buffers (hm : m.Shaped) {b : DualBlock S} (hb : b ∈ m.blocks)
    {point x image ascent : Vec S}
    (hpoint : m.forwardPoint? = some point) (himage : b.operator.directInto x b.image = some image)
    (hascent : Vec.zip? (fun a y => y + b.sigma * a) image b.dual = some ascent) :
    m.x.length = point.length ∧ b.spare.length = ascent.length ∧ point.length = b.operator.domainDim := by
  have hblock := hm.block b hb
  have hpointLength : point.length = m.x.length := Vec.length_of_zip? (hm.forwardPoint?_eq_some_iff.mp hpoint)
  have hascentLength : ascent.length = b.image.length :=
    (Vec.length_of_zip? hascent).trans (LinearOperator.length_of_directInto himage)
  refine ⟨hpointLength.symm, ?_, ?_⟩
  · rw [hascentLength, hblock.spare, hblock.image]
  · rw [hpointLength, hm.x, hblock.domainDim]

/-- Where the documented iteration has a result, the buffers have the room for it. -/
theorem update_of_documented? (hm : m.Shaped) (hfill : m.Overwrites) {s : Iterate S}
    (h : m.documented? m.nextIndex = some s) : ∃ m', m.update = .ok () m' ∧ m'.iterate = s := by
  obtain ⟨b, point, x, image, ascent, y, change, delta, z, zbar, hb, hpoint, hx, himage, hascent, hy,
    hchange, hdelta, hz, hzbar, rfl⟩ := documented?_eq_some_iff_equations.mp h
  obtain ⟨hterm, hop⟩ := hfill.block b (List.mem_of_getElem? hb)
  have hblock := hm.block b (List.mem_of_getElem? hb)
  -- each vector is the one that is left in a fresh buffer, and so the one that is left in the buffer there is
  have hpoint' := hm.forwardPoint?_eq_some_iff.mpr hpoint
  have himage' := (hop.direct?_eq_some_iff hblock.image).mp himage
  obtain ⟨hxl, hyl, hdl⟩ := hm.length_buffers (List.mem_of_getElem? hb) hpoint' himage' hascent
  have hx' := (Functional.proximal?_eq_some_iff (hfill.primalTerm.proximal _ _) hxl).mp hx
  have hy' := (Functional.proximalConjugate?_eq_some_iff (hterm.proximalConjugate _ _) hyl).mp hy
  have hdelta' := (hop.adjoint?_eq_some_iff hdl).mp hdelta
  obtain ⟨hl, rfl⟩ := Vec.zip?_eq_some_iff.mp hchange
  obtain ⟨hzl, rfl⟩ := Vec.zip?_eq_some_iff.mp hz
  obtain ⟨-, rfl⟩ := Vec.zip?_eq_some_iff.mp hzbar
  refine ⟨_, update_eq_ok_iff_equations.mpr ⟨point, x, b, image, ascent, y, delta, hpoint', hx', hb,
    himage', hascent, hy', hl, hdelta', hzl, hm.z.trans hm.zbar.symm, rfl⟩, ?_⟩
  simp only [iterate, duals, List.map_set]

/-- What an iteration ends with is the result of the documented one. -/
theorem documented?_of_update (hm : m.Shaped) (hfill : m.Overwrites) {m' : Spdhg S σ}
    (hu : m.update = .ok () m') : m.documented? m.nextIndex = some m'.iterate := by
  obtain ⟨point, x, b, image, ascent, y, delta, hpoint, hx, hb, himage, hascent, hy, hl, hdelta, hzl, hbl,
    rfl⟩ := update_eq_ok_iff_equations.mp hu
  obtain ⟨hterm, hop⟩ := hfill.block b (List.mem_of_getElem? hb)
  have hblock := hm.block b (List.mem_of_getElem? hb)
  obtain ⟨hxl, hyl, hdl⟩ := hm.length_buffers (List.mem_of_getElem? hb) hpoint himage hascent
  have hsum : (List.zipWith (· + ·) m.z delta).length = delta.length := Vec.length_zipWith_of_length hzl rfl
  refine documented?_eq_some_iff_equations.mpr ⟨b, point, x, image, ascent, y, _, delta, _, _, hb, ?_, ?_,
    ?_, hascent, ?_, Vec.zip?_eq_some_iff.mpr ⟨hl, rfl⟩, ?_, Vec.zip?_eq_some_iff.mpr ⟨hzl, rfl⟩,
    Vec.zip?_eq_some_iff.mpr ⟨hsum, rfl⟩, ?_⟩
  · exact hm.forwardPoint?_eq_some_iff.mp hpoint
  · exact (Functional.proximal?_eq_some_iff (hfill.primalTerm.proximal _ _) hxl).mpr hx
  · exact (hop.direct?_eq_some_iff hblock.image).mpr himage
  · exact (Functional.proximalConjugate?_eq_some_iff (hterm.proximalConjugate _ _) hyl).mpr hy
  · exact (hop.adjoint?_eq_some_iff hdl).mpr hdelta
  · simp only [iterate, duals, List.map_set]

/-- **An iteration succeeds exactly when the documented one does,** and then computes the same. -/
theorem documented?_eq_some_iff (hm : m.Shaped) (hfill : m.Overwrites) {s : Iterate S} :
    m.documented? m.nextIndex = some s ↔ ∃ m', m.update = .ok () m' ∧ m'.iterate = s := by
  constructor
  · exact update_of_documented? hm hfill
  · rintro ⟨m', hu, rfl⟩
    exact documented?_of_update hm hfill hu

/-- **Stale contents do not matter:** an iteration that succeeds does so from all buffers of the same
    lengths, and ends with the same apart from the contents of buffers. -/
theorem update_of_outline_eq {n m' : Spdhg S σ} (hfill : m.Overwrites) (h : n.outline = m.outline)
    (hu : m.update = .ok () m') : ∃ n', n.update = .ok () n' ∧ n'.outline = m'.outline := by
  obtain ⟨point, x, b, image, ascent, y, delta, hpoint, hx, hb, himage, hascent, hy, hl, hdelta, hzl, hbl,
    rfl⟩ := update_eq_ok_iff_equations.mp hu
  obtain ⟨hterm, hop⟩ := hfill.block b (List.mem_of_getElem? hb)
  obtain ⟨blocks, dim, term, source, tau, x₀, scratch, z, zbar, losses, iteration⟩ := m
  obtain ⟨blocks', dim', term', source', tau', x₀', scratch', z', zbar', losses', iteration'⟩ := n
  simp only [outline, Prod.mk.injEq, Spdhg.mk.injEq, true_and] at h
  obtain ⟨⟨rfl, rfl, rfl, rfl, rfl, rfl, rfl, rfl, rfl⟩, hscratch, hblocks⟩ := h
  -- the drawn block of the other method has the same data and buffers of the same lengths
  obtain ⟨c, hc, hcb⟩ : ∃ c, blocks'[(IndexSource.next source').1]? = some c ∧ c.outline = b.outline := by
    have := congrArg (·[(IndexSource.next source').1]?) hblocks
    simp only [List.getElem?_map, nextIndex] at this hb
    rw [hb] at this
    exact Option.map_eq_some_iff.mp this
  obtain ⟨hcterm, hcop, hcweight, hcnorm, hcsigma, hcdual, hcspare, hcimage⟩ :=
    DualBlock.outline_eq_iff.mp hcb
  obtain ⟨hbar, hs, rfl⟩ := forwardPoint?_eq_some_iff.mp hpoint
  refine ⟨_, update_eq_ok_iff_equations.mpr ⟨_, x, c, image, ascent, y, delta,
    forwardPoint?_eq_some_iff.mpr ⟨hbar, hs.trans hscratch.symm, rfl⟩, hx, hc, ?_, ?_, ?_, ?_, ?_,
    hzl, hbl, rfl⟩, ?_⟩
  · rw [hcop]
    exact hop.fills?_directInto x hcimage himage
  · rw [hcsigma, hcdual]
    exact hascent
  · rw [hcterm, hcsigma]
    exact Functional.fills_sameLength (hterm.proximalConjugate ascent b.sigma) hcspare hy
  · rw [hcdual]
    exact hl
  · rw [hcop, hcdual]
    exact hdelta
  · have hnext : DualBlock.outline { c with
        dual := y
        spare := List.zipWith (fun old new => new - old) c.dual y
        image := ascent } = DualBlock.outline { b with
        dual := y
        spare := List.zipWith (fun old new => new - old) b.dual y
        image := ascent } :=
      DualBlock.outline_eq_iff.mpr ⟨hcterm, hcop, hcweight, hcnorm, hcsigma, rfl, by rw [hcdual], rfl⟩
    simp only [outline, nextIndex, nextSource, List.map_set, hblocks, hnext]
    rw [hcweight]

end

end Spdhg

open Spdhg in
/-- **The buffers compute the documented iteration,** in any arithmetic. From every method that calls lead
    to, an iteration that succeeds ends with the vectors of the documented one, keeps the steps, the
    probabilities, the norms and the records, and would end with the same if the buffers had held anything
    else. -/
theorem update_refines_documented [Scalar S] [Scalar W] [Precision S W] [IndexSource σ W]
    {setup : SpdhgSetup S σ} {m₀ m m' : Spdhg S (BlockSource σ W)} (hbuild : setup.build = .ok m₀)
    (hg : setup.primalTerm.Overwrites) (hf : ∀ f ∈ setup.terms, f.Overwrites)
    (hK : ∀ op ∈ setup.operator.blocks, op.Overwrites) (h : Reachable m₀ m) (hu : m.update = .ok () m') :
    m.documented? m.nextIndex = some m'.iterate ∧
      (m'.sigma = m.sigma ∧ m'.tau = m.tau ∧ m'.weights = m.weights ∧ m'.norms = m.norms ∧
        m'.losses = m.losses) ∧
      ∀ n : Spdhg S (BlockSource σ W), n.outline = m.outline →
        ∃ n', n.update = .ok () n' ∧ n'.outline = m'.outline := by
  have hshaped : m.Shaped := h.shaped (SpdhgSetup.shaped_of_build hbuild)
  have hfill : m.Overwrites :=
    (SpdhgSetup.overwrites_of_build hbuild hg hf hK).of_data h.data.2.1 h.data.2.2
  refine ⟨(documented?_eq_some_iff hshaped hfill).mpr ⟨m', hu, rfl⟩, ?_,
    fun n hn => update_of_outline_eq hfill hn hu⟩
  obtain ⟨point, x, b, image, ascent, y, delta, -, -, hb, -, -, -, -, -, -, -, rfl⟩ :=
    update_eq_ok_iff_equations.mp hu
  refine ⟨map_set_of_eq hb ?_, rfl, map_set_of_eq hb ?_, map_set_of_eq hb ?_, rfl⟩
  · rfl
  · rfl
  · rfl

theorem update_refines_documented_on_the_line :
    ∃ m, (oneDimensional 3 2 3).build = .ok (oneDimensionalMethod 3 2 3) ∧
    (oneDimensional 3 2 3).primalTerm.Overwrites ∧ (∀ f ∈ (oneDimensional 3 2 3).terms, f.Overwrites) ∧
    (∀ op ∈ (oneDimensional 3 2 3).operator.blocks, op.Overwrites) ∧
    Spdhg.Reachable (oneDimensionalMethod 3 2 3) (oneDimensionalMethod 3 2 3) ∧
    (oneDimensionalMethod 3 2 3).update = .ok () m ∧
    m.duals = [[1], [0]] ∧
    (oneDimensionalMethod 3 2 3).documented? (oneDimensionalMethod 3 2 3).nextIndex = some m.iterate := by
  obtain ⟨m, hu, hduals, -, -⟩ := oneDimensional_first_iteration
  have hterms : ∀ f ∈ (oneDimensional 3 2 3).terms, f.Overwrites := by
    intro f hf
    rcases List.mem_pair.mp hf with rfl | rfl
    · exact OneNorm.overwrites _
    · exact SquaredDistance.overwrites _
  have hoperators : ∀ op ∈ (oneDimensional 3 2 3).operator.blocks, op.Overwrites := by
    intro op hop
    rcases List.mem_pair.mp hop with rfl | rfl
    · exact (BasicOperator.matrix _).overwrites
    · exact (BasicOperator.diagonal _).overwrites
  refine ⟨m, build_oneDimensional 3 2 3, SquaredDistance.overwrites _, hterms, hoperators, .start, hu,
    hduals, ?_⟩
  exact (update_refines_documented (build_oneDimensional 3 2 3)
    (SquaredDistance.overwrites _) hterms hoperators .start hu).1

end Splitting
