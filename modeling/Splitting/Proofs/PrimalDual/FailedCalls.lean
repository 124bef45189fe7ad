import Splitting.Proofs.Buffers
import Splitting.Proofs.PrimalDual.Representation

/-!
# `Splitting.Proofs.PrimalDual.FailedCalls` — what a failed call leaves of the method

An iteration writes the solution before it draws an index, and draws an index before it computes a dual step.
Each of the three may fail. Wherever it stops, the half of the state that a completed iteration would have
moved last is as it was, so that a caller may go on from it: no dual variable is half written, and nothing has
been counted. A record of the objectives may fail after it has filled buffers, and moves nothing else.

* `Spdhg.SameDualHalf` — two states with the same dual half;
* `Spdhg.sameDualHalf_of_update_error`, `Spdhg.sameDualHalf_of_recordObjective` — one failed call;
* `Spdhg.stop_of_update_error` — where an iteration stopped, with the solution and the source it left;
* `Spdhg.failed_calls_keep_dual_half` — both together;
* `Spdhg.sameDualHalf_of_failures` — any number of failed calls, one after another.
-/

namespace Splitting

variable {S W σ : Type}

/-- What can be read off the blocks without their buffers is the same for blocks with one outline. -/
theorem DualBlock.map_of_map_outline {β : Type} {g : DualBlock S → β} (hg : ∀ b : DualBlock S, g b.outline.1 = g b)
    {bs bs' : List (DualBlock S)} (h : bs'.map outline = bs.map outline) : bs'.map g = bs.map g := by
  have hread := congrArg (List.map fun o => g o.1) h
  rw [List.map_map, List.map_map] at hread
  have hcomp : (fun o : DualBlock S × Nat × Nat => g o.1) ∘ outline = g := funext hg
  rwa [hcomp] at hread

namespace Spdhg

/-! ## The dual half of the state -/

/-- Two states with the same dual half: the dual variables and the two sums of their adjoints, the steps, what
    the steps are derived from, and what has been recorded and counted. -/
structure SameDualHalf (m m' : Spdhg S σ) : Prop where
  duals : m'.duals = m.duals
  z : m'.z = m.z
  zbar : m'.zbar = m.zbar
  sigma : m'.sigma = m.sigma
  tau : m'.tau = m.tau
  weights : m'.weights = m.weights
  norms : m'.norms = m.norms
  losses : m'.losses = m.losses
  iteration : m'.iteration = m.iteration

namespace SameDualHalf

variable {m m' m'' : Spdhg S σ}

theorem refl (m : Spdhg S σ) : m.SameDualHalf m := ⟨rfl, rfl, rfl, rfl, rfl, rfl, rfl, rfl, rfl⟩

theorem trans (h : m.SameDualHalf m') (h' : m'.SameDualHalf m'') : m.SameDualHalf m'' :=
  ⟨h'.duals.trans h.duals, h'.z.trans h.z, h'.zbar.trans h.zbar, h'.sigma.trans h.sigma, h'.tau.trans h.tau,
    h'.weights.trans h.weights, h'.norms.trans h.norms, h'.losses.trans h.losses,
    h'.iteration.trans h.iteration⟩

/-- The solution, the source and the buffers are not part of the dual half. -/
theorem of_outline (m : Spdhg S σ) (x scratch : Vec S) (source : σ) {blocks : List (DualBlock S)}
    (h : blocks.map DualBlock.outline = m.blocks.map DualBlock.outline) :
    m.SameDualHalf { m with x := x, scratch := scratch, source := source, blocks := blocks } where
  duals := DualBlock.map_of_map_outline (fun _ => rfl) h
  z := rfl
  zbar := rfl
  sigma := DualBlock.map_of_map_outline (fun _ => rfl) h
  tau := rfl
  weights := DualBlock.map_of_map_outline (fun _ => rfl) h
  norms := DualBlock.map_of_map_outline (fun _ => rfl) h
  losses := rfl
  iteration := rfl

end SameDualHalf

variable [Scalar S] {m m' : Spdhg S σ} {e : Error}

/-! ## One failed call -/

/-- **A failed iteration keeps the dual half.** -/
theorem sameDualHalf_of_update_error [IndexSource σ W] (h : m.update = .error e m') : m.SameDualHalf m' := by
  obtain ⟨x, scratch, source, blocks, rfl, -, -, hblocks⟩ := frame_of_update_error h
  exact .of_outline m x scratch source hblocks

/-- **A failed record keeps the dual half,** with the solution and the source. -/
theorem sameDualHalf_of_recordObjective (h : m.recordObjective = .error e m') :
    m.SameDualHalf m' ∧ m'.x = m.x ∧ m'.source = m.source := by
  rcases recordObjective_eq_error h with
    ⟨g, blocks, hb, rfl⟩ | ⟨g, primal, dual, blocks, v, hb, -, -, rfl⟩
  · have hblocks : blocks.map DualBlock.outline = m.blocks.map DualBlock.outline :=
      outline_of_blockObjectives (by rw [hb]; rfl)
    exact ⟨.of_outline m m.x m.scratch m.source hblocks, rfl, rfl⟩
  · have hblocks : blocks.map DualBlock.outline = m.blocks.map DualBlock.outline :=
      outline_of_blockObjectives (by rw [hb]; rfl)
    exact ⟨.of_outline m m.x v m.source hblocks, rfl, rfl⟩

variable [IndexSource σ W]

/-- **Where a failed iteration stopped.** In the proximal map of `g`, which was given the buffer of the
    solution, before an index was drawn; or after one index was drawn and with the next solution in place,
    either because that index has no block or in the proximal map of the conjugate of the block it names. -/
theorem stop_of_update_error (h : m.update = .error e m') :
    ∃ point, m.forwardPoint? = some point ∧
      ((m.primalTerm.proximalInto point m.tau m.x = .error e m'.x ∧ m'.source = m.source) ∨
        (m.primalTerm.proximalInto point m.tau m.x = .ok () m'.x ∧ m'.source = m.nextSource ∧
          ((m.blocks[m.nextIndex]? = none ∧ e = .subsetOutOfRange m.nextIndex m.blocks.length) ∨
            ∃ b image ascent y, m.blocks[m.nextIndex]? = some b ∧
              b.operator.directInto m'.x b.image = some image ∧
              Vec.zip? (fun a y => y + b.sigma * a) image b.dual = some ascent ∧
              b.term.proximalConjugateInto ascent b.sigma b.spare = .error e y))) := by
  obtain ⟨point, x, hpoint, ⟨hx, rfl⟩ | ⟨hx, hb, he, rfl⟩ | ⟨hx, b, b', hb, hascend, rfl⟩⟩ :=
    update_eq_error_iff.mp h
  · exact ⟨point, hpoint, Or.inl ⟨hx, rfl⟩⟩
  · exact ⟨point, hpoint, Or.inr ⟨hx, rfl, Or.inl ⟨hb, he⟩⟩⟩
  · obtain ⟨image, ascent, y, himage, hascent, hy, -⟩ := DualBlock.ascend_eq_error_iff.mp hascend
    exact ⟨point, hpoint, Or.inr ⟨hx, rfl, Or.inr ⟨b, image, ascent, y, hb, himage, hascent, hy⟩⟩⟩

/-- **A failed call keeps the dual half,** in every state of the method. An iteration fails in the proximal map
    of `g`, and then leaves the source alone and as the solution what that map left in its buffer; or it has
    drawn one index, and the solution is the proximal map at `x - τ z̄`. A record keeps the solution and the
    source, too. -/
theorem failed_calls_keep_dual_half (m : Spdhg S σ) :
    (∀ e m', m.update = .error e m' → m.SameDualHalf m' ∧
      ∃ point, point = List.zipWith (fun x zbar => x - m.tau * zbar) m.x m.zbar ∧
        ((m.primalTerm.proximalInto point m.tau m.x = .error e m'.x ∧ m'.source = m.source ∧
            (Spares (m.primalTerm.proximal point m.tau) → m'.x = m.x)) ∨
          (m.primalTerm.proximalInto point m.tau m.x = .ok () m'.x ∧ m'.source = m.nextSource ∧
            (Fills (m.primalTerm.proximal point m.tau) → m.primalTerm.proximal? point m.tau = some m'.x) ∧
            ((m.blocks[m.nextIndex]? = none ∧ e = .subsetOutOfRange m.nextIndex m.blocks.length) ∨
              ∃ b image ascent y, m.blocks[m.nextIndex]? = some b ∧
                b.operator.directInto m'.x b.image = some image ∧
                Vec.zip? (fun a y => y + b.sigma * a) image b.dual = some ascent ∧
                b.term.proximalConjugateInto ascent b.sigma b.spare = .error e y)))) ∧
      ∀ e m', m.recordObjective = .error e m' → m.SameDualHalf m' ∧ m'.x = m.x ∧ m'.source = m.source := by
  refine ⟨fun e m' h => ⟨sameDualHalf_of_update_error h, ?_⟩, fun e m' => sameDualHalf_of_recordObjective⟩
  obtain ⟨point, hpoint, hstop⟩ := stop_of_update_error h
  obtain ⟨hzbar, -, heq⟩ := forwardPoint?_eq_some_iff.mp hpoint
  refine ⟨point, heq, ?_⟩
  rcases hstop with ⟨hx, hsource⟩ | ⟨hx, hsource, hdual⟩
  · exact Or.inl ⟨hx, hsource, fun hspares => (Functional.spares_sameLength hspares rfl hx).1⟩
  · -- the forward point has the length of the solution, whose buffer the proximal map has filled
    have hlength : m.x.length = point.length := by
      rw [heq]
      exact (Vec.length_zipWith_of_length rfl hzbar.symm).symm
    exact Or.inr ⟨hx, hsource, fun hfills => (Functional.proximal?_eq_some_iff hfills hlength).mpr hx, hdual⟩

/-- Two blocks on the real line, a source that first names an index beyond them, and a term `g` of which only
    the value and the proximal map are known. -/
noncomputable def strayMethodWithoutConjugate (a b start : ℝ) : Spdhg ℝ (BlockSource (Sampler ℝ) ℝ) :=
  { strayMethod a b start with primalTerm := SquaredDistance.unit.functional.proximalOnly }

/-- Its first iteration moves the solution from three to one and fails on the index; a record fails on the
    conjugate of `g`, when the blocks are done. -/
theorem failed_calls_keep_dual_half_on_the_line :
    (∃ m, (strayMethodWithoutConjugate 3 2 3).update = .error (.subsetOutOfRange 5 2) m ∧
      (strayMethodWithoutConjugate 3 2 3).SameDualHalf m ∧
      m.source = (strayMethodWithoutConjugate 3 2 3).nextSource ∧ m.x = [1]) ∧
    ∃ m, (strayMethodWithoutConjugate 3 2 3).recordObjective = .error (.unsupported "convex_conjugate") m ∧
      (strayMethodWithoutConjugate 3 2 3).SameDualHalf m ∧ m.x = [3] := by
  obtain ⟨hupdate, hrecord⟩ := failed_calls_keep_dual_half (strayMethodWithoutConjugate 3 2 3)
  have hprimal : (strayMethodWithoutConjugate 3 2 3).primalTerm.proximalInto [3] 1 [3] = .ok () [3 / 3] :=
    proximalInto_unit_one 3 3
  constructor
  · have hpoint : (strayMethodWithoutConjugate 3 2 3).forwardPoint? = some [3] := by
      simp [forwardPoint?_eq_some_iff, strayMethodWithoutConjugate, strayMethod, oneDimensionalMethod]
    have hu := update_eq_error_iff.mpr ⟨[3], [3 / 3], hpoint, Or.inr (Or.inl ⟨hprimal, rfl, rfl, rfl⟩)⟩
    refine ⟨_, hu, (hupdate _ _ hu).1, rfl, ?_⟩
    norm_num
  · have hr : ∃ m, (strayMethodWithoutConjugate 3 2 3).recordObjective =
        .error (.unsupported "convex_conjugate") m := by
      simp [recordObjective, blockObjectives, negatedAdjoint?, strayMethodWithoutConjugate, strayMethod,
        oneDimensionalMethod, LinearOperator.directInto, LinearOperator.adjointSum?,
        LinearOperator.adjointInto, LinearOperator.matrix, LinearOperator.diagonal,
        LinearOperator.scaleEntries, Matrix.mulVec?, Matrix.transposeMulVec?, Matrix.columnDot?,
        Matrix.column, Vec.dot?_eq_pairing, Vec.pairing, Vec.write?, Vec.zip?, Vec.spread?, Vec.zeros,
        OneNorm.functional, Functional.proximalOnly, Functional.ofProximal, SquaredDistance.functional,
        SquaredDistance.unit, SquaredDistance.value?, SquaredDistance.distanceSq?,
        SquaredDistance.conjugate?, Outcome.ofExcept]
    obtain ⟨m, hr⟩ := hr
    obtain ⟨hsame, hx, -⟩ := hrecord _ m hr
    exact ⟨m, hr, hsame, hx⟩

/-! ## Any number of failed calls -/

/-- A call that fails keeps the dual half, whichever call it is. -/
theorem sameDualHalf_of_perform_error {c : Call S} (h : m.perform c = .error e m') : m.SameDualHalf m' := by
  have hkept : ∀ new, m.changeOrKeep new = .error e m' → m.SameDualHalf m' := by
    intro new hnew
    cases new with
    | ok n => cases hnew
    | error e' =>
      cases hnew
      exact .refl m
  cases c with
  | update => exact sameDualHalf_of_update_error h
  | recordObjective => exact (sameDualHalf_of_recordObjective h).1
  | setStepSizes sigma tau => exact hkept _ h
  | setStepSizesFromRatio gamma rho => exact hkept _ h

/-- **Failed calls, one after another, keep the dual half.** -/
theorem sameDualHalf_of_failures
    (h : Relation.ReflTransGen (fun m m' : Spdhg S σ => ∃ c e, m.perform c = .error e m') m m') :
    m.SameDualHalf m' := by
  induction h with
  | refl => exact .refl m
  | tail _ hcall ih =>
    obtain ⟨c, e, hcall⟩ := hcall
    exact ih.trans (sameDualHalf_of_perform_error hcall)

end Spdhg

end Splitting
