import Splitting.Functional.OneNorm
import Splitting.Functional.SquaredDistance
import Splitting.Proofs.Operator.Adjoint
import Splitting.Proofs.PrimalDual.Shape

/-!
# `Splitting.Proofs.PrimalDual.RunningAdjoint` — the adjoint sum is kept, not recomputed

The method keeps `z = ∑ Kⱼᵀ yⱼ` by adding to it, in each iteration, the adjoint of the change of one dual
variable. In exact arithmetic this is the sum itself after any calls whatever, in whatever order blocks are
drawn and wherever an iteration breaks off. The extrapolated `z̄` is `z` until an iteration completes, and
from then on exceeds it by the last change over the probability of the block that changed.

* `Spdhg.Change`, `Spdhg.History` — a sequence of calls and the last iteration completed in it;
* `Spdhg.RunningAdjoint` — the invariant, on the parts of a block that only a completed iteration moves;
* `Spdhg.RunningAdjoint.of_update`, `Spdhg.RunningAdjoint.of_parts` — what a completed iteration and every
  other call make of it;
* `Spdhg.adjoint_duals_eq_z` — the main statement.
-/

namespace Splitting

variable {S W σ : Type}

/-! ## Histories -/

namespace Spdhg

/-- A completed iteration: the block that was drawn, and its dual variable before and after. -/
structure Change (S : Type) where
  block : Nat
  before : Vec S
  after : Vec S

/-- A method reached from `start` by calls, with the last iteration that was completed on the way. A call that
    breaks off because lengths do not fit leaves no method, and ends every history. -/
inductive History [Scalar S] [IndexSource σ W] (start : Spdhg S σ) :
    Option (Change S) → Spdhg S σ → Prop where
  | start : History start none start
  | completed {last : Option (Change S)} {m m' : Spdhg S σ} : History start last m → m.update = .ok () m' →
      History start (some ⟨m.nextIndex, m.duals.getD m.nextIndex [], m'.duals.getD m.nextIndex []⟩) m'
  | other {last : Option (Change S)} {m m' : Spdhg S σ} {c : Call S} : History start last m →
      (m.perform c).state? = some m' → ¬(c = .update ∧ m.update = .ok () m') → History start last m'

end Spdhg

/-! ## The parts of a block that only a completed iteration moves -/

/-- The operator, the probability and the dual variable of a block. -/
def DualBlock.part (b : DualBlock S) : LinearOperator S × S × Vec S := (b.operator, b.weight, b.dual)

theorem map_part_of_map_outline {bs bs' : List (DualBlock S)}
    (h : bs'.map DualBlock.outline = bs.map DualBlock.outline) :
    bs'.map DualBlock.part = bs.map DualBlock.part := by
  have := congrArg (List.map fun o => DualBlock.part o.1) h
  rwa [List.map_map, List.map_map] at this

namespace Spdhg

/-- A call that completes no iteration moves none of these parts, nor `z` or `z̄`. -/
theorem parts_of_perform [Scalar S] [IndexSource σ W] {m m' : Spdhg S σ} {c : Call S}
    (h : (m.perform c).state? = some m') (hc : ¬(c = .update ∧ m.update = .ok () m')) :
    m'.domainDim = m.domainDim ∧ m'.z = m.z ∧ m'.zbar = m.zbar ∧
      m'.blocks.map DualBlock.part = m.blocks.map DualBlock.part := by
  rcases perform_cases h with hu | ⟨e, hu⟩ | hr | ⟨steps, hlen, rfl⟩ | rfl
  · exact absurd hu hc
  · obtain ⟨x, scratch, source, blocks, rfl, -, -, hb⟩ := frame_of_update_error hu
    exact ⟨rfl, rfl, rfl, map_part_of_map_outline hb⟩
  · obtain ⟨scratch, blocks, losses, rfl, -, hb⟩ := frame_of_recordObjective hr
    exact ⟨rfl, rfl, rfl, map_part_of_map_outline hb⟩
  · exact ⟨rfl, rfl, rfl, map_blocks_withSteps (fun _ _ => rfl) hlen⟩
  · exact ⟨rfl, rfl, rfl, rfl⟩

theorem sum_map_set {α G : Type} [AddCommGroup G] {f : α → G} {l : List α} {i : Nat} {a a' : α}
    (ha : l[i]? = some a) : ((l.set i a').map f).sum = (l.map f).sum + (f a' - f a) := by
  obtain ⟨hi, rfl⟩ := List.getElem?_eq_some_iff.mp ha
  have hmap : i < (l.map f).length := by rwa [List.length_map]
  rw [List.map_set, List.sum_set', dif_pos hmap, List.getElem_map, neg_add_eq_sub]

theorem getD_duals {m : Spdhg S σ} {i : Nat} {b : DualBlock S} (hb : m.blocks[i]? = some b) :
    m.duals.getD i [] = b.dual := by
  rw [duals, List.getD_eq_getElem?_getD, List.getElem?_map, hb]
  rfl

/-! ## The invariant -/

/-- `z` is the sum of the adjoints on the dual variables, and `z̄` is `z` extrapolated along the last
    change. -/
structure RunningAdjoint (last : Option (Change ℝ)) (m : Spdhg ℝ σ) : Prop where
  linear : ∀ p ∈ m.blocks.map DualBlock.part, p.1.LinearAdjoint
  z : m.z.coords = ((m.blocks.map DualBlock.part).map fun p => (p.1.adjointOf p.2.2).coords).sum
  zbar_first : last = none → m.zbar = m.z
  zbar : ∀ c, last = some c → ∃ p, (m.blocks.map DualBlock.part)[c.block]? = some p ∧
    m.zbar = List.zipWith (fun z d => z + 1 / p.2.1 * d) m.z
      (p.1.adjointOf (List.zipWith (fun old new => new - old) c.before c.after))

namespace RunningAdjoint

variable {last : Option (Change ℝ)} {m m' : Spdhg ℝ σ}

theorem of_parts (h : RunningAdjoint last m)
    (hm : m'.z = m.z ∧ m'.zbar = m.zbar ∧ m'.blocks.map DualBlock.part = m.blocks.map DualBlock.part) :
    RunningAdjoint last m' := by
  obtain ⟨hz, hzbar, hparts⟩ := hm
  refine ⟨?_, ?_, ?_, ?_⟩
  · rw [hparts]
    exact h.linear
  · rw [hz, hparts]
    exact h.z
  · rw [hz, hzbar]
    exact h.zbar_first
  · rw [hz, hzbar, hparts]
    exact h.zbar

/-- **A completed iteration keeps the adjoint sum.** The increment is the adjoint of the change of one dual
    variable, so that by linearity that block's term of the sum is exchanged for the new one. -/
theorem of_update [IndexSource σ W] (hm : m.Shaped) (h : RunningAdjoint last m) (hu : m.update = .ok () m') :
    RunningAdjoint (some ⟨m.nextIndex, m.duals.getD m.nextIndex [], m'.duals.getD m.nextIndex []⟩) m' := by
  obtain ⟨point, x, b, image, ascent, y, delta, hpoint, -, hb, -, -, -, hl, hdelta, hzl, -, rfl⟩ :=
    update_eq_ok_iff_equations.mp hu
  have hi : m.nextIndex < m.blocks.length := (List.getElem?_eq_some_iff.mp hb).1
  have hblock := hm.block b (List.mem_of_getElem? hb)
  have hlinear : b.operator.LinearAdjoint := h.linear b.part (List.mem_map_of_mem (List.mem_of_getElem? hb))
  have hy : y.length = b.operator.rangeDim := hl.symm.trans hblock.dual
  have hchange : (List.zipWith (fun old new => new - old) b.dual y).length = b.operator.rangeDim :=
    Vec.length_zipWith_of_length hblock.dual hy
  -- the adjoint is written over the forward point, which has the length for it
  have hpointLength : point.length = b.operator.domainDim := by
    rw [hblock.domainDim, ← LinearOperator.length_of_adjointInto hdelta, ← hzl, hm.z]
  obtain rfl : b.operator.adjointOf (List.zipWith (fun old new => new - old) b.dual y) = delta :=
    Option.some.inj ((hlinear.adjointInto_eq hchange hpointLength).symm.trans hdelta)
  refine ⟨?_, ?_, nofun, ?_⟩
  · intro p hp
    obtain ⟨d, hd, rfl⟩ := List.mem_map.mp hp
    rcases List.mem_or_eq_of_mem_set hd with hd | rfl
    · exact h.linear d.part (List.mem_map_of_mem hd)
    · exact hlinear
  · -- the change of the sum is the change of the drawn block's term of it
    dsimp only
    rw [Vec.coords_add hzl, h.z, hlinear.coords_adjointOf_sub hblock.dual hy, List.map_map, List.map_map,
      sum_map_set hb]
    rfl
  · rintro c ⟨rfl⟩
    refine ⟨(b.operator, b.weight, y), ?_, ?_⟩
    · rw [List.getElem?_map, List.getElem?_set_self hi]
      rfl
    · dsimp only
      rw [getD_duals hb, getD_duals]
      swap
      · exact List.getElem?_set_self hi
      · rfl

end RunningAdjoint

/-! ## Along a history -/

/-- A history leads to reachable methods only. -/
theorem History.reachable [Scalar S] [IndexSource σ W] {m₀ m : Spdhg S σ} {last : Option (Change S)}
    (h : History m₀ last m) : Reachable m₀ m := by
  induction h with
  | start => exact .start
  | completed _ hu ih => exact .call (c := .update) ih (Outcome.state?_eq_some_iff.mpr (Or.inl ⟨(), hu⟩))
  | other _ hc _ ih => exact .call ih hc

/-- **The invariant holds along every history** that begins with it. -/
theorem History.runningAdjoint [IndexSource σ W] {m₀ m : Spdhg ℝ σ} {last : Option (Change ℝ)}
    (h : History m₀ last m) (hshaped : m₀.Shaped) (h₀ : RunningAdjoint none m₀) :
    m.Shaped ∧ RunningAdjoint last m := by
  induction h with
  | start => exact ⟨hshaped, h₀⟩
  | completed _ hu ih => exact ⟨ih.1.of_update hu, ih.2.of_update ih.1 hu⟩
  | other _ hc hnot ih => exact ⟨ih.1.perform hc, ih.2.of_parts (parts_of_perform hc hnot).2⟩

/-! ## The sum that a stack computes -/

/-- Where the invariant holds, the stack with the method's operators computes `z` from the dual variables. -/
theorem RunningAdjoint.adjoint?_eq {stack : OperatorStack ℝ} {m : Spdhg ℝ σ} {last : Option (Change ℝ)}
    (h : RunningAdjoint last m) (hm : m.Shaped) (hblocks : stack.blocks = m.blocks.map (·.operator))
    (hdim : stack.domainDim = m.domainDim) {out : Vec ℝ} (hout : out.length = stack.domainDim) :
    stack.adjoint? m.duals out = some m.z := by
  have hzip : stack.blocks.zip m.duals = m.blocks.map fun b => (b.operator, b.dual) := by
    rw [hblocks, duals, List.zip_map']
  have hpairs : ∀ p ∈ m.blocks.map (fun b => (b.operator, b.dual)),
      p.1.LinearAdjoint ∧ p.1.domainDim = stack.domainDim ∧ p.2.length = p.1.rangeDim := by
    intro p hp
    obtain ⟨b, hb, rfl⟩ := List.mem_map.mp hp
    have hblock := hm.block b hb
    exact ⟨h.linear b.part (List.mem_map_of_mem hb), hblock.domainDim.trans hdim.symm, hblock.dual⟩
  obtain ⟨v, hv, hvl, hvc⟩ :=
    LinearOperator.adjointSum?_eq_some ((Vec.length_zeros _).trans hout) (Vec.length_zeros _) hpairs
  have hvz : v = m.z := by
    refine Vec.eq_of_coords ?_ ?_
    · rw [hvl, hdim, hm.z]
    · rw [hvc, Vec.coords_zeros, zero_add, h.z, List.map_map, List.map_map]
      rfl
  rw [OperatorStack.adjoint?, hzip, hv, hvz]

/-- A method that was built satisfies the invariant: all dual variables and `z` are zero. -/
theorem RunningAdjoint.of_build [Scalar W] [Precision ℝ W] [IndexSource σ W] {setup : SpdhgSetup ℝ σ}
    {m : Spdhg ℝ (BlockSource σ W)} (h : setup.build = .ok m)
    (hK : ∀ op ∈ setup.operator.blocks, op.LinearAdjoint) :
    RunningAdjoint none m ∧ m.domainDim = setup.operator.domainDim ∧
      m.blocks.map (·.operator) = setup.operator.blocks := by
  obtain ⟨given, weights, source, norms, steps, x, -, -, -, -, -, ⟨hf, hp, hn, hs, -⟩, rfl⟩ :=
    SpdhgSetup.build_eq_ok h
  have hoperators := SpdhgSetup.map_blocks_eq (g := fun b => (b.operator, b.dual))
    (h := fun k => (k, Vec.zeros k.rangeDim)) hf hp hn hs fun _ _ _ _ _ => rfl
  have hpart : ∀ p ∈ (SpdhgSetup.blocks setup.terms setup.operator.blocks weights norms steps.1).map
      DualBlock.part, p.1.LinearAdjoint ∧ p.2.2 = Vec.zeros p.1.rangeDim := by
    intro p hp
    obtain ⟨b, hb, rfl⟩ := List.mem_map.mp hp
    obtain ⟨k, hk, hkb⟩ := List.mem_map.mp (hoperators ▸ List.mem_map_of_mem hb)
    simp only [Prod.mk.injEq] at hkb
    obtain ⟨rfl, hdual⟩ := hkb
    exact ⟨hK _ hk, hdual.symm⟩
  refine ⟨⟨fun p hp => (hpart p hp).1, ?_, fun _ => rfl, nofun⟩, rfl, ?_⟩
  · dsimp only
    rw [Vec.coords_zeros]
    refine (List.sum_eq_zero fun c hc => ?_).symm
    obtain ⟨p, hp, rfl⟩ := List.mem_map.mp hc
    obtain ⟨hlinear, hzero⟩ := hpart p hp
    rw [hzero, hlinear.coords_adjointOf_zeros]
  · have := congrArg (List.map Prod.fst) hoperators
    rw [List.map_map, List.map_map] at this
    exact this.trans (List.map_id _)

end Spdhg

open Spdhg in
/-- **The adjoint sum is exact.** After any calls to a method that was built over operators with linear
    adjoints, whatever indices the source names, `z` is what the stack computes from the dual variables, and
    `z̄` is `z` before the first completed iteration and `z + (1 / pᵢ) Kᵢᵀ (yᵢ' - yᵢ)` for the last
    completed one after it. -/
theorem adjoint_duals_eq_z [Scalar W] [Precision ℝ W] [IndexSource σ W] {setup : SpdhgSetup ℝ σ}
    {m₀ m : Spdhg ℝ (BlockSource σ W)} {last : Option (Change ℝ)} (hbuild : setup.build = .ok m₀)
    (hK : ∀ op ∈ setup.operator.blocks, op.LinearAdjoint) (h : History m₀ last m) :
    (∀ out, out.length = setup.operator.domainDim → setup.operator.adjoint? m.duals out = some m.z) ∧
      (last = none → m.zbar = m.z) ∧
      ∀ c, last = some c → ∃ op p, setup.operator.blocks[c.block]? = some op ∧
        m₀.weights[c.block]? = some p ∧
        m.zbar = List.zipWith (fun z d => z + 1 / p * d) m.z
          (op.adjointOf (List.zipWith (fun old new => new - old) c.before c.after)) := by
  obtain ⟨hinv₀, hdim₀, hops₀⟩ := RunningAdjoint.of_build hbuild hK
  obtain ⟨hshaped, hinv⟩ := h.runningAdjoint (SpdhgSetup.shaped_of_build hbuild) hinv₀
  -- no call has moved the operators and the probabilities of the setup
  obtain ⟨hdim, -, hfixed⟩ := h.reachable.data
  have hops : setup.operator.blocks = m.blocks.map (·.operator) := by
    have := congrArg (List.map fun d => d.2.1) hfixed
    rw [List.map_map, List.map_map] at this
    exact (this.trans hops₀).symm
  have hweights : m₀.weights = m.blocks.map (·.weight) := by
    have := congrArg (List.map fun d => d.2.2.1) hfixed
    rw [List.map_map, List.map_map] at this
    exact this.symm
  refine ⟨?_, hinv.zbar_first, ?_⟩
  · intro out hout
    exact hinv.adjoint?_eq hshaped hops (hdim.trans hdim₀).symm hout
  · intro c hc
    obtain ⟨p, hp, hzbar⟩ := hinv.zbar c hc
    rw [List.getElem?_map] at hp
    obtain ⟨b, hb, rfl⟩ := Option.map_eq_some_iff.mp hp
    refine ⟨b.operator, b.weight, ?_, ?_, hzbar⟩
    · rw [hops, List.getElem?_map, hb]
      rfl
    · rw [hweights, List.getElem?_map, hb]
      rfl

/-! ## An instance -/

/-- Two blocks on the real line, a dense matrix and a scaling, visited in turn. -/
noncomputable def oneDimensional (a b start : ℝ) : SpdhgSetup ℝ (Sampler ℝ) where
  terms := [OneNorm.functional ⟨1⟩, SquaredDistance.unit.functional]
  primalTerm := SquaredDistance.unit.functional
  operator := {
    blocks := [.matrix ⟨1, [[a]], by simp⟩, .diagonal [b]]
    domainDim := 1
    knownNorms := some [|a|, |b|]
    blocks_ne_nil := by simp
    domainDim_of_mem := by simp [LinearOperator.matrix, LinearOperator.diagonal]
    length_knownNorms := by simp }
  initial := some [start]
  sigma := some [1, 1]
  tau := some 1
  source := some (Sampler.fresh .sequential 2 0 (.rounds #[0, 1] #[0, 1] false))
  weights := none
  probabilities := none
  norms := none
  seed := 0

/-- The method that belongs to it, before its first iteration. -/
noncomputable def oneDimensionalMethod (a b start : ℝ) : Spdhg ℝ (BlockSource (Sampler ℝ) ℝ) where
  blocks := [
    ⟨OneNorm.functional ⟨1⟩, .matrix ⟨1, [[a]], by simp⟩, 1 / (1 + 1), |a|, 1, [0], [0], [0]⟩,
    ⟨SquaredDistance.unit.functional, .diagonal [b], 1 / (1 + 1), |b|, 1, [0], [0], [0]⟩]
  domainDim := 1
  primalTerm := SquaredDistance.unit.functional
  source := .given (Sampler.fresh .sequential 2 0 (.rounds #[0, 1] #[0, 1] false))
  tau := 1
  x := [start]
  scratch := [0]
  z := [0]
  zbar := [0]
  losses := #[]
  iteration := 0

/-- Each of two blocks is drawn every other time. -/
theorem frequencies?_two_in_turn : IndexSource.frequencies?
    (Sampler.fresh .sequential 2 0 (.rounds #[0, 1] #[0, 1] false) : Sampler ℝ) =
      some [1 / (1 + 1), 1 / (1 + 1)] := by
  have hvisits : Sampler.visits 2 #[0, 1] = #[1, 1] := by decide
  simp [IndexSource.frequencies?, Sampler.frequencies, Sampler.fresh, hvisits, one_add_one_eq_two]

theorem build_oneDimensional (a b start : ℝ) :
    (oneDimensional a b start).build = .ok (oneDimensionalMethod a b start) := by
  simp [SpdhgSetup.build, oneDimensional, oneDimensionalMethod, SpdhgSetup.checkTerms, SpdhgSetup.count,
    SpdhgSetup.resolveWeights, SpdhgSetup.stack, SpdhgSetup.completeWeights, SpdhgSetup.blockSource,
    OperatorStack.norms?, frequencies?_two_in_turn, PrimalDual.resolveSteps, PrimalDual.requirePositive,
    PrimalDual.dualSteps, PrimalDual.requireAllPositive, SpdhgSetup.start, Fault.lift, Fault.ofOption, bind,
    Except.bind, pure, Except.pure, Precision.narrow, SpdhgSetup.blocks, LinearOperator.matrix,
    LinearOperator.diagonal, Vec.zeros]

/-- The first iteration draws the matrix, moves the solution from 3 to 1, and takes the dual variable of the
    matrix to the boundary of the unit box. -/
theorem oneDimensional_first_iteration : ∃ m, (oneDimensionalMethod 3 2 3).update = .ok () m ∧
    m.duals = [[1], [0]] ∧ m.z = [3] ∧ m.zbar = [9] := by
  refine ⟨_, Spdhg.update_eq_ok_iff_equations.mpr
    ⟨[3], [1], _, [3], [3], [1], [3], ?_, ?_, rfl, ?_, ?_, ?_, rfl, ?_, rfl, rfl, rfl⟩, rfl, ?_, ?_⟩
  · simp [Spdhg.forwardPoint?_eq_some_iff, oneDimensionalMethod]
  · simp only [oneDimensionalMethod, Functional.proximalInto, SquaredDistance.functional,
      SquaredDistance.unit, SquaredDistance.proximal?, SquaredDistance.entries,
      Functional.sameLength_eq_ok_iff, Functional.overwrite_eq_ok_iff]
    norm_num
  · simp [LinearOperator.directInto, LinearOperator.matrix, Matrix.mulVec?, Vec.dot?_eq_pairing, Vec.pairing,
      Vec.write?]
  · simp [Vec.zip?]
  · simp [Functional.proximalConjugateInto, OneNorm.functional, OneNorm.clip, Functional.sameLength_eq_ok_iff,
      Functional.overwrite_eq_ok_iff]
  · simp [LinearOperator.adjointInto, LinearOperator.matrix, Matrix.transposeMulVec?, Matrix.columnDot?,
      Matrix.column, Vec.dot?_eq_pairing, Vec.pairing, Vec.write?]
  · simp [oneDimensionalMethod]
  · simp only [oneDimensionalMethod, List.zipWith_cons_cons, List.zipWith_nil_left]
    norm_num

open Spdhg in
theorem adjoint_duals_eq_z_after_one_iteration :
    ∃ m, (oneDimensional 3 2 3).build = .ok (oneDimensionalMethod 3 2 3) ∧
    (∀ op ∈ (oneDimensional 3 2 3).operator.blocks, op.LinearAdjoint) ∧
    History (oneDimensionalMethod 3 2 3) (some ⟨0, [0], [1]⟩) m ∧
    (∀ out, out.length = 1 → (oneDimensional 3 2 3).operator.adjoint? m.duals out = some [3]) ∧
    ∃ op p, (oneDimensional 3 2 3).operator.blocks[0]? = some op ∧
      (oneDimensionalMethod 3 2 3).weights[0]? = some p ∧
      [9] = List.zipWith (fun z d => z + 1 / p * d) [3]
        (op.adjointOf (List.zipWith (fun old new => new - old) [0] [1])) := by
  obtain ⟨m, hu, hduals, hz, hzbar⟩ := oneDimensional_first_iteration
  have hlinear : ∀ op ∈ (oneDimensional 3 2 3).operator.blocks, op.LinearAdjoint := by
    intro op hop
    rcases List.mem_pair.mp hop with rfl | rfl
    · exact (BasicOperator.matrix _).linearAdjoint
    · exact (BasicOperator.diagonal _).linearAdjoint
  have hhistory : History (oneDimensionalMethod 3 2 3) (some ⟨0, [0], [1]⟩) m := by
    have := History.completed .start hu
    rw [hduals] at this
    exact this
  obtain ⟨hadjoint, -, hlast⟩ := adjoint_duals_eq_z (build_oneDimensional 3 2 3) hlinear hhistory
  obtain ⟨op, p, hop, hp, hvalue⟩ := hlast _ rfl
  rw [hz, hzbar] at hvalue
  refine ⟨m, build_oneDimensional 3 2 3, hlinear, hhistory, fun out hout => ?_, op, p, hop, hp, hvalue⟩
  rw [hadjoint out hout, hz]

end Splitting
