import Splitting.Proofs.Functional.ConjugateMaps
import Splitting.Proofs.PrimalDual.FiniteData

/-!
# `Splitting.Proofs.PrimalDual.WeakDuality` — the gap of every record is non-negative

A record of the objectives has the primal value `P = ∑ fᵢ (Kᵢ x) + g x`, the dual value `D = -∑ fᵢ* yᵢ - g*
(-Kᵀ y)` and the gap `P - D`. By the inequality of Fenchel and Young for each term, and because the computed
adjoint is the adjoint, the gap is not negative; the conjugate of a one-norm allows its argument a little
more room than it has, and where `g` is one the gap may be negative by as much.

* `WeaklyDual` — what is said of a record;
* `Spdhg.primalValue`, `Spdhg.conjugateSum` — the objectives as real numbers;
* `Spdhg.blockObjectives_lift`, `Spdhg.sum_coupling_le` — the blocks' part of the objectives;
* `Spdhg.Records`, `Spdhg.records_lift` — what a record consists of;
* `Spdhg.Compares` — the objectives that it compares;
* `Spdhg.FiniteState.recordObjective` — a record is made, and is weakly dual;
* `weak_duality_of_records` — the main statement.
-/

namespace Splitting

variable {W σ : Type}

/-- Weak duality for a record at the solution `x` with the primal term `g`. The slack for a one-norm is that
    of its conjugate, over the norm of the solution. -/
def WeaklyDual (g : BasicTerm ℝ) (x : Vec ℝ) (r : ObjectiveRecord EReal) : Prop :=
  match g with
  | .squaredDistance _ => 0 ≤ r.gap
  | .oneNorm f => r.dual = ⊥ ∨ ((-(1e-10 * f.alpha * List.sum (x.map (|·|))) : ℝ) : EReal) ≤ r.gap

/-- With a bound for the blocks' part of the objectives, the conjugate of the primal term completes a record
    that is weakly dual. -/
theorem exists_conjugate_weaklyDual {g : BasicTerm ℝ} {x v : Vec ℝ} {p d : ℝ} (hg : g.Proper)
    (hfit : g.Fits x.length) (hl : x.length = v.length) (hle : g.valueAt x - Vec.pairing x v ≤ p - d) :
    ∃ c : EReal, g.lift.functional.conjugate v.lift = .ok c ∧ WeaklyDual g x ⟨p, d - c, p - (d - c)⟩ := by
  cases g with
  | squaredDistance f =>
    refine ⟨_, BasicTerm.conjugate_lift hg (hl ▸ hfit) trivial, ?_⟩
    have hyoung := BasicTerm.fenchelYoung (y := v) hg hfit trivial hl
    show (0 : EReal) ≤ (p : EReal) - ((d : EReal) - ((BasicTerm.squaredDistance f).conjugateAt v : ℝ))
    rw [← EReal.coe_sub, ← EReal.coe_sub, EReal.coe_nonneg]
    linarith
  | oneNorm f =>
    by_cases hin : ∀ u ∈ v, |u| ≤ f.radius
    · -- the argument may leave the box by the slack, and the inequality then holds for the wider box only
      refine ⟨0, BasicTerm.oneNorm_conjugate_lift hin, Or.inr ?_⟩
      have hbound := BasicTerm.pairing_le_oneNorm hin hl
      have hradius : f.radius = f.alpha * (1 + 1e-10) := rfl
      have hvalue : (BasicTerm.oneNorm f).valueAt x = f.alpha * List.sum (x.map (|·|)) := rfl
      show _ ≤ (p : EReal) - ((d : EReal) - 0)
      rw [sub_zero, ← EReal.coe_sub, EReal.coe_le_coe_iff]
      rw [hradius] at hbound
      rw [hvalue] at hle
      linarith
    · -- further outside the conjugate is infinite, and with it the dual value
      exact ⟨⊤, BasicTerm.oneNorm_conjugate_lift_top hin, Or.inl (EReal.sub_top _)⟩

namespace Spdhg

/-- The inner product of `x` with the adjoint of a block on its dual variable. -/
noncomputable def coupling (x : Vec ℝ) (r : RealBlock) : ℝ := Vec.pairing x (r.operator.coimage r.dual)

/-- The objective `∑ fᵢ (Kᵢ x) + g x`. -/
noncomputable def primalValue (g : BasicTerm ℝ) (rs : List RealBlock) (x : Vec ℝ) : ℝ :=
  g.valueAt x + List.sum (rs.map fun r => r.term.valueAt (r.operator.image x))

/-- The sum `∑ fᵢ* yᵢ`. -/
noncomputable def conjugateSum (rs : List RealBlock) : ℝ := List.sum (rs.map fun r => r.term.conjugateAt r.dual)

/-- **The blocks' part of the objectives.** The values and the conjugates are finite. -/
theorem blockObjectives_lift {n : ℕ} {x : Vec ℝ} (hx : x.length = n) {bs : List (DualBlock EReal)}
    {rs : List RealBlock} (hcore : bs.map DualBlock.core = rs.map RealBlock.core)
    (hsound : ∀ r ∈ rs, r.Sound n) (himage : ∀ b ∈ bs, b.image.length = b.operator.rangeDim) (p d : ℝ) :
    ∃ bs', blockObjectives x.lift (p : EReal) d bs =
      .ok (((p + List.sum (rs.map fun r => r.term.valueAt (r.operator.image x)) : ℝ) : EReal),
        ((d - conjugateSum rs : ℝ) : EReal)) bs' := by
  -- both parts are carried along at once, and so they are arbitrary in the induction on the blocks
  induction bs generalizing rs p d with
  | nil =>
    obtain rfl := List.map_eq_nil_iff.mp hcore.symm
    refine ⟨[], ?_⟩
    rw [conjugateSum, List.map_nil, List.map_nil, List.sum_nil, add_zero, sub_zero]
    rfl
  | cons b bs ih =>
    obtain ⟨r, rs, rfl, hrb, hrest⟩ := List.map_eq_cons_iff.mp hcore.symm
    have hrep : b.Represents r := DualBlock.represents_of_core hrb.symm
    have hr := hsound r List.mem_cons_self
    have hxr : x.length = r.operator.operator.domainDim := hx.trans hr.domainDim.symm
    have hdirect := hrep.directInto_eq hxr ((himage b List.mem_cons_self).trans hrep.rangeDim)
    have hvalue : b.term.value (Vec.lift (r.operator.image x)) =
        some (r.term.valueAt (r.operator.image x) : EReal) := by
      rw [hrep.term]
      exact BasicTerm.value_lift ((r.operator.length_image hxr).symm ▸ hr.fits)
    have hconjugate : b.term.conjugate b.dual = .ok (r.term.conjugateAt r.dual : EReal) := by
      rw [hrep.term, hrep.dual]
      exact BasicTerm.conjugate_lift hr.proper (hr.length_dual.symm ▸ hr.fits) hr.feasible
    obtain ⟨bs', ho⟩ := ih hrest.symm (fun s hs => hsound s (List.mem_cons_of_mem r hs))
      (fun c hc => himage c (List.mem_cons_of_mem b hc)) (p + r.term.valueAt (r.operator.image x))
      (d - r.term.conjugateAt r.dual)
    refine ⟨{ b with image := Vec.lift (r.operator.image x) } :: bs', ?_⟩
    rw [blockObjectives, hdirect]
    dsimp only
    rw [hvalue, hconjugate]
    dsimp only
    rw [← EReal.coe_add, ← EReal.coe_sub, ho, add_assoc, sub_sub]
    rfl

/-- The inequality of Fenchel and Young, summed over the blocks. -/
theorem sum_coupling_le {n : ℕ} {x : Vec ℝ} (hx : x.length = n) {rs : List RealBlock}
    (hsound : ∀ r ∈ rs, r.Sound n) : List.sum (rs.map (coupling x)) ≤
      List.sum (rs.map fun r => r.term.valueAt (r.operator.image x)) + conjugateSum rs := by
  rw [conjugateSum, ← List.sum_map_add]
  refine List.sum_le_sum fun r hr => ?_
  have hr := hsound r hr
  have hxr : x.length = r.operator.operator.domainDim := hx.trans hr.domainDim.symm
  have hlength := r.operator.length_image hxr
  rw [coupling, ← BasicOperator.pairing_image _ hxr hr.length_dual]
  exact BasicTerm.fenchelYoung hr.proper (hlength.symm ▸ hr.fits) hr.feasible
    (hlength.trans hr.length_dual.symm)

/-- A record of the objectives can be made, and is `r`. -/
def Records (m : Spdhg EReal σ) (r : ObjectiveRecord EReal) : Prop :=
  ∃ m', m.recordObjective = .ok () m' ∧ m'.losses = m.losses.push r

/-- **A record in real numbers.** Only the conjugate of the primal term may be infinite. -/
theorem records_lift {g : BasicTerm ℝ} {rs : List RealBlock} {x v : Vec ℝ} {m : Spdhg EReal σ} (hm : m.Shaped)
    (hterm : m.primalTerm = g.lift.functional) (hfit : g.Fits m.domainDim)
    (hcore : m.blocks.map DualBlock.core = rs.map RealBlock.core) (hsound : ∀ r ∈ rs, r.Sound m.domainDim)
    (hx : m.x = x.lift) (hv : m.negatedAdjoint? = some v.lift) {c : EReal}
    (hc : g.lift.functional.conjugate v.lift = .ok c) :
    m.Records ⟨(primalValue g rs x : ℝ), (-conjugateSum rs : ℝ) - c,
      (primalValue g rs x : ℝ) - ((-conjugateSum rs : ℝ) - c)⟩ := by
  have hxLength : x.length = m.domainDim := hm.length_of_lift hx
  obtain ⟨bs, ho⟩ := blockObjectives_lift hxLength hcore hsound (fun b hb => (hm.block b hb).image)
    (g.valueAt x) 0
  have hvalue : m.primalTerm.value m.x = some (g.valueAt x : EReal) := by
    rw [hterm, hx]
    exact BasicTerm.value_lift (hxLength.symm ▸ hfit)
  rw [zero_sub, ← hx] at ho
  -- the images that the values have left in the blocks' buffers do not matter for the conjugate of `g`
  have hbs : negatedAdjoint? { m with blocks := bs } = m.negatedAdjoint? :=
    negatedAdjoint?_of_map_outline rfl (outline_of_blockObjectives (by rw [ho]; rfl))
  exact ⟨_, recordObjective_eq_ok_iff.mpr
    ⟨_, _, _, bs, v.lift, c, hvalue, ho, hbs.trans hv, by rw [hterm, hc], rfl⟩, rfl⟩

/-- The negated sum of the adjoints is finite, and the sum of the couplings is its inner product with the
    solution, negated. -/
theorem negatedAdjoint?_lift {m : Spdhg EReal σ} {rs : List RealBlock} {n : ℕ}
    (hscratch : m.scratch.length = n)
    (hdim : m.domainDim = n) (hcore : m.blocks.map DualBlock.core = rs.map RealBlock.core)
    (hsound : ∀ r ∈ rs, r.Sound n) : ∃ v : Vec ℝ, m.negatedAdjoint? = some v.lift ∧ v.length = n ∧
      ∀ x, x.length = n → List.sum (rs.map (coupling x)) = -Vec.pairing x v := by
  have hpairs : (m.blocks.map fun b => (b.operator, b.dual)).map (fun p => (p.1.withoutNorm, p.2)) =
      (rs.map fun r => (r.operator, r.dual)).map fun p => (p.1.lift.operator.withoutNorm, p.2.lift) := by
    have hsnd := congrArg (List.map Prod.snd) hcore
    rw [List.map_map, List.map_map] at hsnd ⊢
    exact hsnd
  have hfit : ∀ p ∈ rs.map fun r => (r.operator, r.dual), p.1.operator.domainDim = n ∧
      p.2.length = p.1.operator.rangeDim := by
    intro p hp
    obtain ⟨r, hr, rfl⟩ := List.mem_map.mp hp
    exact ⟨(hsound r hr).domainDim, (hsound r hr).length_dual⟩
  have hbuffer : (Vec.zeros n : Vec EReal).length = n := Vec.length_zeros n
  obtain ⟨w, hw, hwl, hwp⟩ := adjointSum?_lift (Vec.length_zeros n) hbuffer hfit
  rw [← Vec.zeros_lift] at hw
  refine ⟨w.map (- ·), ?_, (List.length_map _).trans hwl, ?_⟩
  · rw [negatedAdjoint?, hscratch, hdim, adjointSum?_withoutNorm, hpairs, hw, Option.map_some]
    exact congrArg some (Vec.map_lift (fun a => (EReal.coe_neg a).symm) w)
  · intro x hx
    rw [Vec.pairing_neg_right (hx.trans hwl.symm), neg_neg, hwp x hx, Vec.pairing_zeros_right hx,
      zero_add, List.map_map]
    rfl

/-- **What a record compares,** of a method with the solution `x` and with the dual variables of the blocks `rs`, which
    are blocks of the problem: the objective `∑ fᵢ (Kᵢ x) + g x` with the dual one, `-∑ fᵢ* yᵢ - g* v`, where `v` is the
    negated sum of the adjoints on the dual variables. -/
structure Compares (g : BasicTerm ℝ) (problem : List (BasicTerm ℝ × BasicOperator ℝ)) (m : Spdhg EReal σ) (x : Vec ℝ)
    (rs : List RealBlock) (v : Vec ℝ) (r : ObjectiveRecord EReal) : Prop where
  problem : rs.map RealBlock.problem = problem
  duals : m.duals = rs.map fun s => s.dual.lift
  length : v.length = m.domainDim
  adjoint : m.negatedAdjoint? = some v.lift
  pairing : ∀ u, u.length = m.domainDim → Vec.pairing u v = -List.sum (rs.map (coupling u))
  primal : r.primal = (primalValue g rs x : ℝ)
  dual : ∃ c, g.lift.functional.conjugate v.lift = .ok c ∧ r.dual = (-conjugateSum rs : ℝ) - c

/-- The dual variables of blocks as real numbers. -/
theorem duals_of_core {m : Spdhg EReal σ} {rs : List RealBlock}
    (hcore : m.blocks.map DualBlock.core = rs.map RealBlock.core) : m.duals = rs.map fun s => s.dual.lift := by
  have hread := congrArg (List.map fun c => c.2.2) hcore
  rwa [List.map_map, List.map_map] at hread

namespace FiniteState

variable {g : BasicTerm ℝ} {problem : List (BasicTerm ℝ × BasicOperator ℝ)} {m : Spdhg EReal σ}

/-- **A record is made, compares the objectives, and is weakly dual.** -/
theorem recordObjective (h : m.FiniteState g problem) (hm : m.Shaped) (hg : g.Proper)
    (hfit : g.Fits m.domainDim) :
    ∃ (x : Vec ℝ) (rs : List RealBlock) (v : Vec ℝ) (r : ObjectiveRecord EReal) (m' : Spdhg EReal σ),
      m.x = x.lift ∧ m.recordObjective = .ok () m' ∧ m'.losses = m.losses.push r ∧
      r.gap = r.primal - r.dual ∧ m.Compares g problem x rs v r ∧ WeaklyDual g x r := by
  obtain ⟨rs, hproblem, hcore, hsound⟩ := h.blocks
  obtain ⟨x, hx⟩ := h.x
  have hxLength : x.length = m.domainDim := hm.length_of_lift hx
  obtain ⟨v, hv, hvLength, hcoupling⟩ := negatedAdjoint?_lift hm.scratch rfl hcore hsound
  have hle := sum_coupling_le hxLength hsound
  rw [hcoupling x hxLength] at hle
  have hdifference : g.valueAt x - Vec.pairing x v ≤ primalValue g rs x - -conjugateSum rs := by
    rw [primalValue]
    linarith
  obtain ⟨c, hc, hdual⟩ := exists_conjugate_weaklyDual hg (hxLength.symm ▸ hfit)
    (hxLength.trans hvLength.symm) hdifference
  obtain ⟨m', hrecord, hlosses⟩ := records_lift hm h.primalTerm hfit hcore hsound hx hv hc
  have hcompares : m.Compares g problem x rs v ⟨(primalValue g rs x : ℝ), (-conjugateSum rs : ℝ) - c,
      (primalValue g rs x : ℝ) - ((-conjugateSum rs : ℝ) - c)⟩ := by
    refine ⟨hproblem, duals_of_core hcore, hvLength, hv, fun u hu => ?_, rfl, c, hc, rfl⟩
    rw [hcoupling u hu, neg_neg]
  exact ⟨x, rs, v, _, m', hx, hrecord, hlosses, rfl, hcompares, hdual⟩

/-- The conjugate of every block's term is finite on the dual variable. -/
theorem exists_conjugate (h : m.FiniteState g problem) {b : DualBlock EReal} (hb : b ∈ m.blocks) :
    ∃ c : ℝ, b.term.conjugate b.dual = .ok (c : EReal) := by
  obtain ⟨i, hi⟩ := List.mem_iff_getElem?.mp hb
  obtain ⟨r, -, hrep, hr⟩ := h.represents hi
  refine ⟨r.term.conjugateAt r.dual, ?_⟩
  rw [hrep.term, hrep.dual]
  exact BasicTerm.conjugate_lift hr.proper (hr.length_dual.symm ▸ hr.fits) hr.feasible

/-- The dual variable of a one-norm lies in its box. -/
theorem mem_box (h : m.FiniteState g problem) {i : ℕ} {f : OneNorm ℝ} {k : BasicOperator ℝ}
    {b : DualBlock EReal} (hproblem : problem[i]? = some (.oneNorm f, k)) (hb : m.blocks[i]? = some b) :
    ∀ v ∈ b.dual, -(f.alpha : EReal) ≤ v ∧ v ≤ f.alpha := by
  obtain ⟨r, hr, hrep, hsound⟩ := h.represents hb
  obtain ⟨term, operator, dual⟩ := r
  rw [hproblem] at hr
  cases hr
  intro v hv
  rw [hrep.dual] at hv
  obtain ⟨u, hu, rfl⟩ := List.mem_map.mp hv
  obtain ⟨hlow, hhigh⟩ := abs_le.mp (hsound.feasible u hu)
  rw [← EReal.coe_neg]
  exact ⟨EReal.coe_le_coe_iff.mpr hlow, EReal.coe_le_coe_iff.mpr hhigh⟩

end FiniteState

end Spdhg

open Spdhg in
/-- **Weak duality of the records.** Of a method that was built from finite data, after any calls with
    positive steps and whatever indices the source names, a record can be made. It has the objective of the
    problem at the solution, the dual objective at the dual variables, and the difference of the two, which is
    not negative, apart from the slack of the conjugate where the primal term is a one-norm; the dual variable
    of each one-norm lies in its box, and the conjugate of every block's term is finite. -/
theorem weak_duality_of_records [Scalar W] [Precision EReal W] [IndexSource σ W] {setup : SpdhgSetup EReal σ}
    {m₀ m : Spdhg EReal (BlockSource σ W)} {g : BasicTerm ℝ} {fs : List (BasicTerm ℝ)}
    {ks : List (BasicOperator ℝ)}
    (hbuild : setup.build = .ok m₀) (hdata : setup.FiniteData g fs ks) (h : Steered m₀ m) :
    (∃ (x : Vec ℝ) (rs : List RealBlock) (v : Vec ℝ) (r : ObjectiveRecord EReal)
        (m' : Spdhg EReal (BlockSource σ W)), m.x = x.lift ∧
        m.recordObjective = .ok () m' ∧ m'.losses = m.losses.push r ∧
        r.gap = r.primal - r.dual ∧ m.Compares g (fs.zip ks) x rs v r ∧ WeaklyDual g x r) ∧
      (∀ (i : ℕ) (f : OneNorm ℝ) (b : DualBlock EReal), fs[i]? = some (.oneNorm f) → m.blocks[i]? = some b →
        ∀ v ∈ b.dual, -(f.alpha : EReal) ≤ v ∧ v ≤ f.alpha) ∧
      ∀ b ∈ m.blocks, ∃ c : ℝ, b.term.conjugate b.dual = .ok (c : EReal) := by
  have hshaped₀ := SpdhgSetup.shaped_of_build hbuild
  have hstate : m.FiniteState g (fs.zip ks) :=
    h.finiteState hshaped₀ (SpdhgSetup.finiteState_of_build hbuild hdata)
  have hdim : m.domainDim = setup.operator.domainDim :=
    h.reachable.data.1.trans (SpdhgSetup.domainDim_of_build hbuild)
  refine ⟨hstate.recordObjective (h.reachable.shaped hshaped₀) hdata.primal_proper
    (hdim ▸ hdata.primal_fits), ?_, fun b hb => hstate.exists_conjugate hb⟩
  intro i f b hf hb
  obtain ⟨r, hr, -, -⟩ := hstate.represents hb
  obtain ⟨hterm, -⟩ := List.getElem?_zip_eq_some.mp hr
  rw [hf, Option.some.injEq] at hterm
  refine hstate.mem_box (k := r.operator) ?_ hb
  rw [hr, hterm]
  rfl

/-- The one-norm of a multiple of the solution, and a squared norm, on the real line. -/
noncomputable def extendedLine (a start : ℝ) : SpdhgSetup EReal (Sampler EReal) where
  terms := [(BasicTerm.oneNorm ⟨1⟩).lift.functional]
  primalTerm := (BasicTerm.squaredDistance ⟨1, none⟩).lift.functional
  operator := {
    blocks := [(BasicOperator.diagonal [a]).lift.operator]
    domainDim := 1
    knownNorms := some [((|a| : ℝ) : EReal)]
    blocks_ne_nil := by simp
    domainDim_of_mem := by simp [BasicOperator.lift, BasicOperator.operator, LinearOperator.diagonal]
    length_knownNorms := by simp }
  initial := some (Vec.lift [start])
  sigma := some [1]
  tau := some 1
  source := some (Sampler.fresh .sequential 1 0 (.rounds #[0] #[0] false))
  weights := none
  probabilities := none
  norms := none
  seed := 0

/-- Its block, before the first iteration. -/
noncomputable def extendedBlock (a : ℝ) : DualBlock EReal :=
  ⟨(BasicTerm.oneNorm ⟨1⟩).lift.functional, (BasicOperator.diagonal [a]).lift.operator, 1, (|a| : ℝ), 1,
    Vec.lift [0], Vec.lift [0], Vec.lift [0]⟩

/-- The method that belongs to it, before its first iteration. -/
noncomputable def extendedLineMethod (a start : ℝ) : Spdhg EReal (BlockSource (Sampler EReal) EReal) where
  blocks := [extendedBlock a]
  domainDim := 1
  primalTerm := (BasicTerm.squaredDistance ⟨1, none⟩).lift.functional
  source := .given (Sampler.fresh .sequential 1 0 (.rounds #[0] #[0] false))
  tau := 1
  x := Vec.lift [start]
  scratch := Vec.lift [0]
  z := Vec.lift [0]
  zbar := Vec.lift [0]
  losses := #[]
  iteration := 0

/-- A single block is drawn every time. -/
theorem frequencies?_one : IndexSource.frequencies?
    (Sampler.fresh .sequential 1 0 (.rounds #[0] #[0] false) : Sampler EReal) = some [1] := by
  have hvisits : Sampler.visits 1 #[0] = #[1] := by decide
  simp [IndexSource.frequencies?, Sampler.frequencies, Sampler.fresh, hvisits]

theorem build_extendedLine (a start : ℝ) : (extendedLine a start).build = .ok (extendedLineMethod a start) := by
  have hzeros : (Vec.zeros 1 : Vec EReal) = Vec.lift [0] := Vec.zeros_lift 1
  have hdim : (BasicOperator.diagonal [a]).lift.operator.rangeDim = 1 := BasicOperator.rangeDim_lift _
  have hnarrow : (Precision.narrow (1 : EReal) : EReal) = 1 := rfl
  simp [SpdhgSetup.build, extendedLine, extendedLineMethod, extendedBlock, SpdhgSetup.checkTerms,
    SpdhgSetup.count, SpdhgSetup.resolveWeights, SpdhgSetup.stack, SpdhgSetup.completeWeights,
    SpdhgSetup.blockSource, OperatorStack.norms?, frequencies?_one, PrimalDual.resolveSteps,
    PrimalDual.requirePositive, PrimalDual.dualSteps, PrimalDual.requireAllPositive, SpdhgSetup.start, Fault.lift,
    Fault.ofOption, bind, Except.bind, pure, Except.pure, SpdhgSetup.blocks, hzeros, hdim, hnarrow]

open Spdhg in
/-- The first iteration moves the solution from 3 to 1, and the dual variable to the boundary of the unit box. -/
theorem extendedLine_first_iteration : ∃ m, (extendedLineMethod 2 3).update = .ok () m ∧
    m.x = Vec.lift [1] ∧ m.duals = [Vec.lift [1]] ∧ m.domainDim = 1 ∧ m.sigma = [1] ∧ m.tau = 1 := by
  -- every vector is the image of a real one, so that each step is computed in real numbers
  have hrep : (extendedBlock 2).Represents ⟨.oneNorm ⟨1⟩, .diagonal [2], [0]⟩ := ⟨rfl, rfl, rfl, rfl, rfl, rfl⟩
  have hpoint : (extendedLineMethod 2 3).forwardPoint? = some (Vec.lift [3]) := by
    have hplace : ∀ a b : ℝ, (a : EReal) - 1 * b = (a - b : ℝ) := fun a b => by rw [one_mul, EReal.coe_sub]
    have hvalue : List.zipWith (fun a b : ℝ => a - b) [3] [0] = [3] := by simp
    exact forwardPoint?_eq_some_iff.mpr ⟨rfl, rfl, hvalue ▸ (Vec.zipWith_lift hplace [3] [0]).symm⟩
  have hproximal : (BasicTerm.squaredDistance ⟨1, none⟩).functional.proximalInto [3] (1 : ℝ) [3] = .ok () [1] := by
    simp only [BasicTerm.functional, Functional.proximalInto, SquaredDistance.functional, SquaredDistance.proximal?,
      SquaredDistance.entries, Functional.sameLength_eq_ok_iff, Functional.overwrite_eq_ok_iff]
    norm_num
  have himage : (extendedBlock 2).operator.directInto (Vec.lift [1]) (Vec.lift [0]) = some (Vec.lift [2]) := by
    have hvalue : (BasicOperator.diagonal [2]).image [1] = [2] := by simp [BasicOperator.image]
    exact hvalue ▸ hrep.directInto_eq (x := [1]) rfl rfl
  have hascent : Vec.zip? (fun a y : EReal => y + 1 * a) (Vec.lift [2]) (Vec.lift [0]) = some (Vec.lift [2]) := by
    have hplace : ∀ a y : ℝ, (y : EReal) + 1 * a = (y + a : ℝ) := fun a y => by rw [one_mul, EReal.coe_add]
    have hvalue : Vec.zip? (fun a y : ℝ => y + a) [2] [0] = some [2] := by simp [Vec.zip?]
    rw [Vec.zip?_lift (f := fun a y => y + a) hplace, hvalue, Option.map_some]
  have hdual : (BasicTerm.oneNorm ⟨1⟩).functional.proximalConjugateInto [2] (1 : ℝ) [0] = .ok () [1] := by
    simp [BasicTerm.functional, Functional.proximalConjugateInto, OneNorm.functional, OneNorm.clip,
      Functional.sameLength_eq_ok_iff, Functional.overwrite_eq_ok_iff]
  have hchange : (extendedBlock 2).operator.adjointInto
      (List.zipWith (fun old new => new - old) (Vec.lift [0]) (Vec.lift [1])) (Vec.lift [3]) =
      some (Vec.lift [2]) := by
    have hvalue : (BasicOperator.diagonal [2]).coimage (List.zipWith (fun old new => new - old) [0] [1]) = [2] := by
      simp [BasicOperator.coimage]
    exact hvalue ▸ hrep.adjointInto_change (y := [1]) rfl rfl rfl
  exact ⟨_, update_eq_ok_iff_equations.mpr ⟨Vec.lift [3], Vec.lift [1], extendedBlock 2, Vec.lift [2], Vec.lift [2],
    Vec.lift [1], Vec.lift [2], hpoint, BasicTerm.proximalInto_lift rfl hproximal, rfl, himage, hascent,
    BasicTerm.proximalConjugateInto_lift rfl hdual, rfl, hchange, rfl, rfl, rfl⟩, rfl, rfl, rfl, rfl, rfl⟩

open Spdhg in
/-- With the solution and the dual variable at 1, a record compares `1² + |2 · 1| = 3` with `-(-2)² / 4 = -1`. -/
theorem extendedLine_record {m : Spdhg EReal σ} {rs : List RealBlock} {v : Vec ℝ} {r : ObjectiveRecord EReal}
    (hdim : m.domainDim = 1) (hduals : m.duals = [Vec.lift [1]])
    (h : m.Compares (.squaredDistance ⟨1, none⟩) [(.oneNorm ⟨1⟩, .diagonal [2])] [1] rs v r) :
    r.primal = (3 : ℝ) ∧ r.dual = (-1 : ℝ) := by
  obtain ⟨⟨term, operator, dual⟩, rfl, hblock⟩ := List.map_eq_singleton_iff.mp h.problem
  cases hblock
  obtain rfl : [1] = dual := Vec.lift_injective (List.singleton_inj.mp (hduals.symm.trans h.duals))
  obtain ⟨w, rfl⟩ := List.length_eq_one_iff.mp (h.length.trans hdim)
  obtain rfl : w = -2 := by simpa [Vec.pairing, coupling, BasicOperator.coimage] using h.pairing [1] hdim.symm
  constructor
  · rw [h.primal, EReal.coe_eq_coe_iff]
    norm_num [primalValue, BasicTerm.valueAt, BasicOperator.image, Vec.pairing]
  · obtain ⟨c, hc, hdual⟩ := h.dual
    have hconjugate : (BasicTerm.squaredDistance ⟨1, none⟩).lift.functional.conjugate (Vec.lift [-2]) =
        .ok ((BasicTerm.squaredDistance ⟨1, none⟩).conjugateAt [-2] : EReal) :=
      BasicTerm.conjugate_lift zero_lt_one (fun _ hb => absurd hb (Option.not_mem_none _)) trivial
    obtain rfl := Except.ok.inj (hc.symm.trans hconjugate)
    rw [hdual, ← EReal.coe_sub, EReal.coe_eq_coe_iff]
    norm_num [conjugateSum, BasicTerm.conjugateAt, Vec.pairing]

open Spdhg in
theorem weak_duality_of_records_on_the_line : ∃ (m m' : Spdhg EReal (BlockSource (Sampler EReal) EReal))
    (x : Vec ℝ) (rs : List RealBlock) (v : Vec ℝ) (r : ObjectiveRecord EReal),
    (extendedLine 2 3).build = .ok (extendedLineMethod 2 3) ∧
      (extendedLine 2 3).FiniteData (.squaredDistance ⟨1, none⟩) [.oneNorm ⟨1⟩] [.diagonal [2]] ∧
      (extendedLineMethod 2 3).update = .ok () m ∧ Steered (extendedLineMethod 2 3) m ∧
      m.duals = [Vec.lift [1]] ∧ m.x = x.lift ∧ m.recordObjective = .ok () m' ∧ m'.losses = m.losses.push r ∧
      m.Compares (.squaredDistance ⟨1, none⟩) [(.oneNorm ⟨1⟩, .diagonal [2])] x rs v r ∧
      r.primal = (3 : ℝ) ∧ r.dual = (-1 : ℝ) ∧ r.gap = (4 : ℝ) ∧ 0 ≤ r.gap := by
  have hdata : (extendedLine 2 3).FiniteData (.squaredDistance ⟨1, none⟩) [.oneNorm ⟨1⟩] [.diagonal [2]] := by
    refine ⟨rfl, rfl, rfl, ?_, ?_, ?_, zero_lt_one, nofun⟩
    · rintro x ⟨⟩
      exact ⟨[3], rfl⟩
    · intro f hf
      rw [List.mem_singleton.mp hf]
      exact zero_le_one
    · intro p hp
      rw [List.mem_singleton.mp hp]
      trivial
  obtain ⟨m, hu, hx, hduals, hdim, hsigma, htau⟩ := extendedLine_first_iteration
  have hstart : (extendedLineMethod 2 3).PositiveSteps :=
    positiveSteps_of_one (fun s hs => List.mem_singleton.mp hs) rfl
  have hsteps : m.PositiveSteps := positiveSteps_of_one (fun s hs => List.mem_singleton.mp (hsigma ▸ hs)) htau
  have hsteered : Steered (extendedLineMethod 2 3) m :=
    .call (c := .update) (.start hstart) (congrArg Outcome.state? hu) hsteps
  obtain ⟨⟨x, rs, v, r, m', hxm, hrecord, hlosses, hgap, hcompares, hdual⟩, -, -⟩ :=
    weak_duality_of_records (build_extendedLine 2 3) hdata hsteered
  obtain rfl : [1] = x := Vec.lift_injective (hx.symm.trans hxm)
  obtain ⟨hprimal, hlower⟩ := extendedLine_record hdim hduals hcompares
  refine ⟨m, m', [1], rs, v, r, build_extendedLine 2 3, hdata, hu, hsteered, hduals, hxm, hrecord, hlosses,
    hcompares, hprimal, hlower, ?_, hdual⟩
  rw [hgap, hprimal, hlower, ← EReal.coe_sub, EReal.coe_eq_coe_iff]
  norm_num

end Splitting
