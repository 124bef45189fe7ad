import Splitting.Proofs.Functional.FenchelYoung
import Splitting.Proofs.Operator.Lift
import Splitting.Proofs.PrimalDual.Shape

/-!
# `Splitting.Proofs.PrimalDual.FiniteData` — finite data and feasible dual variables

In the extended reals the primal-dual method could reach infinite vectors. It does not: from finite data,
with positive and finite steps, every reachable vector is finite, and every dual variable stays where the
conjugate of its block's term is finite, in whatever order blocks are drawn and whichever iterations fail.

* `RealBlock`, `RealBlock.Sound` — a block as real numbers, with a feasible dual variable;
* `Spdhg.FiniteState` — the invariant: the method is the image of real vectors and sound blocks;
* `Spdhg.Steered` — a method that calls lead to, with positive steps all the way;
* `Spdhg.FiniteState.of_update`, `Spdhg.FiniteState.perform`, `Spdhg.Steered.finiteState` — it is preserved;
* `SpdhgSetup.FiniteData`, `SpdhgSetup.finiteState_of_build` — it holds at first.
-/

namespace Splitting

variable {W σ : Type}

/-- The term, the operator and the dual variable of a block, leaving out what is known of the norm. -/
def DualBlock.core {S : Type} (b : DualBlock S) : Functional S × LinearOperator S × Vec S :=
  (b.term, b.operator.withoutNorm, b.dual)

/-! ## Blocks as real numbers -/

/-- A block with finite data. -/
structure RealBlock where
  term : BasicTerm ℝ
  operator : BasicOperator ℝ
  dual : Vec ℝ

namespace RealBlock

/-- What the method has of the block. -/
noncomputable def core (r : RealBlock) : Functional EReal × LinearOperator EReal × Vec EReal :=
  (r.term.lift.functional, r.operator.lift.operator.withoutNorm, r.dual.lift)

/-- What the block is about. -/
def problem (r : RealBlock) : BasicTerm ℝ × BasicOperator ℝ := (r.term, r.operator)

/-- The block is one of a problem on vectors of length `n`, and its dual variable is feasible. -/
structure Sound (n : ℕ) (r : RealBlock) : Prop where
  proper : r.term.Proper
  fits : r.term.Fits r.operator.operator.rangeDim
  domainDim : r.operator.operator.domainDim = n
  length_dual : r.dual.length = r.operator.operator.rangeDim
  feasible : r.term.Feasible r.dual

end RealBlock

/-- A block of the method and its real numbers. -/
structure DualBlock.Represents (b : DualBlock EReal) (r : RealBlock) : Prop where
  term : b.term = r.term.lift.functional
  direct : b.operator.direct = r.operator.lift.operator.direct
  adjoint : b.operator.adjoint = r.operator.lift.operator.adjoint
  domainDim : b.operator.domainDim = r.operator.operator.domainDim
  rangeDim : b.operator.rangeDim = r.operator.operator.rangeDim
  dual : b.dual = r.dual.lift

theorem DualBlock.represents_of_core {b : DualBlock EReal} {r : RealBlock} (h : b.core = r.core) :
    b.Represents r := by
  simp only [DualBlock.core, RealBlock.core, Prod.mk.injEq] at h
  obtain ⟨hterm, hop, hdual⟩ := h
  have hdirect := congrArg LinearOperator.direct hop
  have hadjoint := congrArg LinearOperator.adjoint hop
  have hdomain := congrArg LinearOperator.domainDim hop
  have hrange := congrArg LinearOperator.rangeDim hop
  exact ⟨hterm, hdirect, hadjoint, hdomain.trans r.operator.domainDim_lift,
    hrange.trans r.operator.rangeDim_lift, hdual⟩

/-- Block by block. -/
theorem RealBlock.exists_of_map_core {bs : List (DualBlock EReal)} {rs : List RealBlock}
    (h : bs.map DualBlock.core = rs.map RealBlock.core) {i : ℕ} {b : DualBlock EReal} (hb : bs[i]? = some b) :
    ∃ r, rs[i]? = some r ∧ r.core = b.core := by
  have hi := congrArg (·[i]?) h
  simp only [List.getElem?_map, hb, Option.map_some] at hi
  exact Option.map_eq_some_iff.mp hi.symm

/-- The length of a solution in real numbers. -/
theorem Spdhg.Shaped.length_of_lift {m : Spdhg EReal σ} (h : m.Shaped) {x : Vec ℝ} (hx : m.x = x.lift) :
    x.length = m.domainDim := by
  rw [← h.x, hx, Vec.length_lift]

namespace DualBlock.Represents

variable {b : DualBlock EReal} {r : RealBlock} {x y : Vec ℝ} {out v : Vec EReal}

theorem length_dual {n : ℕ} (h : b.Represents r) (hb : b.Shaped n) :
    r.dual.length = r.operator.operator.rangeDim := by
  rw [← h.rangeDim, ← hb.dual, h.dual, Vec.length_lift]

/-- The image of a finite vector is finite. -/
theorem directInto_eq (h : b.Represents r) (hx : x.length = r.operator.operator.domainDim)
    (hout : out.length = r.operator.operator.rangeDim) :
    b.operator.directInto x.lift out = some (Vec.lift (r.operator.image x)) := by
  refine Option.bind_eq_some_iff.mpr ⟨Vec.lift (r.operator.image x), ?_, ?_⟩
  · rw [h.direct]
    exact BasicOperator.direct_lift hx hout
  · refine Vec.write?_eq_some_iff.mpr ⟨?_, rfl⟩
    rw [Vec.length_lift, BasicOperator.length_image _ hx, hout]

theorem adjointInto_eq (h : b.Represents r) (hy : y.length = r.operator.operator.rangeDim)
    (hout : out.length = r.operator.operator.domainDim) :
    b.operator.adjointInto y.lift out = some (Vec.lift (r.operator.coimage y)) := by
  refine Option.bind_eq_some_iff.mpr ⟨Vec.lift (r.operator.coimage y), ?_, ?_⟩
  · rw [h.adjoint]
    exact BasicOperator.adjoint_lift hy hout
  · refine Vec.write?_eq_some_iff.mpr ⟨?_, rfl⟩
    rw [Vec.length_lift, BasicOperator.length_coimage _ hy, hout]

/-- The dual step from a finite image is finite, and feasible as the proximal map of a conjugate. -/
theorem exists_feasible (h : b.Represents r) (hr : r.term.Proper) (hs : 0 < b.sigma ∧ b.sigma ≠ ⊤)
    {ascent : Vec EReal} (hascent : Vec.zip? (fun a y => y + b.sigma * a) x.lift b.dual = some ascent)
    (hv : b.term.proximalConjugateInto ascent b.sigma b.spare = .ok () v) :
    ∃ w : Vec ℝ, v = w.lift ∧ r.term.Feasible w := by
  obtain ⟨s, hsigma⟩ := exists_coe_of_pos hs
  obtain ⟨-, rfl⟩ := Vec.zip?_eq_some_iff.mp hascent
  have hplace : ∀ a b : ℝ, (b : EReal) + s * a = (b + s * a : ℝ) := by
    intro a b
    rw [EReal.coe_add, EReal.coe_mul]
  rw [h.dual, hsigma, Vec.zipWith_lift hplace, h.term] at hv
  exact BasicTerm.feasible_of_proximalConjugate hr (Functional.sameLength_eq_ok_iff.mp hv).1

/-- The adjoint of the change to a finite dual variable is finite. -/
theorem adjointInto_change (h : b.Represents r) (hr : r.dual.length = r.operator.operator.rangeDim)
    (hy : y.length = r.operator.operator.rangeDim) (hout : out.length = r.operator.operator.domainDim) :
    b.operator.adjointInto (List.zipWith (fun old new => new - old) b.dual y.lift) out =
      some (Vec.lift (r.operator.coimage (List.zipWith (fun old new => new - old) r.dual y))) := by
  have hplace : ∀ old new : ℝ, (new : EReal) - old = (new - old : ℝ) := by
    intro old new
    rw [EReal.coe_sub]
  rw [h.dual, Vec.zipWith_lift (F := fun old new => new - old) (f := fun old new => new - old) hplace]
  exact h.adjointInto_eq (Vec.length_zipWith_of_length hr hy) hout

/-- The adjoint of no change is zero. -/
theorem adjointInto_unchanged (h : b.Represents r) (hr : r.dual.length = r.operator.operator.rangeDim)
    (hout : out.length = r.operator.operator.domainDim) :
    b.operator.adjointInto (List.zipWith (fun old new => new - old) b.dual b.dual) out =
      some (Vec.zeros r.operator.operator.domainDim) := by
  have hchange : List.zipWith (fun old new : ℝ => new - old) r.dual r.dual =
      Vec.zeros r.operator.operator.rangeDim := by
    rw [List.zipWith_self, ← hr]
    simp only [sub_self]
    exact List.map_const'
  have hadjoint := h.adjointInto_change hr hr hout
  rwa [← h.dual, hchange, BasicOperator.coimage_zeros, ← Vec.zeros_lift] at hadjoint

end DualBlock.Represents

namespace Spdhg

/-! ## The invariant -/

/-- The steps are positive and finite. -/
structure PositiveSteps (m : Spdhg EReal σ) : Prop where
  sigma : ∀ s ∈ m.sigma, 0 < s ∧ s ≠ ⊤
  tau : 0 < m.tau ∧ m.tau ≠ ⊤

theorem positiveSteps_of_one {m : Spdhg EReal σ} (hsigma : ∀ s ∈ m.sigma, s = 1) (htau : m.tau = 1) :
    m.PositiveSteps := by
  have hone : (0 : EReal) < 1 ∧ (1 : EReal) ≠ ⊤ := ⟨zero_lt_one, EReal.coe_ne_top 1⟩
  exact ⟨fun s hs => (hsigma s hs).symm ▸ hone, htau.symm ▸ hone⟩

/-- All vectors are finite, and the blocks are sound blocks of the problem `∑ fᵢ (Kᵢ x) + g x` with the
    terms and operators `problem`. -/
structure FiniteState (g : BasicTerm ℝ) (problem : List (BasicTerm ℝ × BasicOperator ℝ)) (m : Spdhg EReal σ) :
    Prop where
  primalTerm : m.primalTerm = g.lift.functional
  blocks : ∃ rs : List RealBlock, rs.map RealBlock.problem = problem ∧
    m.blocks.map DualBlock.core = rs.map RealBlock.core ∧ ∀ r ∈ rs, r.Sound m.domainDim
  x : ∃ x : Vec ℝ, m.x = x.lift
  z : ∃ z : Vec ℝ, m.z = z.lift
  zbar : ∃ zbar : Vec ℝ, m.zbar = zbar.lift

namespace FiniteState

variable {g : BasicTerm ℝ} {problem : List (BasicTerm ℝ × BasicOperator ℝ)} {m m' : Spdhg EReal σ}

/-- A call that keeps `z`, `z̄` and the dual variables, and leaves a finite solution, keeps the invariant. -/
theorem of_core (h : m.FiniteState g problem) (hterm : m'.primalTerm = m.primalTerm)
    (hdim : m'.domainDim = m.domainDim) (hblocks : m'.blocks.map DualBlock.core = m.blocks.map DualBlock.core)
    (hx : ∃ x : Vec ℝ, m'.x = x.lift) (hz : m'.z = m.z) (hzbar : m'.zbar = m.zbar) :
    m'.FiniteState g problem := by
  obtain ⟨rs, hproblem, hcore, hsound⟩ := h.blocks
  refine ⟨hterm.trans h.primalTerm, ⟨rs, hproblem, hblocks.trans hcore, ?_⟩, hx, ?_, ?_⟩
  · rw [hdim]
    exact hsound
  · rw [hz]
    exact h.z
  · rw [hzbar]
    exact h.zbar

/-- The real numbers of a block. -/
theorem represents (h : m.FiniteState g problem) {i : ℕ} {b : DualBlock EReal} (hb : m.blocks[i]? = some b) :
    ∃ r, problem[i]? = some r.problem ∧ b.Represents r ∧ r.Sound m.domainDim := by
  obtain ⟨rs, rfl, hcore, hsound⟩ := h.blocks
  obtain ⟨r, hr, hrb⟩ := RealBlock.exists_of_map_core hcore hb
  refine ⟨r, ?_, DualBlock.represents_of_core hrb.symm, hsound r (List.mem_of_getElem? hr)⟩
  rw [List.getElem?_map, hr]
  rfl

/-- The forward point is finite, and so is the proximal map there. -/
theorem forwardPoint (h : m.FiniteState g problem) (hs : m.PositiveSteps) {point : Vec EReal}
    (hpoint : m.forwardPoint? = some point) : ∃ p : Vec ℝ, point = p.lift := by
  obtain ⟨-, -, rfl⟩ := forwardPoint?_eq_some_iff.mp hpoint
  obtain ⟨x, hx⟩ := h.x
  obtain ⟨zbar, hzbar⟩ := h.zbar
  obtain ⟨tau, htau⟩ := exists_coe_of_pos hs.tau
  have hplace : ∀ a b : ℝ, (a : EReal) - m.tau * b = (a - tau * b : ℝ) := by
    intro a b
    rw [htau, EReal.coe_sub, EReal.coe_mul]
  rw [hx, hzbar]
  exact ⟨_, Vec.zipWith_lift hplace x zbar⟩

theorem proximalPoint (h : m.FiniteState g problem) (hs : m.PositiveSteps) {point x : Vec EReal}
    (hpoint : m.forwardPoint? = some point) (hx : m.primalTerm.proximalInto point m.tau m.x = .ok () x) :
    ∃ p : Vec ℝ, x = p.lift := by
  obtain ⟨p, rfl⟩ := h.forwardPoint hs hpoint
  obtain ⟨tau, htau⟩ := exists_coe_of_pos hs.tau
  rw [h.primalTerm, htau] at hx
  exact BasicTerm.lift_of_proximal (Functional.sameLength_eq_ok_iff.mp hx).1

theorem map_core_of_map_outline {bs bs' : List (DualBlock EReal)}
    (h : bs'.map DualBlock.outline = bs.map DualBlock.outline) :
    bs'.map DualBlock.core = bs.map DualBlock.core := by
  have := congrArg (List.map fun o => DualBlock.core o.1) h
  rwa [List.map_map, List.map_map] at this

/-- The sum of adjoints and its extrapolation stay finite when a finite increment is added. -/
theorem exists_sums (h : m.FiniteState g problem) (delta : Vec ℝ) (p : EReal) :
    ∃ z zbar : Vec ℝ, List.zipWith (· + ·) m.z delta.lift = z.lift ∧
      List.zipWith (fun z d => z + 1 / p * d) z.lift delta.lift = zbar.lift := by
  obtain ⟨z, hz⟩ := h.z
  obtain ⟨q, hq⟩ := exists_coe_one_div p
  have hplace : ∀ a d : ℝ, (a : EReal) + 1 / p * d = (a + q * d : ℝ) := by
    intro a d
    rw [hq, EReal.coe_add, EReal.coe_mul]
  refine ⟨List.zipWith (· + ·) z delta, _, ?_, Vec.zipWith_lift hplace _ _⟩
  rw [hz]
  exact Vec.zipWith_lift (fun a b => (EReal.coe_add a b).symm) _ _

variable [IndexSource σ W]

/-- **A completed iteration keeps the invariant:** what it computes is finite, and the new dual variable of
    the drawn block is feasible. -/
theorem of_update (h : m.FiniteState g problem) (hm : m.Shaped) (hs : m.PositiveSteps)
    (hu : m.update = .ok () m') : m'.FiniteState g problem := by
  obtain ⟨point, x, b, image, ascent, y, delta, hpoint, hx, hb, himage, hascent, hy, hl, hdelta, hzl, hbl,
    rfl⟩ := update_eq_ok_iff_equations.mp hu
  obtain ⟨rs, hproblem, hcore, hsound⟩ := h.blocks
  have hmem : b ∈ m.blocks := List.mem_of_getElem? hb
  have hblock := hm.block b hmem
  obtain ⟨r, hr, hrb⟩ := RealBlock.exists_of_map_core hcore hb
  have hrep : b.Represents r := DualBlock.represents_of_core hrb.symm
  have hr' := hsound r (List.mem_of_getElem? hr)
  -- each vector is finite because the one before it is, in the order in which they are computed
  obtain ⟨x, rfl⟩ := h.proximalPoint hs hpoint hx
  have hxLength : x.length = r.operator.operator.domainDim := by
    rw [hr'.domainDim, ← hm.x, ← Functional.length_of_sameLength hx, Vec.length_lift]
  rw [hrep.directInto_eq hxLength (hblock.image.trans hrep.rangeDim), Option.some.injEq] at himage
  subst himage
  obtain ⟨y, rfl, hfeasible⟩ :=
    hrep.exists_feasible hr'.proper (hs.sigma _ (List.mem_map_of_mem hmem)) hascent hy
  have hyLength : y.length = r.operator.operator.rangeDim := by
    rw [← Vec.length_lift, ← hl, hblock.dual, hrep.rangeDim]
  have hpointLength : point.length = r.operator.operator.domainDim := by
    rw [hr'.domainDim, ← LinearOperator.length_of_adjointInto hdelta, ← hzl, hm.z]
  rw [hrep.adjointInto_change hr'.length_dual hyLength hpointLength, Option.some.injEq] at hdelta
  subst hdelta
  obtain ⟨z, zbar, hz, hzbar⟩ :=
    h.exists_sums (r.operator.coimage (List.zipWith (fun old new => new - old) r.dual y)) b.weight
  refine ⟨h.primalTerm, ⟨rs.set m.nextIndex { r with dual := y }, ?_, ?_, ?_⟩, ⟨x, rfl⟩, ⟨z, hz⟩, ⟨zbar, ?_⟩⟩
  · rw [← hproblem]
    exact map_set_of_eq hr rfl
  · show (m.blocks.set _ _).map _ = _
    rw [List.map_set, List.map_set, hcore]
    refine congrArg _ ?_
    simp only [DualBlock.core, RealBlock.core, Prod.mk.injEq] at hrb ⊢
    exact ⟨hrb.1.symm, hrb.2.1.symm, trivial⟩
  · intro r₁ hr₁
    rcases List.mem_or_eq_of_mem_set hr₁ with hr₁ | rfl
    · exact hsound r₁ hr₁
    · exact ⟨hr'.proper, hr'.fits, hr'.domainDim, hyLength, hfeasible⟩
  · show List.zipWith _ (List.zipWith _ m.z _) _ = _
    rw [hz]
    exact hzbar

/-- **Every call keeps the invariant.** The proximal maps fail on lengths only, so that an iteration can
    only fail on an index without a block. -/
theorem perform (h : m.FiniteState g problem) (hm : m.Shaped) (hs : m.PositiveSteps) {c : Call EReal}
    (hc : (m.perform c).state? = some m') : m'.FiniteState g problem := by
  rcases perform_cases hc with ⟨-, hu⟩ | ⟨e, hu⟩ | hr | ⟨steps, hlen, rfl⟩ | rfl
  · exact h.of_update hm hs hu
  · -- of the three ways to fail only the index without a block is left
    obtain ⟨point, x, hpoint, ⟨hx, -⟩ | ⟨hx, -, -, rfl⟩ | ⟨-, b, b', hb, hascend, -⟩⟩ :=
      update_eq_error_iff.mp hu
    · rw [h.primalTerm] at hx
      exact absurd (Functional.sameLength_eq_error_iff.mp hx).1 g.lift.proximal_ne_error
    · exact h.of_core rfl rfl rfl (h.proximalPoint hs hpoint hx) rfl rfl
    · obtain ⟨r, -, hrep, -⟩ := h.represents hb
      obtain ⟨image, ascent, y, -, -, hy, -⟩ := DualBlock.ascend_eq_error_iff.mp hascend
      rw [hrep.term] at hy
      exact absurd (Functional.sameLength_eq_error_iff.mp hy).1 r.term.lift.proximalConjugate_ne_error
  · obtain ⟨scratch, blocks, losses, rfl, -, hb⟩ := frame_of_recordObjective hr
    exact h.of_core rfl rfl (map_core_of_map_outline hb) h.x rfl rfl
  · exact h.of_core rfl rfl (map_blocks_withSteps (fun _ _ => rfl) hlen) h.x rfl rfl
  · exact h

end FiniteState

/-! ## Along a run -/

/-- A method that calls lead to, completed or failed, with positive and finite steps all the way. -/
inductive Steered [IndexSource σ W] (start : Spdhg EReal σ) : Spdhg EReal σ → Prop where
  | start : start.PositiveSteps → Steered start start
  | call {m m' : Spdhg EReal σ} {c : Call EReal} : Steered start m → (m.perform c).state? = some m' →
      m'.PositiveSteps → Steered start m'

theorem Steered.positiveSteps [IndexSource σ W] {start m : Spdhg EReal σ} (h : Steered start m) :
    m.PositiveSteps := by
  cases h with
  | start hs => exact hs
  | call _ _ hs => exact hs

theorem Steered.reachable [IndexSource σ W] {start m : Spdhg EReal σ} (h : Steered start m) :
    Reachable start m := by
  induction h with
  | start _ => exact .start
  | call _ hc _ ih => exact .call ih hc

/-- **The invariant holds of every method that calls lead to.** -/
theorem Steered.finiteState [IndexSource σ W] {start m : Spdhg EReal σ} {g : BasicTerm ℝ}
    {problem : List (BasicTerm ℝ × BasicOperator ℝ)} (h : Steered start m) (hshaped : start.Shaped)
    (hstart : start.FiniteState g problem) : m.FiniteState g problem := by
  induction h with
  | start _ => exact hstart
  | call h₁ hc _ ih => exact ih.perform (h₁.reachable.shaped hshaped) h₁.positiveSteps hc

end Spdhg

/-! ## What a setup builds -/

namespace SpdhgSetup

/-- The setup is of the problem with the term `g` and, block by block, the terms `fs` and operators `ks`,
    all with finite data and of matching shapes. Nothing is said of the norms, the steps, the source and the
    probabilities. -/
structure FiniteData (g : BasicTerm ℝ) (fs : List (BasicTerm ℝ)) (ks : List (BasicOperator ℝ))
    (setup : SpdhgSetup EReal σ) : Prop where
  primalTerm : setup.primalTerm = g.lift.functional
  terms : setup.terms = fs.map fun f => f.lift.functional
  operators : setup.operator.blocks.map LinearOperator.withoutNorm =
    ks.map fun k => k.lift.operator.withoutNorm
  initial : ∀ x ∈ setup.initial, ∃ v : Vec ℝ, x = v.lift
  proper : ∀ f ∈ fs, f.Proper
  fits : ∀ p ∈ fs.zip ks, p.1.Fits p.2.operator.rangeDim
  primal_proper : g.Proper
  primal_fits : g.Fits setup.operator.domainDim

/-- Zero is feasible. -/
theorem feasible_zeros {t : BasicTerm ℝ} (ht : t.Proper) (n : ℕ) : t.Feasible (Vec.zeros n) := by
  cases t with
  | oneNorm f =>
    intro v hv
    rw [List.eq_of_mem_replicate hv, abs_zero]
    exact ht
  | squaredDistance f => trivial

/-- A block before the first iteration. -/
noncomputable def startingBlock (p : BasicTerm ℝ × BasicOperator ℝ) : RealBlock :=
  ⟨p.1, p.2, Vec.zeros p.2.operator.rangeDim⟩

/-- What the method has of it. -/
noncomputable def startingCore (f : Functional EReal) (k : LinearOperator EReal) :
    Functional EReal × LinearOperator EReal × Vec EReal :=
  (f, k, Vec.zeros k.rangeDim)

theorem startingCore_lift (p : BasicTerm ℝ × BasicOperator ℝ) :
    startingCore p.1.lift.functional p.2.lift.operator.withoutNorm = (startingBlock p).core := by
  have hzeros : (Vec.zeros p.2.lift.operator.withoutNorm.rangeDim : Vec EReal) =
      Vec.lift (Vec.zeros p.2.operator.rangeDim) := by
    rw [← Vec.zeros_lift]
    exact congrArg Vec.zeros p.2.rangeDim_lift
  rw [startingCore, hzeros]
  rfl

/-- **A method that was built from finite data satisfies the invariant.** -/
theorem finiteState_of_build [Scalar W] [Precision EReal W] [IndexSource σ W] {setup : SpdhgSetup EReal σ}
    {m : Spdhg EReal (BlockSource σ W)} {g : BasicTerm ℝ} {fs : List (BasicTerm ℝ)}
    {ks : List (BasicOperator ℝ)}
    (h : setup.build = .ok m) (hdata : setup.FiniteData g fs ks) : m.FiniteState g (fs.zip ks) := by
  obtain ⟨given, weights, source, norms, steps, x, -, -, -, -, hx, ⟨hf, hp, hn, hs, -⟩, rfl⟩ := build_eq_ok h
  have hzeros : ∃ v : Vec ℝ, (Vec.zeros setup.operator.domainDim : Vec EReal) = v.lift :=
    ⟨_, Vec.zeros_lift _⟩
  refine ⟨hdata.primalTerm, ⟨(fs.zip ks).map startingBlock, ?_, ?_, ?_⟩, ?_, hzeros, hzeros⟩
  · rw [List.map_map]
    exact List.map_id _
  · dsimp only
    rw [map_blocks_eq_zipWith hf hp hn hs (g := DualBlock.core)
      (h := fun f k => startingCore f k.withoutNorm) fun _ _ _ _ _ => rfl, ← List.zipWith_map_right,
      hdata.operators, hdata.terms, List.zipWith_map, List.map_map, ← List.map_uncurry_zip_eq_zipWith]
    exact List.map_congr_left fun p _ => startingCore_lift p
  · intro r hr
    obtain ⟨⟨f, k⟩, hmem, rfl⟩ := List.mem_map.mp hr
    obtain ⟨hfmem, hkmem⟩ := List.of_mem_zip hmem
    have hlifted : k.lift.operator.withoutNorm ∈ setup.operator.blocks.map LinearOperator.withoutNorm :=
      hdata.operators ▸ List.mem_map_of_mem hkmem
    obtain ⟨op, hop, hopk⟩ := List.mem_map.mp hlifted
    have hdim := congrArg LinearOperator.domainDim hopk
    refine ⟨hdata.proper f hfmem, hdata.fits _ hmem, ?_, Vec.length_zeros _,
      feasible_zeros (hdata.proper f hfmem) _⟩
    exact (k.domainDim_lift.symm.trans hdim.symm).trans (setup.operator.domainDim_of_mem op hop)
  · show ∃ v : Vec ℝ, x = v.lift
    rcases start_eq_ok hx with rfl | ⟨hinitial, -⟩
    · exact hzeros
    · exact hdata.initial x hinitial

end SpdhgSetup

end Splitting
