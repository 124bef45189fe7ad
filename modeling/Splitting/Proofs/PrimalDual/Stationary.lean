import Splitting.Proofs.Functional.ConjugateMaps
import Splitting.Proofs.PrimalDual.WeakDuality

/-!
# `Splitting.Proofs.PrimalDual.Stationary` — states that no iteration moves are optimal

Let `z` and `z̄` be the sum of the adjoints on the dual variables. If the iteration that draws a block moves
neither the solution nor the dual variable of that block, whichever block it is, then the inequality of Fenchel
and Young holds with equality for every term: for `g` because the primal step leads back, and for `fᵢ` because
the dual step of block `i` does. The equalities add up to a gap of zero, which no other solution can undercut.
Conversely every step leads back from such a state, so that no run leaves it.

* `Always`, `Spdhg.withSource` — a source that names one index, and the method with another source;
* `Spdhg.Settled`, `Spdhg.Stationary` — the states in question;
* `Spdhg.primalStays_iff`, `DualBlock.Represents.stays_iff` — a step that leads back, as an equality;
* `OptimalPair` — a solution and dual variables for which all equalities hold;
* `Spdhg.AtOptimum` — the invariant of a run: the method is at such a pair;
* `Spdhg.Settled.exists_atOptimum`, `Spdhg.AtOptimum.perform` — stationary states satisfy it, and every call
  keeps it;
* `stationary_states_are_optimal` — the main statement.
-/

namespace Splitting

variable {S W σ τ : Type}

/-- A source that names one index for ever. -/
structure Always where
  index : ℕ

instance : IndexSource Always EReal where
  next s := (s.index, s)
  frequencies? _ := none

namespace Spdhg

/-- The method with another source of indices. -/
def withSource (m : Spdhg S σ) (s : τ) : Spdhg S τ where
  blocks := m.blocks
  domainDim := m.domainDim
  primalTerm := m.primalTerm
  source := s
  tau := m.tau
  x := m.x
  scratch := m.scratch
  z := m.z
  zbar := m.zbar
  losses := m.losses
  iteration := m.iteration

/-- A method in real numbers, with the solution `x` and with `z` and `z̄` the sum of the adjoints on the dual
    variables. -/
structure Settled (g : BasicTerm ℝ) (rs : List RealBlock) (x : Vec ℝ) (m : Spdhg EReal σ) : Prop where
  shaped : m.Shaped
  primalTerm : m.primalTerm = g.lift.functional
  blocks : m.blocks.map DualBlock.core = rs.map RealBlock.core
  primal_proper : g.Proper
  primal_fits : g.Fits m.domainDim
  proper : ∀ r ∈ rs, r.term.Proper
  fits : ∀ r ∈ rs, r.term.Fits r.operator.operator.rangeDim
  x : m.x = x.lift
  z : LinearOperator.adjointSum? (Vec.zeros m.domainDim) (Vec.zeros m.domainDim)
    (m.blocks.map fun b => (b.operator, b.dual)) = some m.z
  zbar : m.zbar = m.z

/-- The iteration that draws a block moves neither the solution nor the dual variable of the block, whichever
    block it is. -/
def Stationary (m : Spdhg EReal σ) : Prop :=
  ∀ i < m.blocks.length, ∃ m', (m.withSource (Always.mk i)).update = .ok () m' ∧ m'.x = m.x ∧
    m'.duals[i]? = m.duals[i]?

end Spdhg

/-! ## Steps that lead back -/

/-- The dual step at `x` leads back to the dual variable. -/
def DualBlock.Stays [Scalar S] (x : Vec S) (b : DualBlock S) : Prop :=
  ∃ image ascent, b.operator.directInto x b.image = some image ∧
    Vec.zip? (fun a y => y + b.sigma * a) image b.dual = some ascent ∧
    b.term.proximalConjugateInto ascent b.sigma b.spare = .ok () b.dual

/-- The primal step leads back to the solution. -/
def Spdhg.PrimalStays [Scalar S] (m : Spdhg S σ) : Prop :=
  ∃ point, m.forwardPoint? = some point ∧ m.primalTerm.proximalInto point m.tau m.x = .ok () m.x

/-- An iteration that moves neither the solution nor the drawn dual variable is two such steps. -/
theorem Spdhg.stays_of_update [Scalar S] [IndexSource σ W] {m m' : Spdhg S σ} (hu : m.update = .ok () m')
    (hx : m'.x = m.x) (hy : m'.duals[m.nextIndex]? = m.duals[m.nextIndex]?) :
    m.PrimalStays ∧ ∃ b, m.blocks[m.nextIndex]? = some b ∧ b.Stays m.x := by
  obtain ⟨point, x, b, image, ascent, y, delta, hpoint, hprimal, hb, himage, hascent, hdual, -, -, -, -,
    rfl⟩ := update_eq_ok_iff_equations.mp hu
  obtain rfl : x = m.x := hx
  have hi : m.nextIndex < m.blocks.length := (List.getElem?_eq_some_iff.mp hb).1
  rw [duals, duals, List.getElem?_map, List.getElem?_map, List.getElem?_set_self hi, hb] at hy
  obtain rfl : y = b.dual := Option.some.inj hy
  exact ⟨⟨point, hpoint, hprimal⟩, b, hb, image, ascent, himage, hascent, hdual⟩

/-- **The primal step leads back** exactly where `-z̄` touches. -/
theorem Spdhg.primalStays_iff {g : BasicTerm ℝ} {x v : Vec ℝ} {m : Spdhg EReal σ} (hm : m.Shaped)
    (hterm : m.primalTerm = g.lift.functional) (hg : g.Proper) (hfit : g.Fits m.domainDim)
    (hx : m.x = x.lift) (hzbar : m.zbar = Vec.lift (v.map (- ·))) (htau : 0 < m.tau ∧ m.tau ≠ ⊤) :
    m.PrimalStays ↔ g.Touches x v := by
  obtain ⟨a, ha⟩ := exists_coe_of_pos htau
  have hapos : 0 < a := EReal.coe_pos.mp (ha ▸ htau.1)
  have hxLength : x.length = m.domainDim := hm.length_of_lift hx
  have hvLength : v.length = m.domainDim := by rw [← hm.zbar, hzbar, Vec.length_lift, List.length_map]
  have hplace : ∀ p q : ℝ, (p : EReal) - m.tau * q = (p - a * q : ℝ) := by
    intro p q
    rw [ha, EReal.coe_sub, EReal.coe_mul]
  have hpoint : m.forwardPoint? = some (Vec.lift (List.zipWith (fun x v => x + a * v) x v)) := by
    refine forwardPoint?_eq_some_iff.mpr ⟨hm.x.trans hm.zbar.symm, hm.x.trans hm.scratch.symm, ?_⟩
    rw [hx, hzbar, Vec.zipWith_lift hplace, List.zipWith_map_right]
    simp only [mul_neg, sub_neg_eq_add]
  rw [← BasicTerm.proximalInto_eq_self_iff hg hfit hxLength hvLength hm.x hapos, PrimalStays, hpoint, hterm,
    ha, ← hx]
  simp only [Option.some.injEq, exists_eq_left']

/-- **The dual step leads back** exactly where the dual variable touches at the image. -/
theorem DualBlock.Represents.stays_iff {b : DualBlock EReal} {r : RealBlock} {x : Vec ℝ} {n : ℕ}
    (h : b.Represents r) (hb : b.Shaped n) (hterm : r.term.Proper)
    (hfit : r.term.Fits r.operator.operator.rangeDim) (hx : x.length = n) (hs : 0 < b.sigma ∧ b.sigma ≠ ⊤) :
    b.Stays x.lift ↔ r.term.Touches (r.operator.image x) r.dual := by
  obtain ⟨a, ha⟩ := exists_coe_of_pos hs
  have hapos : 0 < a := EReal.coe_pos.mp (ha ▸ hs.1)
  have hxr : x.length = r.operator.operator.domainDim := hx.trans (hb.domainDim.symm.trans h.domainDim)
  have himage := r.operator.length_image hxr
  have hdual : r.dual.length = r.operator.operator.rangeDim := h.length_dual hb
  have hplace : ∀ p q : ℝ, (q : EReal) + b.sigma * p = (q + a * p : ℝ) := by
    intro p q
    rw [ha, EReal.coe_add, EReal.coe_mul]
  have hascent : Vec.zip? (fun a y => y + b.sigma * a) (Vec.lift (r.operator.image x)) b.dual =
      some (Vec.lift (List.zipWith (fun x v => v + a * x) (r.operator.image x) r.dual)) := by
    rw [h.dual, Vec.zip?_lift hplace, Vec.zip?, if_pos (himage.trans hdual.symm), Option.map_some]
  have hdirect := h.directInto_eq hxr (hb.image.trans h.rangeDim)
  rw [← BasicTerm.proximalConjugateInto_eq_self_iff hterm hfit himage hdual (hb.spare.trans h.rangeDim) hapos,
    ← ha, ← h.term, ← h.dual]
  constructor
  · rintro ⟨image, ascent, hi, hz, hstays⟩
    obtain rfl := Option.some.inj (hdirect.symm.trans hi)
    obtain rfl := Option.some.inj (hascent.symm.trans hz)
    exact hstays
  · intro hstays
    exact ⟨_, _, hdirect, hascent, hstays⟩

/-! ## Optimal pairs -/

open Spdhg in
/-- A solution `x` and the dual variables of the blocks `rs` for which the inequality of Fenchel and Young holds
    with equality throughout; `v` is the negated sum of the adjoints on the dual variables. -/
structure OptimalPair (n : ℕ) (g : BasicTerm ℝ) (rs : List RealBlock) (x v : Vec ℝ) : Prop where
  proper : g.Proper
  fits : g.Fits n
  sound : ∀ r ∈ rs, r.Sound n
  length_x : x.length = n
  length_v : v.length = n
  adjoint : ∀ u, u.length = n → List.sum (rs.map (coupling u)) = -Vec.pairing u v
  touches : g.Touches x v
  dual_touches : ∀ r ∈ rs, r.term.Touches (r.operator.image x) r.dual

namespace OptimalPair

variable {n : ℕ} {g : BasicTerm ℝ} {rs : List RealBlock} {x v : Vec ℝ}

open Spdhg

/-- **The objectives agree.** -/
theorem primalValue_eq (h : OptimalPair n g rs x v) :
    primalValue g rs x = -conjugateSum rs - g.conjugateAt v := by
  have hblocks : List.sum (rs.map (coupling x)) =
      List.sum (rs.map fun r => r.term.valueAt (r.operator.image x)) + conjugateSum rs := by
    rw [conjugateSum, ← List.sum_map_add]
    refine congrArg List.sum (List.map_congr_left fun r hr => ?_)
    have hsound := h.sound r hr
    rw [coupling, ← BasicOperator.pairing_image _ (h.length_x.trans hsound.domainDim.symm) hsound.length_dual]
    exact (h.dual_touches r hr).2
  have hprimal := h.touches.2
  rw [h.adjoint x h.length_x] at hblocks
  rw [primalValue]
  linarith

/-- **The solution is a minimiser.** -/
theorem primalValue_le (h : OptimalPair n g rs x v) {u : Vec ℝ} (hu : u.length = n) :
    primalValue g rs x ≤ primalValue g rs u := by
  have hblocks := sum_coupling_le hu h.sound
  have hprimal := BasicTerm.fenchelYoung h.proper (hu.symm ▸ h.fits) h.touches.1 (hu.trans h.length_v.symm)
  rw [h.adjoint u hu] at hblocks
  rw [h.primalValue_eq, primalValue]
  linarith

end OptimalPair

/-! ## The invariant of a run -/

namespace Spdhg

/-- The method is at an optimal pair. -/
structure AtOptimum (g : BasicTerm ℝ) (rs : List RealBlock) (x v : Vec ℝ) (m : Spdhg EReal σ) : Prop where
  shaped : m.Shaped
  primalTerm : m.primalTerm = g.lift.functional
  blocks : m.blocks.map DualBlock.core = rs.map RealBlock.core
  optimal : OptimalPair m.domainDim g rs x v
  x : m.x = x.lift
  z : m.z = Vec.lift (v.map (- ·))
  zbar : m.zbar = m.z

variable {g : BasicTerm ℝ} {rs : List RealBlock} {x v : Vec ℝ} {m m' : Spdhg EReal σ}

theorem Stationary.stays (h : m.Stationary) {i : ℕ} (hi : i < m.blocks.length) :
    m.PrimalStays ∧ ∃ b, m.blocks[i]? = some b ∧ b.Stays m.x := by
  obtain ⟨m', hu, hx, hy⟩ := h i hi
  exact stays_of_update hu hx hy

/-- In a stationary state every dual variable touches, and is feasible for that reason. -/
theorem Settled.block_touches (h : m.Settled g rs x) (hs : m.PositiveSteps) (hstays : m.Stationary)
    {r : RealBlock} (hr : r ∈ rs) : r.Sound m.domainDim ∧ r.term.Touches (r.operator.image x) r.dual := by
  have hxLength : x.length = m.domainDim := h.shaped.length_of_lift h.x
  obtain ⟨i, hri⟩ := List.mem_iff_getElem?.mp hr
  have hcore := congrArg (·[i]?) h.blocks
  simp only [List.getElem?_map, hri, Option.map_some] at hcore
  obtain ⟨b, hb, hbr⟩ := Option.map_eq_some_iff.mp hcore
  have hrep : b.Represents r := DualBlock.represents_of_core hbr
  have hmem : b ∈ m.blocks := List.mem_of_getElem? hb
  have hshaped := h.shaped.block b hmem
  obtain ⟨-, b', hb', hback⟩ := hstays.stays (List.getElem?_eq_some_iff.mp hb).1
  obtain rfl : b = b' := Option.some.inj (hb.symm.trans hb')
  rw [h.x, hrep.stays_iff hshaped (h.proper r hr) (h.fits r hr) hxLength
    (hs.sigma _ (List.mem_map_of_mem hmem))] at hback
  have hdim : r.operator.operator.domainDim = m.domainDim := hrep.domainDim.symm.trans hshaped.domainDim
  exact ⟨⟨h.proper r hr, h.fits r hr, hdim, hrep.length_dual hshaped, hback.1⟩, hback⟩

/-- **A settled state that is stationary is at an optimal pair.** -/
theorem Settled.exists_atOptimum (h : m.Settled g rs x) (hs : m.PositiveSteps) (hstays : m.Stationary) :
    ∃ v, m.AtOptimum g rs x v ∧ m.negatedAdjoint? = some v.lift := by
  have hsound : ∀ r ∈ rs, r.Sound m.domainDim := fun r hr => (h.block_touches hs hstays hr).1
  obtain ⟨v, hv, hvLength, hcoupling⟩ := negatedAdjoint?_lift h.shaped.scratch rfl h.blocks hsound
  -- the sum of the adjoints that the method keeps is the one that is negated for the record
  have hz : m.z = Vec.lift (v.map (- ·)) := by
    have hneg := hv
    rw [negatedAdjoint?, h.shaped.scratch, h.z, Option.map_some, Option.some.injEq] at hneg
    rw [← Vec.map_lift (F := (- ·)) EReal.coe_neg, ← hneg, List.map_map]
    simp
  have hxLength : x.length = m.domainDim := h.shaped.length_of_lift h.x
  have hfirst : 0 < m.blocks.length := List.length_pos_iff.mpr h.shaped.blocks_ne_nil
  have htouches := (primalStays_iff h.shaped h.primalTerm h.primal_proper h.primal_fits h.x
    (h.zbar.trans hz) hs.tau).mp (hstays.stays hfirst).1
  have hoptimal : OptimalPair m.domainDim g rs x v := ⟨h.primal_proper, h.primal_fits, hsound, hxLength,
    hvLength, hcoupling, htouches, fun r hr => (h.block_touches hs hstays hr).2⟩
  exact ⟨v, ⟨h.shaped, h.primalTerm, h.blocks, hoptimal, h.x, hz, h.zbar⟩, hv⟩

namespace AtOptimum

/-- A call that keeps the solution, `z`, `z̄` and the dual variables keeps the invariant. -/
theorem of_core (h : m.AtOptimum g rs x v) (hshaped : m'.Shaped) (hterm : m'.primalTerm = m.primalTerm)
    (hdim : m'.domainDim = m.domainDim) (hblocks : m'.blocks.map DualBlock.core = m.blocks.map DualBlock.core)
    (hx : m'.x = m.x) (hz : m'.z = m.z) (hzbar : m'.zbar = m.zbar) : m'.AtOptimum g rs x v := by
  refine ⟨hshaped, hterm.trans h.primalTerm, hblocks.trans h.blocks, ?_, hx.trans h.x, hz.trans h.z, ?_⟩
  · rw [hdim]
    exact h.optimal
  · rw [hzbar, hz, h.zbar]

theorem withSource (h : m.AtOptimum g rs x v) (s : τ) : (m.withSource s).AtOptimum g rs x v :=
  ⟨⟨h.shaped.blocks_ne_nil, h.shaped.block, h.shaped.x, h.shaped.scratch, h.shaped.z, h.shaped.zbar⟩,
    h.primalTerm, h.blocks, h.optimal, h.x, h.z, h.zbar⟩

theorem duals_eq {m' : Spdhg EReal τ} (h : m.AtOptimum g rs x v) (h' : m'.AtOptimum g rs x v) :
    m'.duals = m.duals := by
  have hcore := congrArg (List.map fun c => c.2.2) (h'.blocks.trans h.blocks.symm)
  rwa [List.map_map, List.map_map] at hcore

theorem primalStays (h : m.AtOptimum g rs x v) (hs : m.PositiveSteps) : m.PrimalStays :=
  (primalStays_iff h.shaped h.primalTerm h.optimal.proper h.optimal.fits h.x (h.zbar.trans h.z) hs.tau).mpr
    h.optimal.touches

/-- The real numbers of a block, whose dual step leads back. -/
theorem represents (h : m.AtOptimum g rs x v) (hs : m.PositiveSteps) {i : ℕ} {b : DualBlock EReal}
    (hb : m.blocks[i]? = some b) :
    ∃ r, rs[i]? = some r ∧ r.Sound m.domainDim ∧ b.Represents r ∧ b.Stays m.x := by
  obtain ⟨r, hr, hrb⟩ := RealBlock.exists_of_map_core h.blocks hb
  have hrep : b.Represents r := DualBlock.represents_of_core hrb.symm
  have hmem : b ∈ m.blocks := List.mem_of_getElem? hb
  have hrmem : r ∈ rs := List.mem_of_getElem? hr
  have hsound := h.optimal.sound r hrmem
  refine ⟨r, hr, hsound, hrep, ?_⟩
  rw [h.x, hrep.stays_iff (h.shaped.block b hmem) hsound.proper hsound.fits h.optimal.length_x
    (hs.sigma _ (List.mem_map_of_mem hmem))]
  exact h.optimal.dual_touches r hrmem

variable [IndexSource σ W]

/-- **An iteration on any block completes, and stays at the pair.** The dual variable does not change, so that
    the increment of the adjoint sum is zero. -/
theorem update (h : m.AtOptimum g rs x v) (hs : m.PositiveSteps) (hi : m.nextIndex < m.blocks.length) :
    ∃ m', m.update = .ok () m' ∧ m'.AtOptimum g rs x v := by
  obtain ⟨b, hb⟩ : ∃ b, m.blocks[m.nextIndex]? = some b := ⟨_, List.getElem?_eq_getElem hi⟩
  obtain ⟨point, hpoint, hprimal⟩ := h.primalStays hs
  obtain ⟨r, hr, hsound, hrep, image, ascent, himage, hascent, hdual⟩ := h.represents hs hb
  have hpointLength : point.length = m.domainDim := by
    obtain ⟨-, -, rfl⟩ := forwardPoint?_eq_some_iff.mp hpoint
    exact Vec.length_zipWith_of_length h.shaped.x h.shaped.zbar
  have hdelta := hrep.adjointInto_unchanged hsound.length_dual (hpointLength.trans hsound.domainDim.symm)
  rw [hsound.domainDim] at hdelta
  have hzeros : m.z.length = (Vec.zeros m.domainDim : Vec EReal).length :=
    h.shaped.z.trans (Vec.length_zeros _).symm
  have hu := update_eq_ok_iff_equations.mpr ⟨point, m.x, b, image, ascent, b.dual, _, hpoint, hprimal, hb,
    himage, hascent, hdual, rfl, hdelta, hzeros, h.shaped.z.trans h.shaped.zbar.symm, rfl⟩
  have hz : List.zipWith (· + ·) m.z (Vec.zeros m.domainDim) = m.z := Vec.zipWith_zeros add_zero h.shaped.z
  have hzbar : List.zipWith (fun z d => z + 1 / b.weight * d) m.z (Vec.zeros m.domainDim) = m.z := by
    refine Vec.zipWith_zeros (fun a => ?_) h.shaped.z
    rw [mul_zero, add_zero]
  refine ⟨_, hu, h.of_core (h.shaped.of_update hu) rfl rfl (map_set_of_eq hb rfl) rfl hz ?_⟩
  show List.zipWith _ (List.zipWith _ m.z _) _ = m.zbar
  rw [hz, hzbar, h.zbar]

/-- **Every call stays at the pair.** An iteration can only fail on an index without a block. -/
theorem perform (h : m.AtOptimum g rs x v) (hs : m.PositiveSteps) {c : Call EReal}
    (hc : (m.perform c).state? = some m') : m'.AtOptimum g rs x v := by
  have hshaped := h.shaped.perform hc
  rcases perform_cases hc with ⟨-, hu⟩ | ⟨e, hu⟩ | hr | ⟨steps, hlen, rfl⟩ | rfl
  · obtain ⟨-, -, b, -, -, -, -, -, -, hb, -⟩ := update_eq_ok_iff_equations.mp hu
    obtain ⟨m₁, hu₁, h₁⟩ := h.update hs (List.getElem?_eq_some_iff.mp hb).1
    rw [hu] at hu₁
    cases hu₁
    exact h₁
  · obtain ⟨point, hpoint, hprimal⟩ := h.primalStays hs
    obtain ⟨point', x', hpoint', hcases⟩ := update_eq_error_iff.mp hu
    obtain rfl : point = point' := Option.some.inj (hpoint.symm.trans hpoint')
    rcases hcases with ⟨hx, -⟩ | ⟨hx, -, -, rfl⟩ | ⟨hx, b, b', hb, hascend, -⟩
    · rw [hprimal] at hx
      cases hx
    · rw [hprimal] at hx
      cases hx
      exact h.of_core hshaped rfl rfl rfl rfl rfl rfl
    · rw [hprimal] at hx
      cases hx
      obtain ⟨r, -, -, -, image, ascent, himage, hascent, hdual⟩ := h.represents hs hb
      rw [DualBlock.ascend_eq_ok_iff.mpr ⟨image, ascent, _, himage, hascent, hdual, rfl⟩] at hascend
      cases hascend
  · obtain ⟨scratch, blocks, losses, rfl, -, hb⟩ := frame_of_recordObjective hr
    exact h.of_core hshaped rfl rfl (FiniteState.map_core_of_map_outline hb) rfl rfl rfl
  · exact h.of_core hshaped rfl rfl (map_blocks_withSteps (fun _ _ => rfl) hlen) rfl rfl rfl
  · exact h

/-- **A run does not leave the pair.** -/
theorem of_steered (h : m.AtOptimum g rs x v) (hsteered : Steered m m') : m'.AtOptimum g rs x v := by
  induction hsteered with
  | start _ => exact h
  | call h₁ hc _ ih => exact ih.perform h₁.positiveSteps hc

omit [IndexSource σ W] in
/-- Conversely, a method at an optimal pair is stationary. -/
theorem stationary (h : m.AtOptimum g rs x v) (hs : m.PositiveSteps) : m.Stationary := by
  intro i hi
  obtain ⟨m', hu, hopt⟩ := (h.withSource (Always.mk i)).update ⟨hs.sigma, hs.tau⟩ hi
  refine ⟨m', hu, hopt.x.trans h.x.symm, ?_⟩
  rw [h.duals_eq hopt]

omit [IndexSource σ W] in
/-- What is recorded for the dual variables of the pair and any solution. -/
theorem records (h : m.AtOptimum g rs x v) (hv : m.negatedAdjoint? = some v.lift) {u : Vec ℝ}
    (hu : u.length = m.domainDim) : Records { m with x := u.lift }
      ⟨(primalValue g rs u : ℝ), (primalValue g rs x : ℝ), (primalValue g rs u - primalValue g rs x : ℝ)⟩ := by
  have hx : u.lift.length = m.domainDim := (Vec.length_lift u).trans hu
  have hshaped : Shaped { m with x := u.lift } :=
    ⟨h.shaped.blocks_ne_nil, h.shaped.block, hx, h.shaped.scratch, h.shaped.z, h.shaped.zbar⟩
  have hconjugate := BasicTerm.conjugate_lift h.optimal.proper (h.optimal.length_v.symm ▸ h.optimal.fits)
    h.optimal.touches.1
  have hrecord := records_lift (m := { m with x := u.lift }) hshaped h.primalTerm h.optimal.fits h.blocks
    h.optimal.sound rfl hv hconjugate
  rwa [← EReal.coe_sub, ← h.optimal.primalValue_eq, ← EReal.coe_sub] at hrecord

end AtOptimum

end Spdhg

open Spdhg in
/-- **Stationary states are optimal.** Let `z` and `z̄` be the sum of the adjoints on the dual variables, and let
    the iteration that draws a block move neither the solution nor the dual variable of that block, whichever
    block it is. Then the objectives that are recorded agree, and with any other solution the primal objective
    that would be recorded is not smaller. From such a state no calls with positive steps move the solution, the
    dual variables, `z` or `z̄`, whatever source of indices the method has; and an iteration completes whenever
    the source names a block. -/
theorem stationary_states_are_optimal {g : BasicTerm ℝ} {rs : List RealBlock} {x : Vec ℝ}
    {m : Spdhg EReal σ} (hm : m.Settled g rs x) (hs : m.PositiveSteps) (h : m.Stationary) :
    m.Records ⟨(primalValue g rs x : ℝ), (primalValue g rs x : ℝ), 0⟩ ∧
      (∀ u : Vec ℝ, u.length = m.domainDim → primalValue g rs x ≤ primalValue g rs u ∧
        Records { m with x := u.lift } ⟨(primalValue g rs u : ℝ), (primalValue g rs x : ℝ),
          (primalValue g rs u - primalValue g rs x : ℝ)⟩) ∧
      ∀ (ρ V : Type) [IndexSource ρ V] (source : ρ) (m' : Spdhg EReal ρ), Steered (m.withSource source) m' →
        m'.x = m.x ∧ m'.duals = m.duals ∧ m'.z = m.z ∧ m'.zbar = m.zbar ∧
          (m'.nextIndex < m'.blocks.length → ∃ m'', m'.update = .ok () m'') := by
  obtain ⟨v, hopt, hv⟩ := hm.exists_atOptimum hs h
  refine ⟨?_, ?_, ?_⟩
  · have hrecord := hopt.records hv hopt.optimal.length_x
    rwa [← hm.x, sub_self, EReal.coe_zero] at hrecord
  · intro u hu
    exact ⟨hopt.optimal.primalValue_le hu, hopt.records hv hu⟩
  · intro ρ V _ source m' hsteered
    have hopt' := (hopt.withSource source).of_steered hsteered
    refine ⟨hopt'.x.trans hopt.x.symm, hopt.duals_eq hopt', hopt'.z.trans hopt.z.symm, ?_, ?_⟩
    · rw [hopt'.zbar, hopt'.z, hopt.zbar, hopt.z]
    · intro hi
      obtain ⟨m'', hu, -⟩ := hopt'.update hsteered.positiveSteps hi
      exact ⟨m'', hu⟩

/-- The objective `|a x| + (x - b)²` of a real variable, with the solution `x` and the dual variable `y`. -/
noncomputable def settledLine (a b x y : ℝ) : Spdhg EReal Always where
  blocks := [{
    term := (BasicTerm.oneNorm ⟨1⟩).lift.functional
    operator := (BasicOperator.diagonal [a]).lift.operator
    weight := 1
    norm := a
    sigma := 1
    dual := Vec.lift [y]
    spare := Vec.lift [0]
    image := Vec.lift [0] }]
  domainDim := 1
  primalTerm := (BasicTerm.squaredDistance ⟨1, some [b]⟩).lift.functional
  source := ⟨0⟩
  tau := 1
  x := Vec.lift [x]
  scratch := Vec.lift [0]
  z := Vec.lift [a * y]
  zbar := Vec.lift [a * y]
  losses := #[]
  iteration := 0

/-- The block of that objective. -/
def settledBlock (a y : ℝ) : RealBlock := ⟨.oneNorm ⟨1⟩, .diagonal [a], [y]⟩

theorem shaped_settledLine (a b x y : ℝ) : (settledLine a b x y).Shaped := by
  refine ⟨List.cons_ne_nil _ _, ?_, rfl, rfl, rfl, rfl⟩
  intro c hc
  obtain rfl := List.mem_singleton.mp hc
  exact ⟨rfl, rfl, rfl, rfl⟩

theorem settled_settledLine (a b x y : ℝ) :
    (settledLine a b x y).Settled (.squaredDistance ⟨1, some [b]⟩) [settledBlock a y] [x] := by
  have hadjoint : (BasicOperator.diagonal [a]).lift.operator.adjointInto (Vec.lift [y]) (Vec.zeros 1) =
      some (Vec.lift [a * y]) := by
    rw [LinearOperator.adjointInto, BasicOperator.adjoint_lift (k := .diagonal [a]) (y := [y]) rfl rfl]
    simp [BasicOperator.coimage, Vec.write?]
  have hspread : Vec.spread? 1 (Vec.lift [a * y]) = some (Vec.lift [a * y]) := Vec.spread?_eq_self rfl
  have hsum : Vec.zip? (· + ·) (Vec.zeros 1) (Vec.lift [a * y]) = some (Vec.lift [a * y]) := by
    simp [Vec.zip?, Vec.zeros, Vec.lift]
  refine ⟨shaped_settledLine a b x y, rfl, rfl, one_pos, ?_, ?_, ?_, rfl, ?_, rfl⟩
  · rintro c ⟨⟩
    rfl
  · intro r hr
    rw [List.mem_singleton.mp hr]
    exact zero_le_one
  · intro r hr
    rw [List.mem_singleton.mp hr]
    trivial
  · simp [settledLine, LinearOperator.adjointSum?, hadjoint, hspread, hsum]

/-- The minimiser of `|2 x| + (x - 3)²`. -/
theorem optimalPair_settledBlock :
    OptimalPair 1 (.squaredDistance ⟨1, some [3]⟩) [settledBlock 2 1] [2] [-2] := by
  have hsettled := settled_settledLine 2 3 2 1
  have hfeasible : (settledBlock 2 1).term.Feasible (settledBlock 2 1).dual := by
    intro w hw
    rw [List.mem_singleton.mp hw, abs_one]
  refine ⟨hsettled.primal_proper, hsettled.primal_fits, ?_, rfl, rfl, ?_, ⟨trivial, ?_⟩, ?_⟩
  · intro r hr
    rw [List.mem_singleton.mp hr]
    exact ⟨zero_le_one, trivial, rfl, rfl, hfeasible⟩
  · intro u hu
    obtain ⟨a, rfl⟩ := List.length_eq_one_iff.mp hu
    simp [settledBlock, Spdhg.coupling, BasicOperator.coimage, Vec.pairing]
  · norm_num [BasicTerm.valueAt, BasicTerm.conjugateAt, Vec.pairing]
  · intro r hr
    rw [List.mem_singleton.mp hr]
    refine ⟨hfeasible, ?_⟩
    norm_num [settledBlock, BasicTerm.valueAt, BasicTerm.conjugateAt, BasicOperator.image, Vec.pairing]

theorem stationary_states_are_optimal_on_the_line :
    (settledLine 2 3 2 1).Settled (.squaredDistance ⟨1, some [3]⟩) [settledBlock 2 1] [2] ∧
      (settledLine 2 3 2 1).PositiveSteps ∧ (settledLine 2 3 2 1).Stationary ∧
      (settledLine 2 3 2 1).Records ⟨5, 5, 0⟩ := by
  have hsettled := settled_settledLine 2 3 2 1
  have hsteps : (settledLine 2 3 2 1).PositiveSteps :=
    Spdhg.positiveSteps_of_one (fun s hs => List.mem_singleton.mp hs) rfl
  have hstationary : (settledLine 2 3 2 1).Stationary := by
    have hz : (settledLine 2 3 2 1).z = Vec.lift ([(-2 : ℝ)].map (- ·)) := by
      simp [settledLine]
    exact Spdhg.AtOptimum.stationary ⟨hsettled.shaped, rfl, rfl, optimalPair_settledBlock, rfl, hz, rfl⟩ hsteps
  have hvalue : Spdhg.primalValue (.squaredDistance ⟨1, some [3]⟩) [settledBlock 2 1] [2] = 5 := by
    norm_num [Spdhg.primalValue, settledBlock, BasicTerm.valueAt, BasicOperator.image, Vec.pairing]
  have hrecord := (stationary_states_are_optimal hsettled hsteps hstationary).1
  rw [hvalue] at hrecord
  exact ⟨hsettled, hsteps, hstationary, hrecord⟩

end Splitting
