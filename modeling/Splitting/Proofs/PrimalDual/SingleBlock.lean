import Splitting.Proofs.Functional.ConjugateMaps
import Splitting.Proofs.PrimalDual.Shape

/-!
# `Splitting.Proofs.PrimalDual.SingleBlock` — the method with one block and no chance

With one block, which a sequential sampler draws every time, the stochastic primal-dual method is the
deterministic one: although it only keeps sums of adjoints, it computes the recursion with extrapolated dual
variables. The sums are `z = Kᵀ y` and `z̄ = Kᵀ ȳ`, which each iteration carries over to the next.

* `Spdhg.updates` — any number of iterations;
* `Spdhg.At`, `Spdhg.At.update` — a method at a point of the recursion, and an iteration from there;
* `SpdhgSetup.SingleBlock`, `SpdhgSetup.SingleBlock.exists_at` — the setup, and the method that it builds;
* `single_block_computes_extrapolated_recursion` — the main statement.
-/

namespace Splitting

variable {σ : Type} {n r : ℕ}

/-- Any number of iterations; the first failure ends them. -/
def Spdhg.updates {S W : Type} [Scalar S] [IndexSource σ W] (m : Spdhg S σ) : ℕ → Outcome (Spdhg S σ) Unit
  | 0 => .ok () m
  | k + 1 => (m.updates k).bind fun _ m => m.update

/-! ## An iteration -/

/-- The only block of a method, for the problem `p` and at the dual point `y`. Of the buffers only the lengths
    are known. -/
structure DualBlock.At (p : SaddleProblem (Space n) (Space r)) (s : ℝ) (y : Space r) (b : DualBlock ℝ) :
    Prop where
  proximal : ComputesMap b.term.proximalConjugateInto p.dual
  operator : b.operator.Computes p.direct p.adjoint
  weight : b.weight = 1
  sigma : b.sigma = s
  dual : b.dual = Vec.ofPoint y
  spare : b.spare.length = r
  image : b.image.length = r

namespace DualBlock.At

variable {p : SaddleProblem (Space n) (Space r)} {s : ℝ} {y : Space r} {b : DualBlock ℝ}

/-- The point at which the dual step is taken. -/
theorem ascent (h : b.At p s y) (x : Space n) :
    Vec.zip? (fun a y => y + b.sigma * a) (Vec.ofPoint (p.direct x)) b.dual =
      some (Vec.ofPoint (y + s • p.direct x)) := by
  rw [h.dual, h.sigma]
  exact Vec.zip?_ofPoint fun _ => rfl

theorem change (h : b.At p s y) (y' : Space r) :
    List.zipWith (fun old new => new - old) b.dual (Vec.ofPoint y') = Vec.ofPoint (y' - y) := by
  rw [h.dual]
  exact Vec.zipWith_ofPoint fun _ => rfl

/-- The block after an update. -/
theorem committed (h : b.At p s y) (y' : Space r) (ascent : Space r) : DualBlock.At p s y' { b with
    dual := Vec.ofPoint y'
    spare := List.zipWith (fun old new => new - old) b.dual (Vec.ofPoint y')
    image := Vec.ofPoint ascent } := by
  refine ⟨h.proximal, h.operator, h.weight, h.sigma, rfl, ?_, Vec.length_ofPoint _⟩
  rw [h.change, Vec.length_ofPoint]

end DualBlock.At

/-- The adjoint of a change, added to the adjoint of what was before. -/
theorem add_change_ofPoint {B : Space r → Space n} (h : IsLinearMap ℝ B) (y y' : Space r) :
    List.zipWith (· + ·) (Vec.ofPoint (B y)) (Vec.ofPoint (B (y' - y))) = Vec.ofPoint (B y') := by
  refine Vec.zipWith_ofPoint fun i => ?_
  rw [h.map_sub]
  exact (add_sub_cancel _ _).symm

/-- Added once more, it gives the adjoint of the point ahead. -/
theorem add_change_ahead_ofPoint {B : Space r → Space n} (h : IsLinearMap ℝ B) (y y' : Space r) :
    List.zipWith (fun z d => z + 1 / 1 * d) (Vec.ofPoint (B y')) (Vec.ofPoint (B (y' - y))) =
      Vec.ofPoint (B (2 • y' - y)) := by
  refine Vec.zipWith_ofPoint fun i => ?_
  rw [two_nsmul, h.map_sub, h.map_sub, h.map_add]
  show B y' i + B y' i - B y i = B y' i + 1 / 1 * (B y' i - B y i)
  ring

namespace Spdhg

/-- The method has one block, which its source names again and again, and is at the point `q` of the recursion
    for the problem `p`. -/
structure At [IndexSource σ ℝ] (p : SaddleProblem (Space n) (Space r)) (t s : ℝ)
    (q : Extrapolated (Space n) (Space r)) (m : Spdhg ℝ σ) : Prop where
  block : ∃ b, m.blocks = [b] ∧ b.At p s q.y
  source : IndexSource.next m.source = (0, m.source)
  proximal : ComputesMap m.primalTerm.proximalInto p.primal
  tau : m.tau = t
  x : m.x = Vec.ofPoint q.x
  scratch : m.scratch.length = n
  z : m.z = Vec.ofPoint (p.adjoint q.y)
  zbar : m.zbar = Vec.ofPoint (p.adjoint q.ahead)

namespace At

variable [IndexSource σ ℝ] {p : SaddleProblem (Space n) (Space r)} {t s : ℝ}
  {q : Extrapolated (Space n) (Space r)} {m : Spdhg ℝ σ}

theorem duals (h : m.At p t s q) : m.duals = [Vec.ofPoint q.y] := by
  obtain ⟨b, hblocks, hb⟩ := h.block
  rw [Spdhg.duals, hblocks, List.map_singleton, hb.dual]

theorem forwardPoint?_eq (h : m.At p t s q) :
    m.forwardPoint? = some (Vec.ofPoint (q.x - t • p.adjoint q.ahead)) := by
  apply forwardPoint?_eq_some_iff.mpr
  rw [h.x, h.zbar, h.tau, h.scratch, Vec.length_ofPoint, Vec.length_ofPoint]
  exact ⟨rfl, rfl, (Vec.zipWith_ofPoint fun _ => rfl).symm⟩

/-- **An iteration is a step of the recursion.** The adjoint of the change of the dual variable is the change of
    its adjoint, so that both sums move along with it. -/
theorem update (h : m.At p t s q) (hlinear : IsLinearMap ℝ p.adjoint) (ht : 0 < t) (hs : 0 < s) :
    ∃ m', m.update = .ok () m' ∧ m'.At p t s (q.next p t s) := by
  obtain ⟨b, hblocks, hb⟩ := h.block
  set x := (q.next p t s).x with hx
  set y := (q.next p t s).y with hy
  have hindex : m.nextIndex = 0 := congrArg Prod.fst h.source
  have hsource : m.nextSource = m.source := congrArg Prod.snd h.source
  have hprimal : m.primalTerm.proximalInto (Vec.ofPoint (q.x - t • p.adjoint q.ahead)) m.tau m.x =
      .ok () (Vec.ofPoint x) := by
    rw [h.tau]
    apply h.proximal t _ _ ht
    rw [h.x, Vec.length_ofPoint]
  have hdual : b.term.proximalConjugateInto (Vec.ofPoint (q.y + s • p.direct x)) b.sigma b.spare =
      .ok () (Vec.ofPoint y) := by
    rw [hb.sigma]
    exact hb.proximal s _ _ hs hb.spare
  have hdelta : b.operator.adjointInto (List.zipWith (fun old new => new - old) b.dual (Vec.ofPoint y))
      (Vec.ofPoint (q.x - t • p.adjoint q.ahead)) = some (Vec.ofPoint (p.adjoint (y - q.y))) := by
    rw [hb.change]
    exact hb.operator.adjoint _ _ (Vec.length_ofPoint _)
  refine ⟨_, update_eq_ok_iff_equations.mpr ⟨_, _, b, _, _, _, _, h.forwardPoint?_eq, hprimal, ?_,
    hb.operator.direct x _ hb.image, hb.ascent x, hdual, ?_, hdelta, ?_, ?_, rfl⟩, ?_⟩
  · rw [hindex, hblocks]
    rfl
  · rw [hb.dual, Vec.length_ofPoint, Vec.length_ofPoint]
  · rw [h.z, Vec.length_ofPoint, Vec.length_ofPoint]
  · rw [h.z, h.zbar, Vec.length_ofPoint, Vec.length_ofPoint]
  · refine ⟨⟨_, ?_, hb.committed y (q.y + s • p.direct x)⟩, ?_, h.proximal, h.tau, rfl, Vec.length_ofPoint _, ?_, ?_⟩
    · rw [hindex, hblocks]
      rfl
    · rw [hsource]
      exact h.source
    · rw [h.z]
      exact add_change_ofPoint hlinear q.y y
    · dsimp only
      rw [h.z, add_change_ofPoint hlinear, hb.weight]
      exact add_change_ahead_ofPoint hlinear q.y y

/-- **Any number of iterations follow the recursion.** -/
theorem updates {x₀ : Space n} (h : m.At p t s ⟨x₀, 0, 0⟩) (hlinear : IsLinearMap ℝ p.adjoint) (ht : 0 < t)
    (hs : 0 < s) (k : ℕ) : ∃ m', m.updates k = .ok () m' ∧ m'.At p t s (p.extrapolated t s x₀ k) := by
  induction k with
  | zero => exact ⟨m, rfl, h⟩
  | succ k ih =>
    obtain ⟨m₁, hm₁, h₁⟩ := ih
    obtain ⟨m₂, hm₂, h₂⟩ := h₁.update hlinear ht hs
    refine ⟨m₂, ?_, h₂⟩
    rw [Spdhg.updates, hm₁]
    exact hm₂

end At

end Spdhg

/-! ## The setup -/

namespace SpdhgSetup

/-- The setup has the single term `f` with the operator `op`, the primal term `g`, and a sequential sampler. -/
structure SingleBlock (f g : Functional ℝ) (op : LinearOperator ℝ) (setup : SpdhgSetup ℝ (Sampler ℝ)) :
    Prop where
  terms : setup.terms = [f]
  primalTerm : setup.primalTerm = g
  operator : setup.operator.blocks = [op]
  source : ∃ sampler, Sampler.sequential 1 = .ok sampler ∧ setup.source = some sampler

/-- The sequential sampler of one index names it, is then as before, and reports the frequency one. -/
theorem of_sequential_one {sampler : Sampler ℝ} (h : Sampler.sequential 1 = .ok sampler) :
    IndexSource.next sampler = (0, sampler) ∧ IndexSource.frequencies? sampler = some [1] := by
  obtain rfl : Sampler.fresh .sequential 1 0 (.rounds #[0] #[0] false) = sampler := Except.ok.inj h
  have hvisits : Sampler.visits 1 #[0] = #[1] := by decide
  refine ⟨rfl, ?_⟩
  simp [IndexSource.frequencies?, Sampler.frequencies, Sampler.fresh, hvisits]

variable {setup : SpdhgSetup ℝ (Sampler ℝ)} {f g : Functional ℝ} {op : LinearOperator ℝ}
  {m : Spdhg ℝ (BlockSource (Sampler ℝ) ℝ)}

/-- The starting point is the one that is given, or the origin. -/
theorem getD_initial_of_start {S σ : Type} [Scalar S] {setup : SpdhgSetup S σ} {x : Vec S}
    (h : setup.start = .ok x) : setup.initial.getD (Vec.zeros setup.operator.domainDim) = x := by
  unfold start at h
  split at h
  · next hnone =>
    rw [hnone]
    exact Except.ok.inj h
  · next x₀ hsome =>
    split at h
    · rw [hsome]
      exact Except.ok.inj h
    · cases h

namespace SingleBlock

/-- With such a source the only probability is one, and the source is the one of the method. -/
theorem weights_eq (hsetup : setup.SingleBlock f g op) {given : Option (List ℝ)} {weights : List ℝ}
    {source : BlockSource (Sampler ℝ) ℝ} (hgiven : setup.resolveWeights = .ok given)
    (hweights : setup.completeWeights given = .ok weights) (hsource : setup.blockSource weights = .ok source) :
    weights = [1] ∧ IndexSource.next source = (0, source) := by
  obtain ⟨sampler, hsequential, hsampler⟩ := hsetup.source
  obtain ⟨hnext, hfrequencies⟩ := of_sequential_one hsequential
  constructor
  · have hreported : setup.source.bind IndexSource.frequencies? = some [1] := by
      rw [hsampler, Option.bind_some, hfrequencies]
    obtain ⟨hweights, -⟩ := completeWeights_eq_ok_iff.mp hweights
    rw [hweights, given_of_reported hreported hgiven]
    rfl
  · rw [blockSource, hsampler, Except.ok.injEq] at hsource
    subst hsource
    show (let (i, s) := IndexSource.next sampler; (i, BlockSource.given s)) = _
    rw [hnext]

/-- **What the setup builds:** one block, drawn with probability one, and all vectors zero apart from the
    starting point. -/
theorem eq_of_build (hsetup : setup.SingleBlock f g op) (h : setup.build = .ok m) :
    ∃ source ν s t x, IndexSource.next source = (0, source) ∧
      setup.initial.getD (Vec.zeros op.domainDim) = x ∧ x.length = op.domainDim ∧ m = {
        blocks := [⟨f, op, 1, ν, s, Vec.zeros op.rangeDim, Vec.zeros op.rangeDim, Vec.zeros op.rangeDim⟩]
        domainDim := op.domainDim
        primalTerm := g
        source := source
        tau := t
        x := x
        scratch := Vec.zeros op.domainDim
        z := Vec.zeros op.domainDim
        zbar := Vec.zeros op.domainDim
        losses := #[]
        iteration := 0 } := by
  obtain ⟨given, weights, source, norms, steps, x, hgiven, hweights, hsource, -, hx, ⟨-, -, hn, hs, hxl⟩,
    rfl⟩ := build_eq_ok h
  obtain ⟨rfl, hnext⟩ := hsetup.weights_eq hgiven hweights hsource
  have hcount : setup.count = 1 := congrArg List.length hsetup.operator
  obtain ⟨ν, rfl⟩ := List.length_eq_one_iff.mp (hn.trans hcount)
  obtain ⟨s, hs⟩ := List.length_eq_one_iff.mp (hs.trans hcount)
  have hmem : op ∈ setup.operator.blocks := by
    rw [hsetup.operator]
    exact List.mem_singleton_self op
  have hdim : setup.operator.domainDim = op.domainDim := (setup.operator.domainDim_of_mem op hmem).symm
  refine ⟨source, ν, s, steps.2, x, hnext, ?_, hxl.trans hdim, ?_⟩
  · rw [← hdim]
    exact getD_initial_of_start hx
  · rw [hsetup.terms, hsetup.operator, hsetup.primalTerm, hs, hdim]
    rfl

/-- The method that the setup builds is at the start of the recursion. -/
theorem exists_at (hsetup : setup.SingleBlock f g op) (h : setup.build = .ok m)
    {p : SaddleProblem (Space n) (Space r)} (hop : op.Computes p.direct p.adjoint)
    (hlinear : IsLinearMap ℝ p.adjoint) (hg : ComputesMap g.proximalInto p.primal)
    (hf : ComputesMap f.proximalConjugateInto p.dual) {s : ℝ} (hs : m.sigma = [s]) :
    ∃ x₀ : Space n, setup.initial.getD (Vec.zeros n) = Vec.ofPoint x₀ ∧ m.At p m.tau s ⟨x₀, 0, 0⟩ := by
  obtain ⟨source, ν, s', t, x, hnext, hx, hxl, rfl⟩ := hsetup.eq_of_build h
  obtain rfl : s' = s := List.singleton_inj.mp hs
  obtain ⟨x₀, rfl⟩ := Vec.exists_ofPoint (hxl.trans hop.domainDim)
  have hzero : (Vec.zeros op.domainDim : Vec ℝ) = Vec.ofPoint (p.adjoint 0) := by
    rw [hlinear.map_zero, hop.domainDim, Vec.zeros_eq_ofPoint]
  have hlength : (Vec.zeros op.rangeDim : Vec ℝ).length = r := (Vec.length_zeros _).trans hop.rangeDim
  refine ⟨x₀, hop.domainDim ▸ hx, ⟨_, rfl, hf, hop, rfl, rfl, ?_, hlength, hlength⟩, hnext, hg, rfl, rfl,
    (Vec.length_zeros _).trans hop.domainDim, hzero, hzero⟩
  rw [hop.rangeDim, Vec.zeros_eq_ofPoint]

end SingleBlock

end SpdhgSetup

/-! ## The recursion -/

/-- **With one block the method computes the recursion with extrapolated dual variables.** Whatever proximal
    maps its terms have, and whatever operator with a linear adjoint it couples them by, after any number of
    iterations the solution and the dual variable are those of

      `x' = P τ (x - τ Kᵀ ȳ)`, `y' = Q σ (y + σ K x')`, `ȳ' = 2 y' - y`

    from the starting point of the setup, with `y = ȳ = 0`. -/
theorem single_block_computes_extrapolated_recursion {setup : SpdhgSetup ℝ (Sampler ℝ)}
    {m₀ : Spdhg ℝ (BlockSource (Sampler ℝ) ℝ)} {f g : Functional ℝ} {op : LinearOperator ℝ}
    {K : Space n → Space r} {Kt : Space r → Space n} {P : ℝ → Space n → Space n} {Q : ℝ → Space r → Space r}
    {t s : ℝ} (hbuild : setup.build = .ok m₀) (hsetup : setup.SingleBlock f g op) (hop : op.Computes K Kt)
    (hlinear : IsLinearMap ℝ Kt) (hg : ComputesMap g.proximalInto P) (hf : ComputesMap f.proximalConjugateInto Q)
    (htau : m₀.tau = t) (ht : 0 < t) (hsigma : m₀.sigma = [s]) (hs : 0 < s) :
    ∃ x₀ : Space n, setup.initial.getD (Vec.zeros n) = Vec.ofPoint x₀ ∧
      ∀ k, ∃ m, m₀.updates k = .ok () m ∧
        m.x = Vec.ofPoint ((⟨K, Kt, P, Q⟩ : SaddleProblem _ _).extrapolated t s x₀ k).x ∧
        m.duals = [Vec.ofPoint ((⟨K, Kt, P, Q⟩ : SaddleProblem _ _).extrapolated t s x₀ k).y] := by
  obtain ⟨x₀, hx₀, hat⟩ := hsetup.exists_at hbuild (p := ⟨K, Kt, P, Q⟩) hop hlinear hg hf hsigma
  rw [htau] at hat
  refine ⟨x₀, hx₀, fun k => ?_⟩
  obtain ⟨m, hm, hk⟩ := hat.updates hlinear ht hs k
  exact ⟨m, hm, hk.x, hk.duals⟩

/-! ## An instance -/

/-- A term of a multiple of the solution, and a squared norm, on the real line, with both steps equal. -/
noncomputable def scaledLine (f : Functional ℝ) (a step start : ℝ) : SpdhgSetup ℝ (Sampler ℝ) where
  terms := [f]
  primalTerm := SquaredDistance.unit.functional
  operator := {
    blocks := [.diagonal [a]]
    domainDim := 1
    knownNorms := some [a]
    blocks_ne_nil := by simp
    domainDim_of_mem := by simp [LinearOperator.diagonal]
    length_knownNorms := by simp }
  initial := some [start]
  sigma := some [step]
  tau := some step
  source := some (Sampler.fresh .sequential 1 0 (.rounds #[0] #[0] false))
  weights := none
  probabilities := none
  norms := none
  seed := 0

theorem singleBlock_scaledLine (f : Functional ℝ) (a step start : ℝ) : (scaledLine f a step start).SingleBlock f
    SquaredDistance.unit.functional (.diagonal [a]) :=
  ⟨rfl, rfl, rfl, _, rfl, rfl⟩

theorem build_scaledLine (f : Functional ℝ) (a start : ℝ) {step : ℝ} (hstep : 0 < step) :
    ∃ m₀ : Spdhg ℝ (BlockSource (Sampler ℝ) ℝ), (scaledLine f a step start).build = .ok m₀ ∧
      m₀.sigma = [step] ∧ m₀.tau = step ∧ m₀.norms = [a] := by
  have hsequential : Sampler.sequential 1 =
      .ok (Sampler.fresh .sequential 1 0 (.rounds #[0] #[0] false) : Sampler ℝ) := rfl
  obtain ⟨-, hfrequencies⟩ := SpdhgSetup.of_sequential_one hsequential
  simp [SpdhgSetup.build, scaledLine, SpdhgSetup.checkTerms, SpdhgSetup.count, SpdhgSetup.resolveWeights,
    SpdhgSetup.stack, SpdhgSetup.completeWeights, SpdhgSetup.blockSource, OperatorStack.norms?, hfrequencies,
    PrimalDual.resolveSteps, PrimalDual.requirePositive, PrimalDual.dualSteps, PrimalDual.requireAllPositive,
    SpdhgSetup.start, Fault.lift, Fault.ofOption, bind, Except.bind, pure, Except.pure, Precision.narrow,
    SpdhgSetup.blocks, Spdhg.sigma, Spdhg.norms, hstep]

/-- A point of the line. -/
theorem Vec.ofPoint_one (x : Space 1) : Vec.ofPoint x = [x 0] := by
  rw [Vec.ofPoint, List.ofFn_succ, List.ofFn_zero]

theorem computes_doubling : (LinearOperator.diagonal [2]).Computes (fun x : Space 1 => (2 : ℝ) • x)
    fun y : Space 1 => (2 : ℝ) • y := by
  have hscale : ∀ (x : Space 1) (out : Vec ℝ), out.length = 1 →
      ((LinearOperator.scaleEntries [2] (Vec.ofPoint x) out).bind out.write?) =
        some (Vec.ofPoint ((2 : ℝ) • x)) := by
    intro x out hout
    have hvalue := BasicOperator.scaleEntries_eq (d := [2]) (Vec.length_ofPoint x) hout
    rw [hvalue, Option.bind_some, Vec.ofPoint_one, Vec.ofPoint_one]
    exact Vec.write?_eq_some_iff.mpr ⟨hout.symm, rfl⟩
  exact ⟨rfl, rfl, hscale, hscale⟩

theorem single_block_computes_extrapolated_recursion_on_the_line :
    ∃ m₀ m, (scaledLine (OneNorm.functional ⟨1⟩).proximalOnly 2 (1 / 2) 3).build = .ok m₀ ∧
      (scaledLine (OneNorm.functional ⟨1⟩).proximalOnly 2 (1 / 2) 3).SingleBlock
        (OneNorm.functional ⟨1⟩).proximalOnly SquaredDistance.unit.functional (.diagonal [2]) ∧
      m₀.updates 2 = .ok () m ∧ m.x = [-1 / 4] ∧ m.duals = [[3 / 4]] := by
  obtain ⟨m₀, hbuild, hsigma, htau, -⟩ := build_scaledLine (OneNorm.functional ⟨1⟩).proximalOnly 2 3 one_half_pos
  obtain ⟨b, hb⟩ := SquaredDistance.unit.exists_center (n := 1) nofun
  have hzero : b = 0 := by
    rcases hb.center_cases with ⟨-, hzero⟩ | hsome
    · exact hzero
    · cases hsome
  obtain ⟨x₀, hx₀, hrun⟩ := single_block_computes_extrapolated_recursion hbuild
    (singleBlock_scaledLine _ 2 (1 / 2) 3) computes_doubling (IsLinearMap.isLinearMap_smul 2)
    hb.computesProximable.proximal
    (Functional.computesMap_moreau (OneNorm.computesProximable ⟨1⟩).proximal) htau one_half_pos hsigma
    one_half_pos
  obtain ⟨m, hm, hx, hy⟩ := hrun 2
  have hstart : x₀ 0 = 3 := by
    rw [Vec.ofPoint_one] at hx₀
    exact (List.singleton_inj.mp hx₀).symm
  refine ⟨m₀, m, hbuild, singleBlock_scaledLine _ 2 (1 / 2) 3, hm, ?_, ?_⟩
  · rw [hx, Vec.ofPoint_one]
    simp [SaddleProblem.extrapolated, Extrapolated.next, Problem.conjugateMap, Space.softThreshold,
      OneNorm.softThreshold, hstart, hzero, SquaredDistance.unit]
    norm_num
  · rw [hy, Vec.ofPoint_one]
    simp [SaddleProblem.extrapolated, Extrapolated.next, Problem.conjugateMap, Space.softThreshold,
      OneNorm.softThreshold, hstart, hzero, SquaredDistance.unit]
    norm_num

end Splitting
