import Splitting.Proofs.Buffers
import Splitting.Proofs.PrimalDual.DerivedSteps
import Splitting.Proofs.PrimalDual.SingleBlock

/-!
# `Splitting.Proofs.PrimalDual.EnergyDescent` — what the check of the steps promises

With one block, the check `σ τ n² ≤ 1` is the condition under which the energy

  `‖x‖² / τ + 2 ⟨K x, y⟩ + ‖y‖² / σ`

is a squared distance. If a method passes it, and the norm `n` that it has stored is one of its operator, then no
iteration leads away from a pair `(x*, y*)` that the two proximal maps leave in place.

* `Functional.fresh?_eq_some_iff_of_computesMap` — a proximal map in a fresh buffer, on points;
* `Spdhg.At.bound_of_checkConvergence` — what the check says of one block;
* `energy_of_single_block_decreases` — the main statement.
-/

namespace Splitting

open scoped RealInnerProductSpace

variable {n r : ℕ}

/-- In a fresh buffer, too, an operation that computes a map leaves its value. -/
theorem Functional.fresh?_eq_some_iff_of_computesMap {op : Vec ℝ → ℝ → Vec ℝ → Outcome (Vec ℝ) Unit}
    {P : ℝ → Space n → Space n} (h : ComputesMap op P) {a : ℝ} (ha : 0 < a) {x z : Space n} :
    fresh? (op (Vec.ofPoint x) a) (Vec.ofPoint x).length = some (Vec.ofPoint z) ↔ P a x = z := by
  have hbuffer : (Vec.zeros (Vec.ofPoint x).length : Vec ℝ).length = n :=
    (Vec.length_zeros _).trans (Vec.length_ofPoint x)
  rw [fresh?, h a x _ ha hbuffer]
  show some (Vec.ofPoint (P a x)) = _ ↔ _
  rw [Option.some.injEq]
  exact Vec.ofPoint_injective.eq_iff

/-- The check of a method with one block. -/
theorem Spdhg.At.bound_of_checkConvergence {σ : Type} [IndexSource σ ℝ] {p : SaddleProblem (Space n) (Space r)}
    {t s ν : ℝ} {q : Extrapolated (Space n) (Space r)} {m : Spdhg ℝ σ} (h : m.At p t s q)
    (hnorms : m.norms = [ν]) (hcheck : m.checkConvergence = true) : s * t * ν ^ 2 ≤ 1 := by
  obtain ⟨b, hblocks, hb⟩ := h.block
  have hmem : b ∈ m.blocks := by
    rw [hblocks]
    exact List.mem_singleton_self b
  have hnorm : b.norm = ν := by
    rw [norms, hblocks] at hnorms
    exact List.singleton_inj.mp hnorms
  have hbound := checkConvergence_iff.mp hcheck b hmem
  rwa [hb.sigma, h.tau, hnorm, hb.weight] at hbound

/-- **A method that passes the check does not move away from a saddle point.** With one block, whose stored norm
    `ν` bounds the operator, and one-norms or squared distances as terms, let `x k` and `y k` be the solution and
    the dual variable after `k` iterations. For every pair that the two proximal maps leave in place, the energy
    of the distance of `(x (k + 1), y k)` from it is not negative, and does not increase with `k`. -/
theorem energy_of_single_block_decreases {setup : SpdhgSetup ℝ (Sampler ℝ)}
    {m₀ : Spdhg ℝ (BlockSource (Sampler ℝ) ℝ)} {f g : BasicTerm ℝ} {op : LinearOperator ℝ}
    {K : Space n → Space r} {Kt : Space r → Space n} {t s ν : ℝ} (hbuild : setup.build = .ok m₀)
    (hsetup : setup.SingleBlock f.functional g.functional op) (hf : f.Proper ∧ f.Fits r)
    (hg : g.Proper ∧ g.Fits n) (hop : op.Computes K Kt) (hadjoint : ∀ x y, ⟪K x, y⟫ = ⟪x, Kt y⟫)
    (htau : m₀.tau = t) (ht : 0 < t) (hsigma : m₀.sigma = [s]) (hs : 0 < s)
    (hnorms : m₀.norms = [ν]) (hnorm : ∀ x, ‖K x‖ ≤ ν * ‖x‖) (hcheck : m₀.checkConvergence = true) :
    ∃ (x : ℕ → Space n) (y : ℕ → Space r),
      (∀ k, ∃ m, m₀.updates k = .ok () m ∧ m.x = Vec.ofPoint (x k) ∧ m.duals = [Vec.ofPoint (y k)]) ∧
      ∀ (xs : Space n) (ys : Space r),
        g.functional.proximal? (Vec.ofPoint (xs - t • Kt ys)) t = some (Vec.ofPoint xs) →
        f.functional.proximalConjugate? (Vec.ofPoint (ys + s • K xs)) s = some (Vec.ofPoint ys) →
        ∀ k, 0 ≤ Extrapolated.energy K t s (x (k + 1) - xs) (y k - ys) ∧
          Extrapolated.energy K t s (x (k + 2) - xs) (y (k + 1) - ys) ≤
            Extrapolated.energy K t s (x (k + 1) - xs) (y k - ys) := by
  obtain ⟨P, hP⟩ := BasicTerm.exists_proximalOn hg.1 hg.2
  obtain ⟨Q, hQ⟩ := BasicTerm.exists_proximalOn hf.1 hf.2
  have hlinear : IsLinearMap ℝ Kt := Problem.isLinearMap_of_adjoint (Problem.adjoint_symm hadjoint)
  let p : SaddleProblem (Space n) (Space r) := ⟨K, Kt, P, Problem.conjugateMap Q⟩
  have hmonotone : p.Monotone := ⟨hadjoint, hP.firm, hQ.firm.conjugateMap⟩
  obtain ⟨x₀, -, hat⟩ := hsetup.exists_at hbuild (p := p) hop hlinear hP.proximal hQ.proximalConjugate hsigma
  rw [htau] at hat
  have hnonneg := Extrapolated.energy_nonneg ht hs hnorm (hat.bound_of_checkConvergence hnorms hcheck)
  refine ⟨fun k => (p.extrapolated t s x₀ k).x, fun k => (p.extrapolated t s x₀ k).y, fun k => ?_, ?_⟩
  · obtain ⟨m, hm, hk⟩ := hat.updates hlinear ht hs k
    exact ⟨m, hm, hk.x, hk.duals⟩
  · intro xs ys hxs hys k
    have hsaddle : p.IsSaddle t s xs ys :=
      ⟨(Functional.fresh?_eq_some_iff_of_computesMap hP.proximal ht).mp hxs,
        (Functional.fresh?_eq_some_iff_of_computesMap hQ.proximalConjugate hs).mp hys⟩
    exact ⟨hnonneg _ _, hmonotone.energy_next_le ht hs hnonneg hsaddle (p.extrapolated t s x₀ k)⟩

theorem energy_of_single_block_decreases_on_the_line :
    ∃ (m₀ : Spdhg ℝ (BlockSource (Sampler ℝ) ℝ)) (x y : ℕ → Space 1),
      (scaledLine (OneNorm.functional ⟨1⟩) 2 (1 / 2) 3).build = .ok m₀ ∧ m₀.checkConvergence = true ∧
      (∀ k, ∃ m, m₀.updates k = .ok () m ∧ m.x = Vec.ofPoint (x k) ∧ m.duals = [Vec.ofPoint (y k)]) ∧
      ∀ k, 0 ≤ Extrapolated.energy (fun x => (2 : ℝ) • x) (1 / 2) (1 / 2) (x (k + 1)) (y k) ∧
        Extrapolated.energy (fun x => (2 : ℝ) • x) (1 / 2) (1 / 2) (x (k + 2)) (y (k + 1)) ≤
          Extrapolated.energy (fun x => (2 : ℝ) • x) (1 / 2) (1 / 2) (x (k + 1)) (y k) := by
  obtain ⟨m₀, hbuild, hsigma, htau, hnorms⟩ := build_scaledLine (OneNorm.functional ⟨1⟩) 2 3 one_half_pos
  have hcheck : m₀.checkConvergence = true := by
    obtain ⟨source, ν, s, t, x, -, -, -, rfl⟩ := (singleBlock_scaledLine _ 2 (1 / 2) 3).eq_of_build hbuild
    refine Spdhg.checkConvergence_iff.mpr fun b hb => ?_
    obtain rfl := List.mem_singleton.mp hb
    obtain rfl : s = 1 / 2 := List.singleton_inj.mp hsigma
    obtain rfl : ν = 2 := List.singleton_inj.mp hnorms
    obtain rfl : t = 1 / 2 := htau
    norm_num
  obtain ⟨x, y, hupdates, henergy⟩ := energy_of_single_block_decreases
    (f := .oneNorm ⟨1⟩) (g := .squaredDistance SquaredDistance.unit) hbuild (singleBlock_scaledLine _ 2 (1 / 2) 3)
    ⟨zero_le_one, trivial⟩ ⟨one_pos, nofun⟩ computes_doubling
    (fun x y => by rw [real_inner_smul_left, real_inner_smul_right]) htau one_half_pos hsigma one_half_pos
    hnorms (fun x => by rw [norm_smul, Real.norm_two]) hcheck
  refine ⟨m₀, x, y, hbuild, hcheck, hupdates, fun k => ?_⟩
  -- the origin is left in place by both proximal maps
  have hsaddle := henergy 0 0 ?_ ?_ k
  · rwa [sub_zero, sub_zero, sub_zero, sub_zero] at hsaddle
  · simp [Vec.ofPoint_one, Functional.proximal?, Functional.fresh?, Functional.proximalInto, BasicTerm.functional,
      SquaredDistance.functional, SquaredDistance.proximal?, SquaredDistance.entries, SquaredDistance.unit,
      Functional.sameLength, Functional.overwrite, Vec.write?, Vec.zeros, Outcome.put, Outcome.guard,
      Outcome.success?]
  · simp [Vec.ofPoint_one, Functional.proximalConjugate?, Functional.fresh?, Functional.proximalConjugateInto,
      BasicTerm.functional, OneNorm.functional, OneNorm.clip, Functional.sameLength, Functional.overwrite,
      Vec.write?, Vec.zeros, Outcome.put, Outcome.guard, Outcome.success?]

end Splitting
