import Splitting.Proofs.Functional.FenchelYoung
import Splitting.Proofs.PrimalDual.Failures
import Splitting.Proofs.PrimalDual.RunningAdjoint
import Splitting.Proofs.Subsets.Frequencies

/-!
# `Splitting.Proofs.PrimalDual.Draws` — every draw finds a block with a positive probability

The primal-dual method copies the frequencies of its sampler when it is built, and checks no more of them than
their number. From then on it relies on the sampler: that it names no index without a block, and none of a block
by whose probability an iteration must not divide. In exact arithmetic the samplers of the library keep to that
for ever, whatever calls are made.

* `BlockSource.sampler` — the sampler behind a source;
* `Spdhg.Fed` — what the method relies on; `SpdhgSetup.fed_of_build`, `Spdhg.Fed.perform` — it holds at first
  and after every call;
* `Spdhg.Fed.exists_block` — the draw of a method that is fed;
* `samplers_feed_every_draw` — the main statement.
-/

namespace Splitting

/-! ## The source of a method -/

/-- The sampler behind the source of a method, which was given or is the default one. -/
def BlockSource.sampler {W : Type} : BlockSource (Sampler W) W → Sampler W
  | .given s => s
  | .standard s => s

section

variable {S W σ : Type} [Scalar S]

namespace BlockSource

variable [Scalar W]

theorem next_fst (source : BlockSource (Sampler W) W) :
    (IndexSource.next source).1 = source.sampler.draw.1 := by
  cases source <;> rfl

theorem sampler_next (source : BlockSource (Sampler W) W) :
    (IndexSource.next source).2.sampler = source.sampler.draw.2 := by
  cases source <;> rfl

end BlockSource

namespace Spdhg

variable [IndexSource σ W]

/-- **A call leaves the source where it is, or draws one index from it.** -/
theorem source_of_perform {m m' : Spdhg S σ} {c : Call S} (h : (m.perform c).state? = some m') :
    m'.source = m.source ∨ m'.source = m.nextSource := by
  rcases perform_cases h with ⟨-, hu⟩ | ⟨e, hu⟩ | hr | ⟨steps, -, rfl⟩ | rfl
  · obtain ⟨point, x, b, image, ascent, y, delta, -, -, -, -, -, -, -, -, -, -, rfl⟩ :=
      update_eq_ok_iff_equations.mp hu
    exact Or.inr rfl
  · -- only a failure of the primal term comes before the draw
    obtain ⟨point, x, -, h⟩ := update_eq_error_iff.mp hu
    rcases h with ⟨-, rfl⟩ | ⟨-, -, -, rfl⟩ | ⟨-, b, b', -, -, rfl⟩
    · exact Or.inl rfl
    · exact Or.inr rfl
    · exact Or.inr rfl
  · obtain ⟨scratch, blocks, losses, rfl, -, -⟩ := frame_of_recordObjective hr
    exact Or.inl rfl
  · exact Or.inl rfl
  · exact Or.inl rfl

omit [Scalar S] [IndexSource σ W] in
theorem weights_of_data {m m' : Spdhg S σ}
    (h : m'.blocks.map DualBlock.data = m.blocks.map DualBlock.data) : m'.weights = m.weights := by
  have hweights := congrArg (List.map fun d => d.2.2.1) h
  rwa [List.map_map, List.map_map] at hweights

end Spdhg

end

/-! ## A method that is fed -/

/-- The sampler of the method overruns nothing, and the probabilities of the blocks are its frequencies. -/
structure Spdhg.Fed (m : Spdhg ℝ (BlockSource (Sampler ℝ) ℝ)) : Prop where
  reached : m.source.sampler.Reached
  inside : ¬m.source.sampler.Overruns
  weights : m.weights = m.source.sampler.frequencies

namespace Spdhg.Fed

variable {m m' m₀ : Spdhg ℝ (BlockSource (Sampler ℝ) ℝ)}

/-- **Every call keeps the method fed.** -/
theorem perform (h : m.Fed) {c : Call ℝ} (hc : (m.perform c).state? = some m') : m'.Fed := by
  have hweights : m'.weights = m.weights := weights_of_data (data_of_perform hc).2.2
  rcases source_of_perform hc with hsource | hsource
  · exact ⟨hsource ▸ h.reached, hsource ▸ h.inside, by rw [hweights, hsource, h.weights]⟩
  · have hsampler : m'.source.sampler = m.source.sampler.draw.2 := by
      rw [hsource, nextSource, BlockSource.sampler_next]
    refine ⟨hsampler ▸ h.reached.draw, ?_, ?_⟩
    · rw [hsampler, Sampler.overruns_draw_iff]
      exact h.inside
    · rw [hweights, hsampler, Sampler.frequencies_draw, h.weights]

theorem reachable (h : m₀.Fed) (hm : Reachable m₀ m) : m.Fed := by
  induction hm with
  | start => exact h
  | call _ hc ih => exact ih.perform hc

/-- **The index that is drawn has a block, and the block a positive probability.** -/
theorem exists_block (h : m.Fed) : ∃ b, m.blocks[m.nextIndex]? = some b ∧ 0 < b.weight := by
  have hlt : m.source.sampler.draw.1 < m.source.sampler.numSubsets :=
    h.reached.lt_or_overruns.resolve_right h.inside
  obtain ⟨p, hp, hpos⟩ := h.reached.exists_pos hlt
  rw [← h.weights, ← BlockSource.next_fst, Spdhg.weights, List.getElem?_map, Option.map_eq_some_iff] at hp
  obtain ⟨b, hb, rfl⟩ := hp
  exact ⟨b, hb, hpos⟩

end Spdhg.Fed

/-! ## What a setup feeds -/

namespace SpdhgSetup

variable {setup : SpdhgSetup ℝ (Sampler ℝ)} {m : Spdhg ℝ (BlockSource (Sampler ℝ) ℝ)}

/-- The setup has no source, or a sampler that does not overrun, however often it has been drawn from. -/
def FromLibrary (setup : SpdhgSetup ℝ (Sampler ℝ)) : Prop :=
  setup.source = none ∨ ∃ s : Sampler ℝ, s.Reached ∧ ¬s.Overruns ∧ setup.source = some s

/-- The source of a method that was built has the probabilities of the blocks for frequencies. -/
theorem frequencies_of_blockSource {given : Option (List ℝ)} {weights : List ℝ}
    {source : BlockSource (Sampler ℝ) ℝ} (hlibrary : setup.FromLibrary)
    (hgiven : setup.resolveWeights = .ok given) (hweights : setup.completeWeights given = .ok weights)
    (hsource : setup.blockSource weights = .ok source) :
    source.sampler.Reached ∧ ¬source.sampler.Overruns ∧ weights = source.sampler.frequencies := by
  rcases hlibrary with hnone | ⟨s, hreached, hinside, hsome⟩
  · rw [blockSource, hnone] at hsource
    obtain ⟨s, hs, rfl⟩ := Except.map_eq_ok_iff.mp hsource
    refine ⟨(Sampler.Made.randomWithReplacement hs).reached 0, ?_, ?_⟩
    · obtain ⟨ps, prepared, -, -, -, -, -, rfl⟩ := Sampler.randomWithReplacement_eq_ok hs
      rintro ⟨hkind, -⟩
      cases hkind
    · obtain ⟨ps, prepared, rfl, -, -, -, -, rfl⟩ := Sampler.randomWithReplacement_eq_ok hs
      exact (List.map_id' weights).symm
  · rw [blockSource, hsome] at hsource
    cases hsource
    have hreported : setup.source.bind IndexSource.frequencies? = some s.frequencies := by
      rw [hsome]
      rfl
    obtain ⟨hweights, -⟩ := completeWeights_eq_ok_iff.mp hweights
    rw [given_of_reported hreported hgiven] at hweights
    exact ⟨hreached, hinside, hweights.trans (List.map_id' s.frequencies)⟩

/-- **A method that was built is fed.** -/
theorem fed_of_build (hlibrary : setup.FromLibrary) (h : setup.build = .ok m) : m.Fed := by
  obtain ⟨given, weights, source, norms, steps, x, hgiven, hweights, hsource, -, -, ⟨hf, hp, hn, hs, -⟩,
    rfl⟩ := build_eq_ok h
  obtain ⟨hreached, hinside, hfrequencies⟩ :=
    frequencies_of_blockSource hlibrary hgiven hweights hsource
  exact ⟨hreached, hinside, (map_blocks_weight hf hp hn hs).trans hfrequencies⟩

end SpdhgSetup

/-! ## Every draw -/

section

variable {S W σ : Type} [Scalar S]

/-- The functions of this library that have a conjugate fail on lengths only. -/
theorem BasicTerm.not_raises (t : BasicTerm S) (e : Error) : ¬t.functional.Raises e := by
  rintro (⟨point, step, out, new, h⟩ | ⟨point, step, out, new, h⟩ | ⟨y, h⟩)
  · exact t.proximal_ne_error h
  · exact t.proximalConjugate_ne_error h
  · cases t with
    | oneNorm f => cases h
    | squaredDistance f =>
      simp only [functional, SquaredDistance.functional] at h
      split at h <;> cases h

variable [Scalar W] [Precision S W] [IndexSource σ W]

/-- The terms of a method are those of its setup, after any calls. -/
theorem Spdhg.Reachable.mem_terms {setup : SpdhgSetup S σ} {m₀ m : Spdhg S (BlockSource σ W)}
    (hbuild : setup.build = .ok m₀) (h : Reachable m₀ m) {f : Functional S} (hf : f ∈ m.terms) :
    f ∈ setup.primalTerm :: setup.terms := by
  rw [terms_of_data h.data.2.1 h.data.2.2] at hf
  obtain ⟨given, weights, source, norms, steps, x, -, -, -, -, -, -, rfl⟩ := SpdhgSetup.build_eq_ok hbuild
  rcases List.mem_cons.mp hf with rfl | hf
  · exact List.mem_cons_self
  · obtain ⟨b, hb, rfl⟩ := List.mem_map.mp hf
    exact List.mem_cons_of_mem _ (SpdhgSetup.mem_of_mem_blocks hb).1

end

namespace Spdhg.Fed

variable {m m₁ m' : Spdhg ℝ (BlockSource (Sampler ℝ) ℝ)}

/-- No call of a method that is fed has an index out of range for its error, unless a term raises it. -/
theorem raises_of_outOfRange (h : m.Fed) {c : Call ℝ} {i n : Nat}
    (hc : m.perform c = .error (.subsetOutOfRange i n) m') :
    ∃ f ∈ m.terms, f.Raises (.subsetOutOfRange i n) := by
  rcases cause_of_perform_error hc with hterm | ⟨hnone, -⟩ | ⟨fault, hsteps⟩ | ⟨expected, got, hsteps⟩
  · exact hterm
  · obtain ⟨b, hb, -⟩ := h.exists_block
    rw [hb] at hnone
    cases hnone
  · cases hsteps
  · cases hsteps

/-- The draw of an iteration succeeds, and the probability that the iteration divides by is positive. -/
theorem exists_draw (h : m.Fed) (hprimal : m.primalPhase = .ok () m₁) :
    ∃ i b m₂, m₁.drawPhase = .ok (i, b) m₂ ∧ 0 < b.weight ∧
      ∀ b' m₃, m₂.dualPhase i b = .ok b' m₃ → 0 < b'.weight := by
  obtain ⟨point, x, -, -, rfl⟩ := primalPhase_eq_ok_iff.mp hprimal
  obtain ⟨b, hb, hpos⟩ := h.exists_block
  refine ⟨_, b, _, drawPhase_eq_ok_iff.mpr ⟨rfl, hb, rfl⟩, hpos, fun b' m₃ hdual => ?_⟩
  -- the dual step writes into buffers, and keeps the probability
  obtain ⟨hascend, -⟩ := dualPhase_eq_ok_iff.mp hdual
  have houtline : b'.outline = b.outline := DualBlock.outline_of_ascend (by rw [hascend]; rfl)
  rw [(DualBlock.outline_eq_iff.mp houtline).2.2.1]
  exact hpos

end Spdhg.Fed

open Spdhg in
/-- **Samplers feed every draw.** In exact arithmetic, and in every state of every sampler: the index that is
    drawn next is below the number of subsets, unless a custom order has an entry beyond its own length; and if
    it is below, its frequency is positive.

    So let a method be built with such a sampler, in any of its states, or with the default one; and let any
    calls be made, completed or failed. Then no call has an index out of range for its error, unless one of the
    terms itself raises it; and in an iteration that comes to its draw, the draw finds a block, and the
    probability that is divided by in the end is positive. -/
theorem samplers_feed_every_draw :
    (∀ s : Sampler ℝ, s.Reached → (s.draw.1 < s.numSubsets ∨ s.Overruns) ∧
      (s.draw.1 < s.numSubsets → ∃ p, s.frequencies[s.draw.1]? = some p ∧ 0 < p)) ∧
    ∀ (setup : SpdhgSetup ℝ (Sampler ℝ)) (m₀ m : Spdhg ℝ (BlockSource (Sampler ℝ) ℝ)),
      setup.FromLibrary → setup.build = .ok m₀ → Reachable m₀ m →
        (∀ c i n m', m.perform c = .error (.subsetOutOfRange i n) m' →
          ∃ f ∈ setup.primalTerm :: setup.terms, f.Raises (.subsetOutOfRange i n)) ∧
        ∀ m₁, m.primalPhase = .ok () m₁ → ∃ i b m₂, m₁.drawPhase = .ok (i, b) m₂ ∧ 0 < b.weight ∧
          ∀ b' m₃, m₂.dualPhase i b = .ok b' m₃ → 0 < b'.weight := by
  refine ⟨fun s hs => ⟨hs.lt_or_overruns, hs.exists_pos⟩, ?_⟩
  intro setup m₀ m hlibrary hbuild hm
  have hfed : m.Fed := (SpdhgSetup.fed_of_build hlibrary hbuild).reachable hm
  refine ⟨fun c i n m' hc => ?_, fun m₁ hprimal => hfed.exists_draw hprimal⟩
  obtain ⟨f, hf, hraises⟩ := hfed.raises_of_outOfRange hc
  exact ⟨f, hm.mem_terms hbuild hf, hraises⟩

/-- Two of four probabilities are zero, the first and one between the others. -/
theorem exists_gappedSampler : ∃ s : Sampler ℝ,
    Sampler.randomWithReplacement 4 (some [0, 1 / 2, 0, 1 / 2]) 7 = .ok s ∧
      s.frequencies = [0, 1 / 2, 0, 1 / 2] := by
  let prepared : Weighted ℝ := ⟨Weighted.sums 0 [1 / 2, 0, 1 / 2], [1 / 2, 0, 1 / 2].foldl (· + ·) 0⟩
  have hprepared : Weighted.ofWeights? [(0 : ℝ), 1 / 2, 0, 1 / 2] = some prepared := by
    rw [Weighted.ofWeights?, if_pos (by norm_num)]
  refine ⟨.fresh .randomWithReplacement 4 7 (.independent [0, 1 / 2, 0, 1 / 2] prepared), ?_, rfl⟩
  simp only [Sampler.randomWithReplacement, Option.getD_some, hprepared]
  norm_num

open Spdhg in
/-- A sampler with gaps only ever draws what lies between them; and a method with two blocks that are visited
    in turn has no index out of range, after its first iteration, for any call. -/
theorem samplers_feed_every_draw_with_gaps :
    (∃ s : Sampler ℝ, Sampler.randomWithReplacement 4 (some [0, 1 / 2, 0, 1 / 2]) 7 = .ok s ∧
      ∀ k, (s.after k).draw.1 = 1 ∨ (s.after k).draw.1 = 3) ∧
    ∃ m, (oneDimensional 3 2 3).FromLibrary ∧
      (oneDimensional 3 2 3).build = .ok (oneDimensionalMethod 3 2 3) ∧
      Reachable (oneDimensionalMethod 3 2 3) m ∧ m.z = [3] ∧
      ∀ c i n m', m.perform c ≠ .error (.subsetOutOfRange i n) m' := by
  obtain ⟨hsamplers, hmethods⟩ := samplers_feed_every_draw
  constructor
  · obtain ⟨s, hs, hfrequencies⟩ := exists_gappedSampler
    refine ⟨s, hs, fun k => ?_⟩
    obtain ⟨hlt, hpos⟩ := hsamplers (s.after k) ((Sampler.Made.randomWithReplacement hs).reached k)
    have hinside : ¬(s.after k).Overruns := by
      obtain ⟨ps, prepared, -, -, -, -, -, rfl⟩ := Sampler.randomWithReplacement_eq_ok hs
      rw [Sampler.overruns_after_iff]
      rintro ⟨hkind, -⟩
      cases hkind
    obtain ⟨p, hp, hpositive⟩ := hpos (hlt.resolve_right hinside)
    rw [Sampler.frequencies_after, hfrequencies] at hp
    match (s.after k).draw.1, hp with
    | 0, rfl => exact absurd hpositive (lt_irrefl 0)
    | 1, _ => exact Or.inl rfl
    | 2, rfl => exact absurd hpositive (lt_irrefl 0)
    | 3, _ => exact Or.inr rfl
  · obtain ⟨m, hu, -, hz, -⟩ := oneDimensional_first_iteration
    have hlibrary : (oneDimensional 3 2 3).FromLibrary := by
      refine Or.inr ⟨_, (Sampler.Made.sequential (n := 2) rfl).reached 0, ?_, rfl⟩
      rintro ⟨hkind, -⟩
      cases hkind
    have hm : Reachable (oneDimensionalMethod 3 2 3) m := .call (c := .update) .start (by
      rw [perform, hu]
      rfl)
    refine ⟨m, hlibrary, build_oneDimensional 3 2 3, hm, hz, fun c i n m' hc => ?_⟩
    obtain ⟨f, hf, hraises⟩ :=
      (hmethods _ _ m hlibrary (build_oneDimensional 3 2 3) hm).1 c i n m' hc
    have hbasic : ∃ t : BasicTerm ℝ, f = t.functional := by
      simp only [oneDimensional, List.mem_cons, List.not_mem_nil, or_false] at hf
      rcases hf with rfl | rfl | rfl
      · exact ⟨.squaredDistance .unit, rfl⟩
      · exact ⟨.oneNorm ⟨1⟩, rfl⟩
      · exact ⟨.squaredDistance .unit, rfl⟩
    obtain ⟨t, rfl⟩ := hbasic
    exact t.not_raises _ hraises

end Splitting
