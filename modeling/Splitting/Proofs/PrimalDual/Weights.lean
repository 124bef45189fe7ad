import Splitting.Proofs.PrimalDual.Draws
import Splitting.Proofs.PrimalDual.Representation
import Splitting.Proofs.PrimalDual.Requirements

/-!
# `Splitting.Proofs.PrimalDual.Weights` — one list of probabilities for everything

The probabilities of the blocks reach three places: the default source draws with them, the steps are derived
from them, and every iteration extrapolates by their inverses. They are resolved once, from the one place that
gives them, and it is that list which all three use, for ever.

* `SpdhgSetup.weights_of_build`, `SpdhgSetup.scales_of_build` — a new method has the resolved list;
* `SpdhgSetup.Representable`, `SpdhgSetup.frequencies_of_build` — so has the sampler behind it;
* `Spdhg.Reachable.source_induction` — what a draw keeps of a source is kept by all calls;
* `weights_come_from_one_place` — the main statement.
-/

namespace Splitting

variable {S W σ : Type}

namespace Spdhg

variable [Scalar S]

/-- What every draw keeps of a source, calls keep of the source of a method. -/
theorem Reachable.source_induction [IndexSource σ W] {P : σ → Prop}
    (hP : ∀ s : σ, P s → P (IndexSource.next s).2) {m₀ m : Spdhg S σ} (h : Reachable m₀ m)
    (hstart : P m₀.source) : P m.source := by
  induction h with
  | start => exact hstart
  | call _ hc ih =>
    rcases source_of_perform hc with hsource | hsource
    · exact hsource ▸ ih
    · rw [hsource]
      exact hP _ ih

/-- The steps of a method that calls lead to are derived from the same scales. -/
theorem Reachable.scales [IndexSource σ W] {m₀ m : Spdhg S σ} (h : Reachable m₀ m) :
    m.scales = m₀.scales := by
  have hscales := congrArg (List.map fun d => DualScale.mk d.2.2.1 d.2.2.2) h.data.2.2
  rwa [List.map_map, List.map_map] at hscales

/-- An iteration extrapolates by the inverse of the drawn block's probability. -/
theorem zbar_of_update [IndexSource σ W] {m m' : Spdhg S σ} (h : m.update = .ok () m') :
    ∃ w, m.weights[m.nextIndex]? = some w ∧ m'.z = List.zipWith (· + ·) m.z m'.scratch ∧
      m'.zbar = List.zipWith (fun z d => z + 1 / w * d) m'.z m'.scratch := by
  obtain ⟨point, x, b, image, ascent, y, delta, -, -, hb, -, -, -, -, -, -, -, rfl⟩ :=
    update_eq_ok_iff_equations.mp h
  refine ⟨b.weight, ?_, rfl, rfl⟩
  rw [weights, List.getElem?_map, hb]
  rfl

end Spdhg

namespace SpdhgSetup

variable [Scalar S] [Scalar W] [Precision S W] [IndexSource σ W] {setup : SpdhgSetup S σ}
  {m : Spdhg S (BlockSource σ W)}

/-- **A new method has the resolved probabilities.** -/
theorem weights_of_build (h : setup.build = .ok m) : m.weights = setup.resolved := by
  obtain ⟨given, hgiven, hweights, -⟩ := listed_of_build h
  obtain rfl := eq_listed_of_resolveWeights hgiven
  exact (completeWeights_eq_ok_iff.mp hweights).1

/-- **The steps of a new method are derived from the resolved probabilities** and the norms of the setup. -/
theorem scales_of_build (h : setup.build = .ok m) :
    ∃ norms, setup.norms? = some norms ∧ m.scales = setup.scales norms := by
  unfold build at h
  obtain ⟨⟨⟩, hterms, h⟩ := Except.bind_eq_ok_iff.mp h
  obtain ⟨given, hgiven, h⟩ := Except.bind_eq_ok_iff.mp h
  obtain ⟨stack, hstack, h⟩ := Except.bind_eq_ok_iff.mp h
  obtain ⟨weights, hweights, h⟩ := Except.bind_eq_ok_iff.mp h
  obtain ⟨source, -, h⟩ := Except.bind_eq_ok_iff.mp h
  obtain ⟨⟨norms, stack'⟩, hnorms, h⟩ := Except.bind_eq_ok_iff.mp h
  obtain ⟨⟨sigma, tau⟩, hsteps, h⟩ := Except.bind_eq_ok_iff.mp h
  obtain ⟨x, -, h⟩ := Except.bind_eq_ok_iff.mp h
  rw [Fault.lift_eq_ok_iff] at hterms hgiven hstack hweights hsteps
  rw [Fault.ofOption_eq_ok_iff] at hnorms
  obtain rfl := eq_listed_of_resolveWeights hgiven
  obtain ⟨rfl, hp⟩ := completeWeights_eq_ok_iff.mp hweights
  refine ⟨norms, ?_, ?_⟩
  · rw [← norms?_of_stack hstack, hnorms]
    rfl
  · obtain ⟨hblocks, -, hn⟩ := OperatorStack.blocks_of_norms? hnorms
    rw [(blocks_of_stack hstack).1] at hblocks hn
    have hzipped := Vec.length_zipWith_of_length (f := DualScale.mk) hp hn
    have hs : sigma.length = setup.count := (PrimalDual.length_of_resolveSteps hsteps).trans hzipped
    have hscaled := congrArg (List.map Prod.fst) (map_blocks_scaled (checkTerms_eq_ok_iff.mp hterms) hp hn hs)
    rw [List.map_map, List.map_fst_zip (Nat.le_of_eq (hzipped.trans hs.symm)), ← hblocks] at hscaled
    cases h
    exact hscaled

/-- The numbers that the source of the setup reports are numbers of the method as well. -/
def Representable (setup : SpdhgSetup S σ) : Prop :=
  ∀ ws : List W, setup.source.bind IndexSource.frequencies? = some ws →
    ∀ w ∈ ws, Precision.widen (Precision.narrow w : S) = w

/-- The default source has the resolved probabilities. -/
theorem frequencies_of_standard {s : Sampler W} (h : setup.build = .ok m) (hs : m.source = .standard s) :
    s.frequencies = setup.resolved.map Precision.widen := by
  obtain ⟨given, weights, source, norms, steps, x, hgiven, hweights, hsource, -, -, -, rfl⟩ := build_eq_ok h
  obtain rfl := eq_listed_of_resolveWeights hgiven
  obtain ⟨rfl, -⟩ := completeWeights_eq_ok_iff.mp hweights
  obtain rfl : source = .standard s := hs
  unfold blockSource at hsource
  split at hsource
  · cases hsource
  · obtain ⟨s', hs', hsame⟩ := Except.map_eq_ok_iff.mp hsource
    cases hsame
    obtain ⟨ps, prepared, rfl, -, -, -, -, rfl⟩ := Sampler.randomWithReplacement_eq_ok hs'
    rfl

/-- A sampler that was given has the resolved probabilities. -/
theorem frequencies_of_given {setup : SpdhgSetup S (Sampler W)} {m : Spdhg S (BlockSource (Sampler W) W)}
    (hrepresentable : setup.Representable) {s : Sampler W} (h : setup.build = .ok m)
    (hs : m.source = .given s) : s.frequencies = setup.resolved.map Precision.widen := by
  obtain ⟨given, weights, source, norms, steps, x, -, -, hsource, -, -, -, rfl⟩ := build_eq_ok h
  obtain rfl : source = .given s := hs
  have hsome : setup.source = some s := by
    unfold blockSource at hsource
    split at hsource
    · next hsome =>
      cases hsource
      exact hsome
    · obtain ⟨s', -, hsame⟩ := Except.map_eq_ok_iff.mp hsource
      cases hsame
  have hreported : setup.source.bind IndexSource.frequencies? = some s.frequencies := by
    rw [hsome]
    rfl
  have hresolved : setup.resolved = s.frequencies.map Precision.narrow := by
    rw [resolved, listed, reported, hreported]
    rfl
  calc s.frequencies = s.frequencies.map id := (List.map_id _).symm
    _ = s.frequencies.map (Precision.widen ∘ (Precision.narrow : W → S)) :=
      List.map_congr_left fun w hw => (hrepresentable _ hreported w hw).symm
    _ = setup.resolved.map Precision.widen := by rw [hresolved, List.map_map]

end SpdhgSetup

/-! ## Calls keep them -/

namespace Spdhg

variable [Scalar S] [Scalar W] [Precision S W]

/-- The default source of a method always has the resolved probabilities. -/
theorem Reachable.frequencies_of_standard [IndexSource σ W] {setup : SpdhgSetup S σ}
    {m₀ m : Spdhg S (BlockSource σ W)} (h : Reachable m₀ m) (hbuild : setup.build = .ok m₀) {s : Sampler W}
    (hs : m.source = .standard s) : s.frequencies = setup.resolved.map Precision.widen := by
  refine h.source_induction
    (P := fun source => ∀ s, source = .standard s → s.frequencies = setup.resolved.map Precision.widen)
    ?_ (fun s => SpdhgSetup.frequencies_of_standard hbuild) s hs
  rintro (s | s) hsource t ht
  · cases ht
  · cases ht
    exact (Sampler.frequencies_draw s).trans (hsource s rfl)

/-- The sampler behind a method, given or not, always has the resolved probabilities. -/
theorem Reachable.frequencies_of_sampler {setup : SpdhgSetup S (Sampler W)}
    {m₀ m : Spdhg S (BlockSource (Sampler W) W)} (h : Reachable m₀ m) (hbuild : setup.build = .ok m₀)
    (hrepresentable : setup.Representable) :
    m.source.sampler.frequencies = setup.resolved.map Precision.widen := by
  refine h.source_induction (P := fun source => source.sampler.frequencies = _) ?_ ?_
  · intro source hsource
    rw [BlockSource.sampler_next, Sampler.frequencies_draw]
    exact hsource
  · cases hsource : m₀.source with
    | given s => exact SpdhgSetup.frequencies_of_given hrepresentable hbuild hsource
    | standard s => exact SpdhgSetup.frequencies_of_standard hbuild hsource

end Spdhg

open Spdhg in
/-- **The probabilities come from one place.** Let the norms of the blocks be given or known, or let the
    operators respond. Then building a method succeeds exactly when the setup meets every requirement, and
    otherwise fails with the complaint about the first one that it does not meet.

    A method that was built has the resolved probabilities, whatever calls have been made: they are those of
    its blocks; the steps are derived from them, at first and whenever they are set; every iteration
    extrapolates by the inverse of one of them; and they are the frequencies of the default source. They are
    the frequencies of a sampler that was given as well, if these are numbers of the method. -/
theorem weights_come_from_one_place [Scalar S] [Scalar W] [Precision S W] [IndexSource σ W] :
    (∀ setup : SpdhgSetup S σ, setup.HasNorms →
      ((∃ m, setup.build = .ok m) ↔ ∀ r, setup.Meets r) ∧
      (∀ fault, setup.build = .error fault ↔
        ∃ r, setup.ViolatesFirst r ∧ fault = .error (setup.complaint r)) ∧
      ∀ m₀, setup.build = .ok m₀ → ∃ norms, setup.norms? = some norms ∧
        PrimalDual.resolveSteps (setup.scales norms) setup.sigma setup.tau = .ok (m₀.sigma, m₀.tau) ∧
        ∀ m, Reachable m₀ m → m.weights = setup.resolved ∧
          (∀ sigma tau, m.setStepSizes sigma tau =
            m.withSteps <$> PrimalDual.resolveSteps (setup.scales norms) sigma tau) ∧
          (∀ gamma rho, m.setStepSizesFromRatio gamma rho =
            m.withSteps <$> PrimalDual.stepsFromRatio (setup.scales norms) gamma rho) ∧
          (∀ m', m.update = .ok () m' → ∃ w, setup.resolved[m.nextIndex]? = some w ∧
            m'.z = List.zipWith (· + ·) m.z m'.scratch ∧
            m'.zbar = List.zipWith (fun z d => z + 1 / w * d) m'.z m'.scratch) ∧
          ∀ s, m.source = .standard s → s.frequencies = m.weights.map Precision.widen) ∧
    ∀ (setup : SpdhgSetup S (Sampler W)) m₀ m, setup.Representable → setup.build = .ok m₀ →
      Reachable m₀ m → m.source.sampler.frequencies = m.weights.map Precision.widen := by
  have hkept : ∀ {ρ : Type} [IndexSource ρ W] {setup : SpdhgSetup S ρ} {m₀ m : Spdhg S (BlockSource ρ W)},
      setup.build = .ok m₀ → Reachable m₀ m → m.weights = setup.resolved := by
    intro ρ _ setup m₀ m hbuild hm
    exact (weights_of_data hm.data.2.2).trans (SpdhgSetup.weights_of_build hbuild)
  constructor
  · intro setup hnorms
    refine ⟨SpdhgSetup.exists_build_iff hnorms, fun fault => SpdhgSetup.build_eq_error_iff hnorms, ?_⟩
    intro m₀ hbuild
    obtain ⟨norms, hknown, hscales⟩ := SpdhgSetup.scales_of_build hbuild
    obtain ⟨given, -, -, hsteps⟩ := SpdhgSetup.listed_of_build hbuild
    rw [hscales] at hsteps
    refine ⟨norms, hknown, hsteps, fun m hm => ⟨hkept hbuild hm, ?_, ?_, ?_, ?_⟩⟩
    · intro sigma tau
      rw [setStepSizes, hm.scales, hscales]
    · intro gamma rho
      rw [setStepSizesFromRatio, hm.scales, hscales]
    · intro m' hu
      obtain ⟨w, hw, hz, hzbar⟩ := zbar_of_update hu
      rw [hkept hbuild hm] at hw
      exact ⟨w, hw, hz, hzbar⟩
    · intro s hs
      rw [hkept hbuild hm]
      exact hm.frequencies_of_standard hbuild hs
  · intro setup m₀ m hrepresentable hbuild hm
    rw [hkept hbuild hm]
    exact hm.frequencies_of_sampler hbuild hrepresentable

open Spdhg in
/-- With probabilities of one quarter and three quarters and no source, blocks are drawn with them; beside a
    source that reports its own they are refused, and that before a primal step of zero is; and a method with
    a source keeps the frequencies of that source. -/
theorem weights_come_from_one_place_on_the_line :
    (∃ m, ({ oneDimensional 3 2 3 with source := none, weights := some [1 / 4, 3 / 4] } :
        SpdhgSetup ℝ (Sampler ℝ)).build = .ok m ∧
      m.weights = [1 / 4, 3 / 4] ∧ ∀ s, m.source = .standard s → s.frequencies = [1 / 4, 3 / 4]) ∧
    ({ oneDimensional 3 2 3 with weights := some [1 / 4, 3 / 4], tau := some 0 } :
        SpdhgSetup ℝ (Sampler ℝ)).build =
      .error (.error (.invalidParameter .weightsTwice)) ∧
    ∃ m, Reachable (oneDimensionalMethod 3 2 3) m ∧ m.z = [3] ∧ m.source.sampler.frequencies = m.weights := by
  obtain ⟨hone, hsampler⟩ := weights_come_from_one_place (S := ℝ) (W := ℝ) (σ := Sampler ℝ)
  refine ⟨?_, ?_, ?_⟩
  · set setup : SpdhgSetup ℝ (Sampler ℝ) :=
      { oneDimensional 3 2 3 with source := none, weights := some [1 / 4, 3 / 4] } with hsetup
    obtain ⟨hbuilds, -, hbuilt⟩ := hone setup (Or.inr (Or.inl (by simp [hsetup, oneDimensional])))
    have hresolved : setup.resolved = [1 / 4, 3 / 4] := rfl
    have hmeets : ∀ r, setup.Meets r := by
      intro r
      cases r with
      | termCount | weightCount => rfl
      | weightsOnce | probabilitiesOnce => exact Or.inl rfl
      | normCount | normSigns =>
        intro ns hns
        cases hns
      | weightTotal =>
        refine SpdhgSetup.meets_weightTotal_iff.mpr fun _ => ?_
        rw [hresolved]
        norm_num
      | weightSigns =>
        intro _ w hw
        rw [hresolved] at hw
        rcases List.mem_pair.mp hw with rfl | rfl <;> norm_num [Precision.widen]
      | tauSign | sigmaCount | sigmaSigns | ratioAboveFloor | initialLength =>
        simp [SpdhgSetup.Meets, hsetup, oneDimensional, SpdhgSetup.count]
    obtain ⟨m, hm⟩ := hbuilds.mpr hmeets
    obtain ⟨norms, -, -, hkept⟩ := hbuilt m hm
    obtain ⟨hweights, -, -, -, hfrequencies⟩ := hkept m .start
    refine ⟨m, hm, hweights, fun s hs => ?_⟩
    rw [hfrequencies s hs, hweights]
    exact List.map_id' _
  · obtain ⟨-, herror, -⟩ := hone { oneDimensional 3 2 3 with weights := some [1 / 4, 3 / 4], tau := some 0 }
      (Or.inr (Or.inl (by simp [oneDimensional])))
    refine (herror _).mpr ⟨.weightsOnce, ⟨⟨[.termCount], _, rfl, ?_⟩, ?_⟩, rfl⟩
    · simp [SpdhgSetup.Meets, oneDimensional, SpdhgSetup.count]
    · rintro (hreported | hweights)
      · rw [SpdhgSetup.reported] at hreported
        cases hreported
      · cases hweights
  · obtain ⟨m, hu, -, hz, -⟩ := oneDimensional_first_iteration
    have hm : Reachable (oneDimensionalMethod 3 2 3) m := .call (c := .update) .start (by
      rw [perform, hu]
      rfl)
    have hfrequencies := hsampler _ _ m (fun _ _ _ _ => rfl) (build_oneDimensional 3 2 3) hm
    refine ⟨m, hm, hz, hfrequencies.trans (List.map_id' _)⟩

end Splitting
