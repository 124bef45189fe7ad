import Splitting.Proofs.Exact.Reals
import Splitting.Proofs.PrimalDual.Shape

/-!
# `Splitting.Proofs.PrimalDual.LeastRatio` — steps that are derived from the least ratio

A primal step is derived from the least ratio `pᵢ / (σᵢ nᵢ²)`, and ratios up to a floor are left out: all that
can be said of a derived step is said of the blocks above the floor. In exact arithmetic:

* `PrimalDual.leastRatio?_eq_some`, `PrimalDual.leastRatio?_eq_none_iff` — the least ratio;
* `PrimalDual.bound_of_primalStep` — a primal step at `ρ / γ` of it: the bound of every block above the floor,
  and where it is attained;
* `PrimalDual.resolveSteps_cases` — what the steps are, by what is given;
* `PrimalDual.refuses_resolveSteps_iff` — when no primal step can be derived.
-/

namespace Splitting

variable {W σ : Type}

/-- A computation that refuses a parameter by its name. -/
def Refuses {α : Type} (name : String) (c : Except Fault α) : Prop :=
  ∃ fault : ParameterFault, c = .error (.error (.invalidParameter fault)) ∧ fault.parameter = name

/-- A computation that succeeds refuses nothing. -/
theorem not_refuses_ok {α : Type} {name : String} (a : α) : ¬ Refuses name (.ok a) := by
  rintro ⟨fault, h, -⟩
  cases h

theorem refuses_map_iff {α β : Type} {name : String} {f : α → β} {c : Except Error α} :
    Refuses name (Fault.lift (f <$> c)) ↔ Refuses name (Fault.lift c) := by
  cases c with
  | error e =>
    have hlift : ∀ {γ : Type}, Fault.lift (.error e : Except Error γ) = .error (.error e) := rfl
    show Refuses name (Fault.lift (.error e : Except Error β)) ↔ _
    simp only [Refuses, hlift, Except.error.injEq]
  | ok a => exact iff_of_false (not_refuses_ok (f a)) (not_refuses_ok a)

namespace PrimalDual

variable {blocks : List (DualScale ℝ)} {sigma : List ℝ} {gamma rho t : ℝ}

/-! ## The least ratio -/

theorem least?_eq_min? (rs : List ℝ) : least? rs = rs.min? := by
  cases rs with
  | nil => rfl
  | cons r rs =>
    rw [List.min?_cons']
    rfl

/-- The ratios that limit the primal step are those of the blocks above the floor. -/
theorem mem_limiting_iff {r : ℝ} : r ∈ (List.zipWith ratio blocks sigma).filter (fun r => ratioFloor < r) ↔
    (∃ p ∈ blocks.zip sigma, ratio p.1 p.2 = r) ∧ ratioFloor < r := by
  rw [List.mem_filter, decide_eq_true_iff, ← List.map_uncurry_zip_eq_zipWith, List.mem_map]
  rfl

/-- **The least ratio** is the ratio of a block above the floor, and no block above the floor has a lesser
    one. -/
theorem leastRatio?_eq_some {r : ℝ} (h : leastRatio? blocks sigma = some r) :
    (∃ p ∈ blocks.zip sigma, ratio p.1 p.2 = r ∧ ratioFloor < r) ∧
      ∀ p ∈ blocks.zip sigma, ratioFloor < ratio p.1 p.2 → r ≤ ratio p.1 p.2 := by
  rw [leastRatio?, least?_eq_min?] at h
  obtain ⟨hmem, hle⟩ := List.min?_eq_some_iff.mp h
  obtain ⟨⟨p, hp, hr⟩, hfloor⟩ := mem_limiting_iff.mp hmem
  refine ⟨⟨p, hp, hr, hfloor⟩, ?_⟩
  intro q hq hq'
  exact hle _ (mem_limiting_iff.mpr ⟨⟨q, hq, rfl⟩, hq'⟩)

/-- There is no least ratio where no block is above the floor. -/
theorem leastRatio?_eq_none_iff :
    leastRatio? blocks sigma = none ↔ ∀ p ∈ blocks.zip sigma, ratio p.1 p.2 ≤ ratioFloor := by
  rw [leastRatio?, least?_eq_min?, List.min?_eq_none_iff, List.eq_nil_iff_forall_not_mem]
  constructor
  · intro h p hp
    by_contra hlt
    exact h _ (mem_limiting_iff.mpr ⟨⟨p, hp, rfl⟩, not_le.mp hlt⟩)
  · intro h r hr
    obtain ⟨⟨p, hp, rfl⟩, hfloor⟩ := mem_limiting_iff.mp hr
    exact absurd hfloor (not_lt.mpr (h p hp))

theorem ratio_eq (b : DualScale ℝ) (s : ℝ) : ratio b s = b.weight / (s * b.norm ^ 2) := by
  rw [ratio, pow_two, ← mul_assoc]

/-- A ratio times what it is divided by. -/
theorem mul_ratio {b : DualScale ℝ} {s : ℝ} (hs : 0 < s) (hn : 0 < b.norm) :
    s * b.norm ^ 2 * ratio b s = b.weight := by
  rw [ratio]
  field_simp

/-! ## A derived primal step -/

theorem primalStep_eq_ok_iff {S : Type} [Scalar S] {blocks : List (DualScale S)} {sigma : List S}
    {gamma rho t : S} : primalStep gamma rho blocks sigma = .ok t ↔
    ∃ r, leastRatio? blocks sigma = some r ∧ t = rho / gamma * r := by
  unfold primalStep
  cases leastRatio? blocks sigma with
  | none => simp
  | some r => simp [eq_comm]

/-- **The bound behind a derived primal step.** For every block above the floor `σ τ n²` is at most `ρ / γ` of
    the probability, and for one of them it is as much. -/
theorem bound_of_primalStep (hgamma : 0 < gamma) (hrho : 0 < rho)
    (hpos : ∀ p ∈ blocks.zip sigma, 0 < p.1.norm ∧ 0 < p.2)
    (h : primalStep gamma rho blocks sigma = .ok t) :
    0 < t ∧
      (∀ p ∈ blocks.zip sigma, ratioFloor < ratio p.1 p.2 →
        p.2 * t * p.1.norm ^ 2 ≤ rho / gamma * p.1.weight) ∧
      ∃ p ∈ blocks.zip sigma, ratioFloor < ratio p.1 p.2 ∧
        p.2 * t * p.1.norm ^ 2 = rho / gamma * p.1.weight := by
  obtain ⟨r, hr, rfl⟩ := primalStep_eq_ok_iff.mp h
  obtain ⟨⟨q, hq, hqr, hfloor⟩, hle⟩ := leastRatio?_eq_some hr
  have hfactor : 0 < rho / gamma := div_pos hrho hgamma
  have hfloorPos : (0 : ℝ) < ratioFloor := by
    show (0 : ℝ) < 1e-8
    norm_num
  refine ⟨mul_pos hfactor (hfloorPos.trans hfloor), ?_, q, hq, ?_, ?_⟩
  · intro p hp hp'
    obtain ⟨hn, hs⟩ := hpos p hp
    have hbelow : p.2 * p.1.norm ^ 2 * r ≤ p.1.weight := by
      calc p.2 * p.1.norm ^ 2 * r ≤ p.2 * p.1.norm ^ 2 * ratio p.1 p.2 :=
            mul_le_mul_of_nonneg_left (hle p hp hp') (by positivity)
        _ = p.1.weight := mul_ratio hs hn
    calc p.2 * (rho / gamma * r) * p.1.norm ^ 2 = rho / gamma * (p.2 * p.1.norm ^ 2 * r) := by ring
      _ ≤ rho / gamma * p.1.weight := mul_le_mul_of_nonneg_left hbelow hfactor.le
  · rwa [hqr]
  · obtain ⟨hn, hs⟩ := hpos q hq
    calc q.2 * (rho / gamma * r) * q.1.norm ^ 2 = rho / gamma * (q.2 * q.1.norm ^ 2 * r) := by ring
      _ = rho / gamma * q.1.weight := by rw [← hqr, mul_ratio hs hn]

/-! ## What is derived, and from what -/

theorem requirePositive_eq_ok_iff {S : Type} [Scalar S] {which : PrimalDualStep} {v : S} :
    requirePositive which v = .ok () ↔ 0 < v := by
  unfold requirePositive
  by_cases hv : 0 < v
  · simp [hv]
  · simp [hv]

theorem requireAllPositive_eq_ok_iff {S : Type} [Scalar S] {s : List S} :
    requireAllPositive s = .ok () ↔ ∀ v ∈ s, 0 < v := by
  induction s with
  | nil => simp [requireAllPositive]
  | cons v s ih =>
    have hv : 0 < v ↔ requirePositive .sigma v = .ok () := requirePositive_eq_ok_iff.symm
    rw [List.forall_mem_cons, ← ih, hv, requireAllPositive]
    cases requirePositive .sigma v with
    | error e => simp
    | ok _ => simp

/-- The dual steps where the primal one is missing: valid ones that are given, or else balanced ones. -/
theorem dualSteps_none_eq_ok_iff {given : Option (List ℝ)} {s : List ℝ} :
    dualSteps blocks given none = .ok s ↔
      (∀ g ∈ given, g.length = blocks.length ∧ ∀ v ∈ g, 0 < v) ∧
        s = given.getD (balancedDualSteps tradeOff margin blocks) := by
  cases given with
  | none => simp [dualSteps, eq_comm]
  | some g =>
    by_cases hlen : g.length = blocks.length
    · cases hpos : requireAllPositive g with
      | error e =>
        have hnot : ¬ ∀ v ∈ g, 0 < v := fun h => by
          rw [requireAllPositive_eq_ok_iff.mpr h] at hpos
          cases hpos
        simp [dualSteps, hlen, hpos, hnot]
      | ok _ =>
        have hall := requireAllPositive_eq_ok_iff.mp hpos
        simp only [dualSteps, hlen, ne_eq, not_true_eq_false, if_false, hpos, Except.ok.injEq,
          Option.mem_some_iff, forall_eq', true_and, Option.getD_some]
        exact ⟨fun h => ⟨hall, h.symm⟩, fun h => h.2.symm⟩
    · simp [dualSteps, hlen]

/-- **What the steps are** if one side or both are missing: with a primal step that is given, the dual ones
    are those that match it; otherwise the primal step is derived from the dual ones. -/
theorem resolveSteps_cases {given : Option (List ℝ)} {tau : Option ℝ} {steps : List ℝ × ℝ}
    (hmissing : given = none ∨ tau = none) (h : resolveSteps blocks given tau = .ok steps) :
    (given = none ∧ tau = some steps.2 ∧ 0 < steps.2 ∧
        steps.1 = matchingDualSteps tradeOff margin blocks steps.2) ∨
      tau = none ∧ dualSteps blocks given none = .ok steps.1 ∧
        primalStep tradeOff margin blocks steps.1 = .ok steps.2 := by
  unfold resolveSteps at h
  cases tau with
  | some t =>
    obtain ⟨⟨⟩, hpos, h⟩ := Except.bind_eq_ok_iff.mp h
    obtain ⟨s, hs, h⟩ := Except.bind_eq_ok_iff.mp h
    cases h
    obtain rfl : given = none := hmissing.resolve_right nofun
    cases hs
    exact Or.inl ⟨rfl, rfl, requirePositive_eq_ok_iff.mp hpos, rfl⟩
  | none =>
    obtain ⟨⟨⟩, -, h⟩ := Except.bind_eq_ok_iff.mp h
    obtain ⟨s, hs, h⟩ := Except.bind_eq_ok_iff.mp h
    obtain ⟨t, ht, h⟩ := Except.bind_eq_ok_iff.mp h
    cases h
    exact Or.inr ⟨rfl, hs, ht⟩

/-- Where the primal step is missing and what is given of the dual ones is valid, only the least ratio can be
    lacking. -/
theorem resolveSteps_of_valid {given : Option (List ℝ)}
    (hgiven : ∀ g ∈ given, g.length = blocks.length ∧ ∀ v ∈ g, 0 < v) :
    resolveSteps blocks given none =
      (primalStep tradeOff margin blocks (given.getD (balancedDualSteps tradeOff margin blocks))).map fun t =>
        (given.getD (balancedDualSteps tradeOff margin blocks), t) := by
  have hdual := dualSteps_none_eq_ok_iff.mpr ⟨hgiven, rfl⟩
  unfold resolveSteps
  rw [hdual]
  simp only [bind, Except.bind]
  cases primalStep tradeOff margin blocks (given.getD (balancedDualSteps tradeOff margin blocks)) with
  | error e => rfl
  | ok t => rfl

/-- The dual steps from which a primal one is derived are positive. -/
theorem pos_of_dualSteps {given : Option (List ℝ)} {s : List ℝ} (hn : ∀ b ∈ blocks, 0 < b.norm)
    (h : dualSteps blocks given none = .ok s) : ∀ v ∈ s, 0 < v := by
  obtain ⟨hgiven, rfl⟩ := dualSteps_none_eq_ok_iff.mp h
  cases given with
  | some g => exact (hgiven g rfl).2
  | none =>
    intro v hv
    obtain ⟨b, hb, rfl⟩ := List.mem_map.mp hv
    have hmargin : (0 : ℝ) < tradeOff * margin := by
      show (0 : ℝ) < 1 * 0.99
      norm_num
    exact div_pos hmargin (hn b hb)

/-- No block is above the floor: no ratio `p / (σ n²)` exceeds it, the dual steps being the given ones, or
    else the balanced ones. -/
def NoBlockAboveFloor (blocks : List (DualScale ℝ)) (given : Option (List ℝ)) : Prop :=
  ∀ p ∈ blocks.zip (given.getD (blocks.map fun c => 0.99 / c.norm)),
    p.1.weight / (p.2 * p.1.norm ^ 2) ≤ 1e-8

/-- **The primal step cannot be derived exactly when no block is above the floor.** -/
theorem refuses_resolveSteps_iff {given : Option (List ℝ)}
    (hgiven : ∀ g ∈ given, g.length = blocks.length ∧ ∀ v ∈ g, 0 < v) :
    Refuses "tau" (Fault.lift (resolveSteps blocks given none)) ↔ NoBlockAboveFloor blocks given := by
  have hbalanced : balancedDualSteps tradeOff margin blocks = blocks.map fun c => 0.99 / c.norm := by
    refine List.map_congr_left fun c _ => ?_
    show 1 * 0.99 / c.norm = 0.99 / c.norm
    rw [one_mul]
  have hnone : leastRatio? blocks (given.getD (blocks.map fun c => 0.99 / c.norm)) = none ↔
      NoBlockAboveFloor blocks given := by
    rw [leastRatio?_eq_none_iff, NoBlockAboveFloor]
    simp only [ratio_eq]
    rfl
  rw [resolveSteps_of_valid hgiven, hbalanced]
  refine Iff.trans ?_ hnone
  unfold primalStep
  cases leastRatio? blocks (given.getD (blocks.map fun c => 0.99 / c.norm)) with
  | none => exact iff_of_true ⟨.noPrimalStep, rfl, rfl⟩ rfl
  | some r => exact iff_of_false (not_refuses_ok _) nofun

theorem stepsFromRatio_eq_ok {S : Type} [Scalar S] {blocks : List (DualScale S)} {gamma rho : S}
    {steps : List S × S} (h : stepsFromRatio blocks gamma rho = .ok steps) :
    0 < gamma ∧ 0 < rho ∧ steps.1 = balancedDualSteps gamma rho blocks ∧
      primalStep gamma rho blocks steps.1 = .ok steps.2 := by
  unfold stepsFromRatio at h
  obtain ⟨⟨⟩, hgamma, h⟩ := Except.bind_eq_ok_iff.mp h
  obtain ⟨⟨⟩, hrho, h⟩ := Except.bind_eq_ok_iff.mp h
  obtain ⟨t, ht, h⟩ := Except.bind_eq_ok_iff.mp h
  cases h
  exact ⟨requirePositive_eq_ok_iff.mp hgamma, requirePositive_eq_ok_iff.mp hrho, rfl, ht⟩

/-- The steps of a single block with the probability 1 and the norm 1, if its ratio is above the floor. -/
theorem stepsFromRatio_of_unit {S : Type} [Scalar S] {gamma rho : S} (hgamma : 0 < gamma) (hrho : 0 < rho)
    (hfloor : ratioFloor < ratio ⟨1, 1⟩ (gamma * rho / 1)) : stepsFromRatio [⟨1, 1⟩] gamma rho =
      .ok ([gamma * rho / 1], rho / gamma * ratio ⟨1, 1⟩ (gamma * rho / 1)) := by
  have hleast : leastRatio? [⟨1, 1⟩] [gamma * rho / 1] = some (ratio ⟨1, 1⟩ (gamma * rho / 1)) := by
    rw [leastRatio?, List.zipWith_cons_cons, List.zipWith_nil_left,
      List.filter_cons_of_pos (by simpa using hfloor)]
    rfl
  simp only [stepsFromRatio, requirePositive, if_pos hgamma, if_pos hrho, balancedDualSteps, List.map_cons,
    List.map_nil, primalStep, bind, Except.bind, hleast]

end PrimalDual

end Splitting
