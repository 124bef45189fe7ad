import Splitting.Functional.SquaredDistance
import Splitting.Operator.Matrix
import Splitting.Proofs.Exact.Reals
import Splitting.Proofs.ForwardBackward.FailedSteps

/-!
# `Splitting.Proofs.ForwardBackward.UnseenCoordinates` — what the operator does not see stays where it is

The scaling by the inverse column sums of an operator gives the weight zero to every coordinate whose column sum is
not positive. Without a proximable term the methods then never move such a coordinate: a forward step adds nothing to
it, and the extrapolation of the accelerated method adds a multiple of the difference of two iterates, which is zero
there. The rule for the step may answer what it likes.

* `Still` — vectors that agree where no positive column sum stands;
* `Stepping.scaled_of_step`, `Stepping.unmoved_of_error` — what a scaled step computes, and what a failed one leaves;
* `Ista.Unmoved.of_used`, `Fista.Unmoved.of_used` — the invariant of each method: all its points are still;
* `ScaledStep` — a step along the gradient over the column sums;
* `unseen_coordinates_stay` — the main statement.
-/

namespace Splitting

variable {ρ : Type}

/-! ## Coordinates that are not seen -/

/-- The vector `x` agrees with `x₀` in every coordinate whose column sum is not positive. -/
structure Still (sums x₀ x : Vec ℝ) : Prop where
  length : x.length = x₀.length
  entry : ∀ {j : ℕ} {s : ℝ}, sums[j]? = some s → s ≤ 0 → x[j]? = x₀[j]?

namespace Still

variable {sums x₀ x y z g : Vec ℝ}

theorem refl (sums x₀ : Vec ℝ) : Still sums x₀ x₀ := ⟨rfl, fun _ _ => rfl⟩

/-- A combination of two still vectors that leaves a coordinate alone where they agree. -/
theorem zip {f : ℝ → ℝ → ℝ} (hx : Still sums x₀ x) (hy : Still sums x₀ y) (hf : ∀ a, f a a = a) :
    Still sums x₀ (List.zipWith f x y) := by
  refine ⟨Vec.length_zipWith_of_length hx.length hy.length, fun {j s} hs hpos => ?_⟩
  rw [List.getElem?_zipWith, hx.entry hs hpos, hy.entry hs hpos]
  cases x₀[j]? with
  | none => rfl
  | some a => exact congrArg some (hf a)

/-- A step along a direction that is zero in the coordinates that are not seen. -/
theorem step (hx : Still sums x₀ x) (hlength : x.length = g.length) (a : ℝ)
    (hg : ∀ {j : ℕ} {s : ℝ}, sums[j]? = some s → s ≤ 0 → g[j]? = some 0) :
    Still sums x₀ (List.zipWith (fun x g => x + -a * g) x g) := by
  refine ⟨(Vec.length_zipWith_of_length rfl hlength.symm).trans hx.length, fun {j s} hs hpos => ?_⟩
  rw [List.getElem?_zipWith, hg hs hpos, ← hx.entry hs hpos]
  cases x[j]? with
  | none => rfl
  | some b => simp

end Still

namespace Sensitivity

variable {p : Sensitivity ℝ} {sums raw : Vec ℝ} {op : LinearOperator ℝ}

/-- The weights that belong to column sums. -/
theorem weights_of_of? (hsums : op.adjointInto (List.replicate op.rangeDim 1) (Vec.zeros op.domainDim) = some sums)
    (hp : Sensitivity.of? op = some p) : p.weights = sums.map weightOf := by
  simp only [of?, hsums, Option.bind_eq_bind, Option.bind_some, Option.pure_def, Option.some.injEq] at hp
  rw [← hp]

/-- The scaled gradient: each entry over its column sum, and zero where that is not positive. -/
theorem entry_of_weights (hweights : p.weights = sums.map weightOf) {j : ℕ} {s r : ℝ} (hs : sums[j]? = some s)
    (hr : raw[j]? = some r) :
    (List.zipWith (· * ·) raw p.weights)[j]? = some (if 0 < s then r / s else 0) := by
  rw [List.getElem?_zipWith, hr, hweights, List.getElem?_map, hs]
  simp only [Option.map_some, weightOf]
  split
  · rw [mul_one_div]
  · rw [mul_zero]

/-- The scaling keeps the preconditioner and multiplies entry by entry. -/
theorem preconditioned?_eq_some_iff {k : ℕ} {x g : Vec ℝ} {q : Option (Sensitivity ℝ)} :
    preconditioned? k x raw (some p) = some (q, g) ↔
      q = some p ∧ raw.length = p.weights.length ∧ g = List.zipWith (· * ·) raw p.weights := by
  constructor
  · intro h
    obtain ⟨⟨⟨⟩, p', v⟩, hv, h⟩ := Option.map_eq_some_iff.mp h
    cases h
    have happlied := (Outcome.guard_eq_ok_iff.mp (Outcome.success?_eq_some_iff.mp hv)).1
    obtain ⟨w, hw, hpair⟩ := Outcome.mapState_eq_ok_iff.mp happlied
    cases hpair
    obtain ⟨hlength, rfl⟩ := Vec.zip?_eq_some_iff.mp (Outcome.put_eq_ok_iff.mp hw)
    exact ⟨rfl, hlength, rfl⟩
  · rintro ⟨rfl, hlength, rfl⟩
    have happlied : Preconditioner.apply p ⟨k, x⟩ raw = .ok () (p, List.zipWith (· * ·) raw p.weights) :=
      Outcome.mapState_eq_ok_iff.mpr ⟨_, Outcome.put_eq_ok_iff.mpr (Vec.zip?_eq_some_iff.mpr ⟨hlength, rfl⟩), rfl⟩
    have hsame : (List.zipWith (· * ·) raw p.weights).length = raw.length :=
      Vec.length_zipWith_of_length rfl hlength.symm
    exact Option.map_eq_some_iff.mpr ⟨_, Outcome.success?_eq_some_iff.mpr
      (Outcome.guard_eq_ok_iff.mpr ⟨happlied, decide_eq_true hsame⟩), rfl⟩

end Sensitivity

/-! ## Steps -/

/-- Without a proximable term, and with the gradient scaled by `p`. -/
structure Terms.ScaledBy (p : Sensitivity ℝ) (t : Terms ℝ ρ (Sensitivity ℝ)) : Prop where
  proximable : t.proximable = none
  preconditioner : t.preconditioner = some p

namespace Stepping

variable [StepRule ρ ℝ] {s s' : Stepping ℝ ρ (Sensitivity ℝ)} {p : Sensitivity ℝ} {k : ℕ} {a : ℝ} {e : Error}

/-- **A completed step** goes along the scaled gradient, and its result is the forward point. -/
theorem scaled_of_step (hp : s.terms.ScaledBy p) (hout : s.out.length = s.point.length)
    (h : s.step k = .ok a s') : ∃ raw, gradientOrZero s.terms.smooth s.point s.gradient = .ok () raw ∧
      raw.length = p.weights.length ∧ s'.gradient = List.zipWith (· * ·) raw p.weights ∧
      s.point.length = s'.gradient.length ∧
      StepRule.query s.terms.rule ⟨k, s.terms.smooth, s.point, s'.gradient⟩ = .ok a s'.terms.rule ∧
      s'.point = List.zipWith (fun x g => x + -a * g) s.point s'.gradient ∧ s'.out = s'.point ∧
      s'.terms.ScaledBy p := by
  obtain ⟨raw, q, gradient, rule, forward, x, hraw, hq, -, hrule, hforward, hx, rfl⟩ := step_eq_ok_iff.mp h
  rw [hp.preconditioner] at hq
  obtain ⟨rfl, hlength, hgradient⟩ := Sensitivity.preconditioned?_eq_some_iff.mp hq
  obtain ⟨hpoint, hmoved⟩ := Vec.zip?_eq_some_iff.mp hforward
  -- without a proximable term the result is a copy of the forward point, which is as long as its buffer
  have hcopy : x = forward := by
    have hsame : forward.length = s.out.length := (Vec.length_of_zip? hforward).trans hout.symm
    rw [hp.proximable, proximalOrIdentity, Functional.overwrite_eq_ok_iff, Vec.spread?_eq_self hsame] at hx
    exact (Option.some.inj hx.1).symm
  exact ⟨raw, hraw, hlength, hgradient, hpoint, hrule, hmoved.symm, hcopy, hp.proximable, rfl⟩

/-- A failed step has moved nothing: without a proximable term it stops before that. -/
theorem unmoved_of_error (hp : s.terms.ScaledBy p) (h : s.step k = .error e s') :
    s'.point = s.point ∧ s'.out = s.out ∧ s'.terms.ScaledBy p := by
  obtain ⟨stage, hstop⟩ := step_eq_error_iff.mp h
  cases hstop with
  | gradient hv => exact ⟨rfl, rfl, hp⟩
  | preconditioner hraw hq hv hlen =>
    obtain ⟨w, hw, -⟩ := Outcome.mapState_eq_error_iff.mp hv
    exact absurd hw Outcome.put_ne_error
  | rule hraw hq hlen hrule =>
    rw [hp.preconditioner] at hq
    exact ⟨rfl, rfl, hp.proximable, (Sensitivity.preconditioned?_eq_some_iff.mp hq).1⟩
  | proximal hraw hq hlen hrule hforward hx =>
    rw [hp.proximable] at hx
    exact absurd hx Outcome.put_ne_error

/-- **Every step keeps its points still,** completed or failed. -/
theorem still_of_step {sums x₀ : Vec ℝ} (hp : s.terms.ScaledBy p)
    (hweights : p.weights = sums.map Sensitivity.weightOf) (hpoint : Still sums x₀ s.point)
    (hout : Still sums x₀ s.out) (h : (s.step k).state? = some s') :
    Still sums x₀ s'.point ∧ Still sums x₀ s'.out ∧ s'.terms.ScaledBy p := by
  rcases Outcome.state?_eq_some_iff.mp h with ⟨a, h⟩ | ⟨e, h⟩
  · obtain ⟨raw, -, hlength, hgradient, hsame, -, hmoved, hcopy, hp'⟩ :=
      scaled_of_step hp (hout.length.trans hpoint.length.symm) h
    have hzero : ∀ {j : ℕ} {t : ℝ}, sums[j]? = some t → t ≤ 0 → s'.gradient[j]? = some 0 := by
      intro j t ht hpos
      -- the gradient has an entry wherever there is a column sum
      have hj : j < raw.length := by
        rw [hlength, hweights, List.length_map]
        exact (List.getElem?_eq_some_iff.mp ht).1
      rw [hgradient, Sensitivity.entry_of_weights hweights ht (List.getElem?_eq_getElem hj), if_neg hpos.not_gt]
    have hstep := hpoint.step hsame a hzero
    rw [hcopy, hmoved]
    exact ⟨hstep, hstep, hp'⟩
  · obtain ⟨hsame, hkept, hp'⟩ := unmoved_of_error hp h
    rw [hsame, hkept]
    exact ⟨hpoint, hout, hp'⟩

end Stepping

/-! ## Methods -/

variable [StepRule ρ ℝ] {p : Sensitivity ℝ} {sums : Vec ℝ} {setup : Setup ℝ ρ (Sensitivity ℝ)}

namespace Ista

variable {m₀ m m' : Ista ℝ ρ (Sensitivity ℝ)}

/-- The solution and the buffer beside it are still. -/
structure Unmoved (p : Sensitivity ℝ) (sums x₀ : Vec ℝ) (m : Ista ℝ ρ (Sensitivity ℝ)) : Prop where
  terms : m.state.terms.ScaledBy p
  solution : Still sums x₀ m.state.solution
  next : Still sums x₀ m.state.next

omit [StepRule ρ ℝ] in
theorem unmoved_of_build (h : Ista.build setup = .ok m) (hg : setup.proximable = none)
    (hp : setup.preconditioner = some p) : Unmoved p sums setup.initial m := by
  obtain ⟨c, hc, rfl⟩ := Except.map_eq_ok_iff.mp h
  obtain ⟨rule, -, rfl⟩ := Setup.terms_of_build hc
  exact ⟨⟨hg, hp⟩, .refl _ _, .refl _ _⟩

/-- **Every call leaves the method unmoved.** -/
theorem Unmoved.of_used {x₀ : Vec ℝ} (h : Unmoved p sums x₀ m₀)
    (hweights : p.weights = sums.map Sensitivity.weightOf) (hm : Used unchangeable m₀ m) : Unmoved p sums x₀ m := by
  induction hm with
  | start => exact h
  | @call m m' c _ hc ih =>
    cases c with
    | update =>
      obtain ⟨s, k, hs, rfl⟩ := exists_step_of_update hc
      obtain ⟨hpoint, hout, hterms⟩ := Stepping.still_of_step ih.terms hweights ih.solution ih.next hs
      exact ⟨hterms, hpoint, hout⟩
    | exchange =>
      cases hc
      exact ⟨ih.terms, ih.next, ih.solution⟩
    | recordObjective =>
      obtain ⟨losses, rfl⟩ := Ista.recordObjective_eq hc
      exact ⟨ih.terms, ih.solution, ih.next⟩
    | change c => exact nomatch c

end Ista

namespace Fista

variable {m₀ m m' : Fista ℝ ρ (Sensitivity ℝ)}

/-- The solution, the buffer beside it and the point ahead are still. -/
structure Unmoved (p : Sensitivity ℝ) (sums x₀ : Vec ℝ) (m : Fista ℝ ρ (Sensitivity ℝ)) : Prop where
  terms : m.state.terms.ScaledBy p
  solution : Still sums x₀ m.state.solution
  next : Still sums x₀ m.state.next
  ahead : Still sums x₀ m.ahead

omit [StepRule ρ ℝ] in
theorem unmoved_of_build (h : Fista.build setup = .ok m) (hg : setup.proximable = none)
    (hp : setup.preconditioner = some p) : Unmoved p sums setup.initial m := by
  obtain ⟨c, hc, h⟩ := Except.bind_eq_ok_iff.mp h
  obtain ⟨rule, -, rfl⟩ := Setup.terms_of_build hc
  cases h
  exact ⟨⟨hg, hp⟩, .refl _ _, .refl _ _, .refl _ _⟩

omit [StepRule ρ ℝ] in
/-- The extrapolation adds a multiple of a difference that is zero. -/
theorem still_of_extrapolate {x₀ : Vec ℝ} (hsolution : Still sums x₀ m.state.solution)
    (hnext : Still sums x₀ m.state.next) (h : m.extrapolate = .ok () m') : Still sums x₀ m'.ahead := by
  obtain ⟨y, hy, -, rfl⟩ := extrapolate_eq_ok_iff.mp h
  obtain ⟨-, rfl⟩ := Vec.zip?_eq_some_iff.mp hy
  refine hnext.zip hsolution fun a => ?_
  rw [sub_self, mul_zero, add_zero]

/-- **Every update leaves the method unmoved,** completed or failed. -/
theorem Unmoved.update {x₀ : Vec ℝ} (h : Unmoved p sums x₀ m)
    (hweights : p.weights = sums.map Sensitivity.weightOf) (hm : m.update.state? = some m') :
    Unmoved p sums x₀ m' := by
  rcases Outcome.state?_bind_eq_some_iff.mp hm with ⟨e, hstep⟩ | ⟨a, m₁, hstep, hm⟩
  · obtain ⟨s, hs, rfl⟩ := Outcome.mapState_eq_error_iff.mp hstep
    obtain ⟨hpoint, hout, hterms⟩ :=
      Stepping.still_of_step h.terms hweights h.ahead h.next (congrArg Outcome.state? hs)
    exact ⟨hterms, h.solution, hout, hpoint⟩
  · obtain ⟨s, hs, rfl⟩ := Outcome.mapState_eq_ok_iff.mp hstep
    obtain ⟨-, hout, hterms⟩ := Stepping.still_of_step h.terms hweights h.ahead h.next (congrArg Outcome.state? hs)
    rcases Outcome.state?_eq_some_iff.mp hm with ⟨⟨⟩, hextra⟩ | ⟨e, hextra⟩
    · have hahead := still_of_extrapolate (m := m.after s) h.solution hout hextra
      obtain ⟨y, -, -, rfl⟩ := extrapolate_eq_ok_iff.mp hextra
      exact ⟨hterms, h.solution, hout, hahead⟩
    · exact absurd hextra Outcome.put_ne_error

/-- **Every call leaves the method unmoved.** -/
theorem Unmoved.of_used {x₀ : Vec ℝ} (h : Unmoved p sums x₀ m₀)
    (hweights : p.weights = sums.map Sensitivity.weightOf) (hm : Used unchangeable m₀ m) : Unmoved p sums x₀ m := by
  induction hm with
  | start => exact h
  | @call m m' c _ hc ih =>
    cases c with
    | update => exact ih.update hweights hc
    | exchange =>
      cases hc
      exact ⟨ih.terms, ih.next, ih.solution, ih.ahead⟩
    | recordObjective =>
      obtain ⟨losses, rfl⟩ := Fista.recordObjective_eq hc
      exact ⟨ih.terms, ih.solution, ih.next, ih.ahead⟩
    | change c => exact nomatch c

end Fista

/-! ## The main statement -/

/-- What holds at a method and along every run from it: the solution is still, and so is everything that is shown. -/
structure StaysStill {M : Type} [Iterative M ℝ] (sums x₀ : Vec ℝ) (m : M) : Prop where
  solution : Still sums x₀ (Iterative.solution m)
  run : ∀ {κ : Type} (budget interval : ℕ) (watcher : Watcher κ ℝ) (memory : κ) (r : Run M κ ℝ),
    (Splitting.run m budget interval watcher memory).state? = some r →
      Still sums x₀ (Iterative.solution r.method) ∧ ∀ q ∈ r.shown, Still sums x₀ q.1

/-- It is enough that the solution of every method that calls lead to is still. -/
theorem staysStill_of_used {M : Type} [Iterative M ℝ] {x₀ : Vec ℝ} {m₀ m : M} (hcounts : CountsIterations M)
    (hrecords : ∀ {m m' : M} {e : Error}, Iterative.recordObjective m ≠ .error e m')
    (hstill : ∀ m, Used unchangeable m₀ m → Still sums x₀ (Iterative.solution m)) (hm : Used unchangeable m₀ m) :
    StaysStill sums x₀ m where
  solution := hstill m hm
  run budget interval watcher memory r hr := by
    refine ⟨hstill _ (hm.run hr), fun q hq => ?_⟩
    obtain ⟨m', hm', hsolution⟩ := hm.shown hcounts hrecords hr q hq
    rw [hsolution]
    exact hstill m' hm'

/-- **A step along the gradient over the column sums,** from `point` to `next`: the rule is asked with the direction
    whose entries are those of the gradient over the positive column sums, and zero elsewhere, and it answers `a`. The
    gradient is taken in a buffer; what that held before does not matter if the smooth term overwrites it. -/
structure ScaledStep (sums : Vec ℝ) (f : Option (Functional ℝ)) (rule : StepChoice ℝ ρ) (k : ℕ)
    (point buffer direction next raw : Vec ℝ) (a : ℝ) : Prop where
  gradient : gradientOrZero f point buffer = .ok () raw
  fresh : (∀ f' ∈ f, ∀ x, Fills (f'.gradient x)) → gradientOf? f point = some raw
  lengths : raw.length = sums.length ∧ direction.length = sums.length ∧ point.length = sums.length
  entry : ∀ {j : ℕ} {s r : ℝ}, sums[j]? = some s → raw[j]? = some r →
    direction[j]? = some (if 0 < s then r / s else 0)
  asked : ∃ rule', StepRule.query rule ⟨k, f, point, direction⟩ = .ok a rule'
  moved : next = List.zipWith (fun x d => x + -a * d) point direction

/-- A completed step of either method is such a step. -/
theorem Stepping.scaledStep {s s' : Stepping ℝ ρ (Sensitivity ℝ)} {k : ℕ} {a : ℝ} (hp : s.terms.ScaledBy p)
    (hweights : p.weights = sums.map Sensitivity.weightOf) (hout : s.out.length = s.point.length)
    (hgradient : s.gradient.length = s.point.length) (h : s.step k = .ok a s') :
    ∃ raw, ScaledStep sums s.terms.smooth s.terms.rule k s.point s.gradient s'.gradient s'.out raw a := by
  obtain ⟨raw, hraw, hlength, hdirection, hsame, hrule, hmoved, hcopy, -⟩ := scaled_of_step hp hout h
  have hsums : raw.length = sums.length := by rw [hlength, hweights, List.length_map]
  have hdirectionLength : s'.gradient.length = sums.length := by
    rw [hdirection, Vec.length_zipWith_of_length hsums (hlength.symm.trans hsums)]
  refine ⟨raw, hraw, fun hf => (gradientOf?_eq_some_iff hf hgradient).mpr hraw,
    ⟨hsums, hdirectionLength, hsame.trans hdirectionLength⟩, ?_, ⟨_, hrule⟩, hcopy.trans hmoved⟩
  intro j t r ht hr
  rw [hdirection]
  exact Sensitivity.entry_of_weights hweights ht hr

/-- **Coordinates that the operator does not see never move.** Let the gradient be scaled by the inverse column sums
    of an operator, and let there be no proximable term. After any calls, and along every run after them, the solution
    agrees with the starting point in every coordinate whose column sum is not positive. Every completed update of the
    plain method goes from the solution, and every one of the accelerated method from the point ahead, along the
    gradient over the column sums where these are positive. -/
theorem unseen_coordinates_stay {op : LinearOperator ℝ}
    (hsums : op.adjointInto (List.replicate op.rangeDim 1) (Vec.zeros op.domainDim) = some sums)
    (hop : Sensitivity.of? op = some p) (hg : setup.proximable = none) (hp : setup.preconditioner = some p) :
    (∀ {m₀ m : Ista ℝ ρ (Sensitivity ℝ)}, Ista.build setup = .ok m₀ → Used unchangeable m₀ m →
      StaysStill sums setup.initial m ∧
      ∀ m', m.update = .ok () m' → ∃ raw a, ScaledStep sums setup.smooth m.state.terms.rule m.state.iteration
        m.state.solution m.state.gradient m'.state.gradient m'.state.next raw a) ∧
    ∀ {m₀ m : Fista ℝ ρ (Sensitivity ℝ)}, Fista.build setup = .ok m₀ → Used unchangeable m₀ m →
      StaysStill sums setup.initial m ∧
      ∀ m', m.update = .ok () m' → ∃ raw a, ScaledStep sums setup.smooth m.state.terms.rule m.state.iteration
        m.ahead m.state.gradient m'.state.gradient m'.state.next raw a := by
  have hweights := Sensitivity.weights_of_of? hsums hop
  constructor
  · intro m₀ m hbuild hm
    have hstart : Ista.Unmoved p sums setup.initial m₀ := Ista.unmoved_of_build hbuild hg hp
    refine ⟨staysStill_of_used Ista.countsIterations Ista.record_ne_error
      (fun m hm => (hstart.of_used hweights hm).solution) hm, fun m' hu => ?_⟩
    have hnow := hstart.of_used hweights hm
    have hfits := (Ista.fits_of_build hbuild).of_used hm
    obtain ⟨a, s, hs, rfl⟩ := Ista.update_eq_ok_iff.mp hu
    obtain ⟨raw, hscaled⟩ := Stepping.scaledStep hnow.terms hweights (hfits.next.trans hfits.solution.symm)
      (hfits.gradient.trans hfits.solution.symm) hs
    exact ⟨raw, a, hfits.terms.smooth ▸ hscaled⟩
  · intro m₀ m hbuild hm
    have hstart : Fista.Unmoved p sums setup.initial m₀ := Fista.unmoved_of_build hbuild hg hp
    refine ⟨staysStill_of_used Fista.countsIterations Fista.record_ne_error
      (fun m hm => (hstart.of_used hweights hm).solution) hm, fun m' hu => ?_⟩
    have hnow := hstart.of_used hweights hm
    have hfits := (Fista.fits_of_build hbuild).of_used hm
    obtain ⟨a, s, y, hs, -, -, rfl⟩ := Fista.update_eq_ok hu
    obtain ⟨raw, hscaled⟩ := Stepping.scaledStep hnow.terms hweights (hnow.next.length.trans hnow.ahead.length.symm)
      (hfits.gradient.trans hfits.ahead.symm) hs
    exact ⟨raw, a, hfits.terms.smooth ▸ hscaled⟩

/-- An operator that looks at the first of two coordinates. -/
noncomputable def halfBlind (s : ℝ) : LinearOperator ℝ := .matrix ⟨2, [[s, 0]], by simp⟩

/-- The square in two coordinates, of whose gradient the second entry is dropped. -/
noncomputable def halfBlindSetup (start : Vec ℝ) (weight : ℝ) : Setup ℝ (ConstantStep ℝ) (Sensitivity ℝ) where
  initial := start
  smooth := some SquaredDistance.unit.functional
  proximable := none
  stepSize := some 1
  rule := none
  preconditioner := some ⟨[weight, 0]⟩

theorem adjointInto_halfBlind (s : ℝ) : (halfBlind s).adjointInto (List.replicate (halfBlind s).rangeDim 1)
    (Vec.zeros (halfBlind s).domainDim) = some [s, 0] := by
  have hcolumns : (List.range 2).mapM
      (fun j => (⟨2, [[s, 0]], by simp⟩ : Matrix ℝ).columnDot? j [1]) = some [s, 0] := by
    simp [List.range_succ, Matrix.columnDot?, Matrix.column, Vec.stridedDot?, Vec.zip?, Vec.sum]
  simp [halfBlind, LinearOperator.matrix, LinearOperator.adjointInto, Matrix.transposeMulVec?, hcolumns, Vec.write?]

theorem sensitivity_halfBlind {s : ℝ} (hs : 0 < s) : Sensitivity.of? (halfBlind s) = some ⟨[1 / s, 0]⟩ := by
  simp [Sensitivity.of?, adjointInto_halfBlind, Sensitivity.weightOf, hs]

/-- The terms of the methods that are built on it. -/
noncomputable def halfBlindTerms (weight : ℝ) : Terms ℝ (ConstantStep ℝ) (Sensitivity ℝ) :=
  ⟨some SquaredDistance.unit.functional, none, .fixed ⟨1⟩, some ⟨[weight, 0]⟩⟩

/-- A step from any point whose second coordinate is five goes to the minimum in the first coordinate. -/
theorem step_halfBlindTerms (k : ℕ) (v : ℝ) {gradient next : Vec ℝ} (hgradient : gradient.length = 2)
    (hnext : next.length = 2) : Stepping.step k ⟨halfBlindTerms (1 / 2), [v, 5], gradient, next⟩ =
      .ok 1 ⟨halfBlindTerms (1 / 2), [0, 5], [v, 0], [0, 5]⟩ := by
  have hraw : gradientOrZero (halfBlindTerms (1 / 2)).smooth [v, 5] gradient = .ok () [2 * v, 2 * 5] := by
    refine Functional.sameLength_eq_ok_iff.mpr ⟨Functional.overwrite_eq_ok_iff.mpr ⟨?_, hgradient.symm⟩, hgradient.symm⟩
    simp [SquaredDistance.gradient?, SquaredDistance.entries, SquaredDistance.unit, one_add_one_eq_two]
  have hscaled : preconditioned? k [v, 5] [2 * v, 2 * 5] (halfBlindTerms (1 / 2)).preconditioner =
      some ((halfBlindTerms (1 / 2)).preconditioner, [v, 0]) := by
    have hhalf : v = 2 * v * (1 / 2) := by ring
    have hproducts : [v, 0] = List.zipWith (· * ·) [2 * v, 2 * 5] [1 / 2, 0] :=
      congrArg₂ (fun a b => [a, b]) hhalf (mul_zero (2 * 5)).symm
    exact Sensitivity.preconditioned?_eq_some_iff.mpr ⟨rfl, rfl, hproducts⟩
  have hforward : Vec.zip? (fun x g : ℝ => x + -1 * g) [v, 5] [v, 0] = some [0, 5] := by
    simp [Vec.zip?]
  have hcopy : proximalOrIdentity (halfBlindTerms (1 / 2)).proximable [0, 5] 1 next = .ok () [0, 5] :=
    Functional.overwrite_eq_ok_iff.mpr ⟨Vec.spread?_eq_self hnext.symm, hnext.symm⟩
  exact Stepping.step_eq_ok_iff.mpr ⟨_, _, _, _, _, _, hraw, hscaled, rfl, rfl, hforward, hcopy, rfl⟩

/-- The accelerated method that is built on it, before its first iteration. -/
noncomputable def halfBlindMethod (start : Vec ℝ) (weight : ℝ) : Fista ℝ (ConstantStep ℝ) (Sensitivity ℝ) where
  state := ⟨halfBlindTerms weight, start, start, start, #[], 0⟩
  ahead := start
  momentum := 1

theorem build_halfBlindSetup (start : Vec ℝ) (weight : ℝ) :
    Fista.build (halfBlindSetup start weight) = .ok (halfBlindMethod start weight) := by
  simp [Fista.build, Setup.build, Setup.choice, halfBlindSetup, halfBlindMethod, halfBlindTerms, ConstantStep.of,
    Scalar.isFinite, bind, Except.bind, pure, Except.pure]

/-- After `k` iterations the method is at the minimum in the first coordinate, unless `k` is zero, and at five in the
    second. -/
structure HalfBlindAt (k : ℕ) (m : Fista ℝ (ConstantStep ℝ) (Sensitivity ℝ)) : Prop where
  terms : m.state.terms = halfBlindTerms (1 / 2)
  iteration : m.state.iteration = k
  solution : ∃ u, m.state.solution = [u, 5] ∧ (1 ≤ k → u = 0)
  ahead : ∃ v, m.ahead = [v, 5]
  gradient : m.state.gradient.length = 2
  next : m.state.next.length = 2

/-- **Nothing fails along a run,** wherever the momentum leads. -/
theorem productive_halfBlindAt : Productive HalfBlindAt where
  iteration h := h.iteration
  update {k m} h := by
    obtain ⟨u, hu, -⟩ := h.solution
    obtain ⟨v, hv⟩ := h.ahead
    have hstep : Stepping.step m.state.iteration ⟨m.state.terms, m.ahead, m.state.gradient, m.state.next⟩ =
        .ok 1 ⟨halfBlindTerms (1 / 2), [0, 5], [v, 0], [0, 5]⟩ := by
      rw [h.terms, hv]
      exact step_halfBlindTerms _ v h.gradient h.next
    have hextra : ∀ w : ℝ, Vec.zip? (fun x old => x + w * (x - old)) [0, 5] m.state.solution =
        some [w * -u, 5] := by
      intro w
      rw [hu]
      simp [Vec.zip?]
    have hbuffer : m.state.solution.length = 2 := hu ▸ rfl
    refine ⟨_, Outcome.bind_eq_ok_iff.mpr ⟨1, _, Outcome.mapState_eq_ok_iff.mpr ⟨_, hstep, rfl⟩,
      Fista.extrapolate_eq_ok_iff.mpr ⟨_, hextra _, rfl, rfl⟩⟩, ?_⟩
    exact ⟨rfl, congrArg (· + 1) h.iteration, ⟨0, rfl, fun _ => rfl⟩, ⟨_, rfl⟩, rfl, hbuffer⟩
  record {k m} h := by
    have hvalue : m.state.terms.objective m.state.solution = some (1 * m.state.solution.normSq + 0) := by
      rw [h.terms]
      rfl
    exact ⟨_, Outcome.mapState_eq_ok_iff.mpr ⟨_, Composite.recordObjective_eq_ok_iff.mpr ⟨_, hvalue, rfl⟩, rfl⟩,
      h.terms, h.iteration, h.solution, h.ahead, h.gradient, h.next⟩

/-- The square pulls both coordinates to zero, but the second one is not seen: it is five after every run, and
    whatever is shown has it at five. A run of three iterations completes, and ends at `(0, 5)`. -/
theorem unseen_coordinates_stay_half_blind :
    (halfBlind 2).adjointInto (List.replicate (halfBlind 2).rangeDim 1) (Vec.zeros (halfBlind 2).domainDim) =
      some [2, 0] ∧
    Sensitivity.of? (halfBlind 2) = some ⟨[1 / 2, 0]⟩ ∧ ∃ m₀, Fista.build (halfBlindSetup [3, 5] (1 / 2)) = .ok m₀ ∧
      (∀ (budget : ℕ) (r : Run (Fista ℝ (ConstantStep ℝ) (Sensitivity ℝ)) Unit ℝ),
        (run m₀ budget 1 (fun _ _ _ => (false, ())) ()).state? = some r →
          (Iterative.solution r.method)[1]? = some 5 ∧ ∀ q ∈ r.shown, q.1[1]? = some 5) ∧
      ∃ r : Run (Fista ℝ (ConstantStep ℝ) (Sensitivity ℝ)) Unit ℝ,
        run m₀ 3 1 (fun _ _ _ => (false, ())) () = .ok 3 r ∧ Iterative.solution r.method = [0, 5] := by
  have hsums := adjointInto_halfBlind 2
  have hweights := sensitivity_halfBlind two_pos
  have hbuild := build_halfBlindSetup [3, 5] (1 / 2)
  obtain ⟨hstays, -⟩ := (unseen_coordinates_stay hsums hweights rfl rfl).2 hbuild .start
  refine ⟨hsums, hweights, halfBlindMethod [3, 5] (1 / 2), hbuild, fun budget r hr => ?_, ?_⟩
  · obtain ⟨hend, hshown⟩ := hstays.run _ _ _ _ r hr
    exact ⟨hend.entry rfl le_rfl, fun q hq => (hshown q hq).entry rfl le_rfl⟩
  · have hstart : HalfBlindAt 0 (halfBlindMethod [3, 5] (1 / 2)) := ⟨rfl, rfl, ⟨3, rfl, nofun⟩, ⟨3, rfl⟩, rfl, rfl⟩
    obtain ⟨k, r, hrun, hlast, -, hk⟩ := productive_halfBlindAt.run_ok hstart 3 1 (fun _ _ _ => (false, ())) ()
    obtain rfl : k = 3 := hk fun _ _ _ => rfl
    obtain ⟨u, hsolution, hu⟩ := hlast.solution
    obtain rfl : u = 0 := hu (by norm_num)
    exact ⟨r, hrun, hsolution⟩

end Splitting
