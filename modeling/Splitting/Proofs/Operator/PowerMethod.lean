import Splitting.Functional.LeastSquares
import Splitting.Proofs.Functional.OnPoints
import Splitting.Proofs.Operator.Norms

/-!
# `Splitting.Proofs.Operator.PowerMethod` — the estimate of a norm only improves

Power iteration follows the length of `Kᵀ K x` over vectors `x` of length one, each of which is the image of the last.
As `Kᵀ K` is symmetric, this length never decreases, by the inequality of Cauchy and Schwarz; and it is at most the
square of any bound for `K`. So more rounds and a smaller tolerance can only raise the estimate, and a vector with the
image zero can be met in the first round only.

* `powerEstimate` — the rounds on points, and `LinearOperator.Computes.powerRounds?_ofPoint`, that they are what the
  method computes;
* `Rising`, `Rising.next` — what one round keeps;
* `Rising.powerEstimate_le`, `Rising.powerEstimate_le_of_bound` — more rounds, and a bound;
* `Scalar.withQuotientsByZero`, `LinearOperator.powerMethodFrom?_withQuotientsByZero` — no quotient by zero is used;
* `LinearOperator.Estimated` — what is true of the estimate, as a function of the rounds and the tolerance;
* `power_method_never_overestimates` — the main statement.
-/

namespace Splitting

open scoped RealInnerProductSpace

/-! ## Rounds on points -/

section Rounds

variable {E : Type} [NormedAddCommGroup E] [InnerProductSpace ℝ E]

/-- What the rounds that remain make of the estimate `square` of the squared norm, beginning with `x`, where `T` is
    `Kᵀ K`. -/
noncomputable def powerEstimate (T : E → E) (tol : ℝ) : ℕ → E → ℝ → ℝ
  | 0, _, square => √square
  | n + 1, x, square =>
    if ‖T x‖ ≤ 0 then 0
    else if |‖T x‖ - square| ≤ tol * ‖T x‖ then √‖T x‖
    else powerEstimate T tol n (‖T x‖⁻¹ • T x) ‖T x‖

/-- A state of the iteration: a vector of length one, whose image is at least as long as the estimate so far. -/
structure Rising (T : E → E) (x : E) (square : ℝ) : Prop where
  norm_eq : ‖x‖ = 1
  nonneg : 0 ≤ square
  le : square ≤ ‖T x‖

variable {T : E → E} {x : E} {square tol tol' : ℝ} {n n' : ℕ}

/-- **Cauchy and Schwarz.** The square of the length of an image is at most the length of the image's image. -/
theorem mul_norm_le_norm_image (hT : ∀ x y, ⟪T x, y⟫ = ⟪x, T y⟫) (hx : ‖x‖ = 1) :
    ‖T x‖ * ‖T x‖ ≤ ‖T (T x)‖ := by
  calc ‖T x‖ * ‖T x‖ = ⟪T x, T x⟫ := (real_inner_self_eq_norm_mul_norm (T x)).symm
    _ = ⟪x, T (T x)⟫ := hT x (T x)
    _ ≤ ‖x‖ * ‖T (T x)‖ := real_inner_le_norm x (T (T x))
    _ = ‖T (T x)‖ := by rw [hx, one_mul]

/-- **One round.** Unless the image is zero, its direction has an image that is at least as long. -/
theorem Rising.next (hT : ∀ x y, ⟪T x, y⟫ = ⟪x, T y⟫) (h : Rising T x square) (hpos : 0 < ‖T x‖) :
    Rising T (‖T x‖⁻¹ • T x) ‖T x‖ := by
  have hnext : ‖T (‖T x‖⁻¹ • T x)‖ = ‖T x‖⁻¹ * ‖T (T x)‖ := by
    rw [(Problem.isLinearMap_of_adjoint hT).map_smul, norm_smul, norm_inv, norm_norm]
  refine ⟨?_, hpos.le, ?_⟩
  · rw [norm_smul, norm_inv, norm_norm]
    exact inv_mul_cancel₀ hpos.ne'
  · rw [hnext, le_inv_mul_iff₀ hpos]
    exact mul_norm_le_norm_image hT h.norm_eq

/-- The estimate never falls below what it was. -/
theorem Rising.sqrt_le_powerEstimate (hT : ∀ x y, ⟪T x, y⟫ = ⟪x, T y⟫) (h : Rising T x square) :
    √square ≤ powerEstimate T tol n x square := by
  induction n generalizing x square with
  | zero => exact le_refl _
  | succ n ih =>
    rw [powerEstimate]
    by_cases hzero : ‖T x‖ ≤ 0
    · -- then the estimate was zero before, too
      rw [if_pos hzero, le_antisymm (h.le.trans hzero) h.nonneg, Real.sqrt_zero]
    · have hlast : √square ≤ √‖T x‖ := Real.sqrt_le_sqrt h.le
      rw [if_neg hzero]
      by_cases hstop : |‖T x‖ - square| ≤ tol * ‖T x‖
      · rw [if_pos hstop]
        exact hlast
      · rw [if_neg hstop]
        exact hlast.trans (ih (h.next hT (not_le.mp hzero)))

/-- Once an image is not zero, the estimate stays positive. -/
theorem Rising.powerEstimate_pos (hT : ∀ x y, ⟪T x, y⟫ = ⟪x, T y⟫) (h : Rising T x square) (hpos : 0 < ‖T x‖)
    (tol : ℝ) (n : ℕ) : 0 < powerEstimate T tol (n + 1) x square := by
  have hsqrt : 0 < √‖T x‖ := Real.sqrt_pos.mpr hpos
  rw [powerEstimate, if_neg (not_le.mpr hpos)]
  by_cases hstop : |‖T x‖ - square| ≤ tol * ‖T x‖
  · rw [if_pos hstop]
    exact hsqrt
  · rw [if_neg hstop]
    exact hsqrt.trans_le ((h.next hT hpos).sqrt_le_powerEstimate hT)

/-- **More rounds and a smaller tolerance** do not lower the estimate. -/
theorem Rising.powerEstimate_le (hT : ∀ x y, ⟪T x, y⟫ = ⟪x, T y⟫) (h : Rising T x square) (hn : n ≤ n')
    (htol : tol' ≤ tol) : powerEstimate T tol n x square ≤ powerEstimate T tol' n' x square := by
  induction n generalizing n' x square with
  | zero => exact h.sqrt_le_powerEstimate hT
  | succ n ih =>
    obtain ⟨m, rfl⟩ := Nat.exists_eq_add_of_le' (Nat.one_le_of_lt hn)
    rw [powerEstimate, powerEstimate]
    by_cases hzero : ‖T x‖ ≤ 0
    · rw [if_pos hzero, if_pos hzero]
    · have hnext := h.next hT (not_le.mp hzero)
      rw [if_neg hzero, if_neg hzero]
      by_cases hstop' : |‖T x‖ - square| ≤ tol' * ‖T x‖
      · -- what ends the iteration for the smaller tolerance ends it for the larger one
        have hstop : |‖T x‖ - square| ≤ tol * ‖T x‖ :=
          hstop'.trans (mul_le_mul_of_nonneg_right htol (norm_nonneg _))
        rw [if_pos hstop, if_pos hstop']
      · rw [if_neg hstop']
        by_cases hstop : |‖T x‖ - square| ≤ tol * ‖T x‖
        · rw [if_pos hstop]
          exact hnext.sqrt_le_powerEstimate hT
        · rw [if_neg hstop]
          exact ih hnext (Nat.le_of_succ_le_succ hn)

/-- **A bound** for the map, squared, bounds the estimate. -/
theorem Rising.powerEstimate_le_of_bound (hT : ∀ x y, ⟪T x, y⟫ = ⟪x, T y⟫) (h : Rising T x square) {B : ℝ}
    (hB : 0 ≤ B) (hbound : ∀ x, ‖T x‖ ≤ B ^ 2 * ‖x‖) : powerEstimate T tol n x square ≤ B := by
  have hsqrt : ∀ {s : ℝ}, s ≤ B ^ 2 → √s ≤ B := fun hs => Real.sqrt_le_iff.mpr ⟨hB, hs⟩
  induction n generalizing x square with
  | zero =>
    apply hsqrt
    calc square ≤ ‖T x‖ := h.le
      _ ≤ B ^ 2 * ‖x‖ := hbound x
      _ = B ^ 2 := by rw [h.norm_eq, mul_one]
  | succ n ih =>
    rw [powerEstimate]
    by_cases hzero : ‖T x‖ ≤ 0
    · rw [if_pos hzero]
      exact hB
    · rw [if_neg hzero]
      by_cases hstop : |‖T x‖ - square| ≤ tol * ‖T x‖
      · rw [if_pos hstop]
        apply hsqrt
        simpa [h.norm_eq] using hbound x
      · rw [if_neg hstop]
        exact ih (h.next hT (not_le.mp hzero))

/-- The estimate that begins with any vector. -/
noncomputable def powerEstimateFrom (T : E → E) (start : E) (rounds : ℕ) (tol : ℝ) : ℝ :=
  if ‖start‖ ≤ 0 then 0 else powerEstimate T tol rounds (‖start‖⁻¹ • start) 0

/-- The direction of the first vector is one to begin with. -/
theorem rising_start {start : E} (hstart : 0 < ‖start‖) : Rising T (‖start‖⁻¹ • start) 0 := by
  refine ⟨?_, le_refl 0, norm_nonneg _⟩
  rw [norm_smul, norm_inv, norm_norm]
  exact inv_mul_cancel₀ hstart.ne'

theorem powerEstimateFrom_nonneg (hT : ∀ x y, ⟪T x, y⟫ = ⟪x, T y⟫) (start : E) (rounds : ℕ) (tol : ℝ) :
    0 ≤ powerEstimateFrom T start rounds tol := by
  unfold powerEstimateFrom
  by_cases hstart : ‖start‖ ≤ 0
  · rw [if_pos hstart]
  · rw [if_neg hstart]
    exact (Real.sqrt_nonneg 0).trans ((rising_start (not_le.mp hstart)).sqrt_le_powerEstimate hT)

theorem powerEstimateFrom_le (hT : ∀ x y, ⟪T x, y⟫ = ⟪x, T y⟫) (start : E) (hn : n ≤ n') (htol : tol' ≤ tol) :
    powerEstimateFrom T start n tol ≤ powerEstimateFrom T start n' tol' := by
  unfold powerEstimateFrom
  by_cases hstart : ‖start‖ ≤ 0
  · rw [if_pos hstart, if_pos hstart]
  · rw [if_neg hstart, if_neg hstart]
    exact (rising_start (not_le.mp hstart)).powerEstimate_le hT hn htol

theorem powerEstimateFrom_le_of_bound (hT : ∀ x y, ⟪T x, y⟫ = ⟪x, T y⟫) {B : ℝ} (hB : 0 ≤ B)
    (hbound : ∀ x, ‖T x‖ ≤ B ^ 2 * ‖x‖) (start : E) (rounds : ℕ) (tol : ℝ) :
    powerEstimateFrom T start rounds tol ≤ B := by
  unfold powerEstimateFrom
  by_cases hstart : ‖start‖ ≤ 0
  · rw [if_pos hstart]
    exact hB
  · rw [if_neg hstart]
    exact (rising_start (not_le.mp hstart)).powerEstimate_le_of_bound hT hB hbound

/-- **The estimate is zero only if there are no rounds or the first image is zero.** No later image is. -/
theorem powerEstimateFrom_eq_zero_iff (hT : ∀ x y, ⟪T x, y⟫ = ⟪x, T y⟫) (start : E) (rounds : ℕ) (tol : ℝ) :
    powerEstimateFrom T start rounds tol = 0 ↔ rounds = 0 ∨ ‖T start‖ = 0 := by
  have hlinear := Problem.isLinearMap_of_adjoint hT
  unfold powerEstimateFrom
  by_cases hstart : ‖start‖ ≤ 0
  · rw [if_pos hstart, norm_le_zero_iff.mp hstart, hlinear.map_zero, norm_zero]
    simp
  · have hpos : 0 < ‖start‖ := not_le.mp hstart
    have hfirst : ‖T (‖start‖⁻¹ • start)‖ = ‖start‖⁻¹ * ‖T start‖ := by
      rw [hlinear.map_smul, norm_smul, norm_inv, norm_norm]
    rw [if_neg hstart]
    cases rounds with
    | zero => simp [powerEstimate]
    | succ n =>
      by_cases himage : ‖T start‖ = 0
      · rw [himage, mul_zero] at hfirst
        simp [powerEstimate, hfirst, himage]
      · have himagePos : 0 < ‖T (‖start‖⁻¹ • start)‖ := by
          rw [hfirst]
          exact mul_pos (inv_pos.mpr hpos) (lt_of_le_of_ne (norm_nonneg _) (Ne.symm himage))
        have hestimate := (rising_start hpos).powerEstimate_pos hT himagePos tol n
        simp [himage, hestimate.ne']

/-- A bound for a map gives one for the map after which its adjoint is taken. -/
theorem norm_adjoint_image_le {E' : Type} [NormedAddCommGroup E'] [InnerProductSpace ℝ E'] {A : E → E'} {B : E' → E}
    (h : ∀ x y, ⟪A x, y⟫ = ⟪x, B y⟫) {b : ℝ} (hbound : ∀ x, ‖A x‖ ≤ b * ‖x‖) (x : E) :
    ‖B (A x)‖ ≤ b ^ 2 * ‖x‖ := by
  by_cases hzero : ‖B (A x)‖ = 0
  · rw [hzero]
    positivity
  · have hpos : 0 < ‖B (A x)‖ := lt_of_le_of_ne (norm_nonneg _) (Ne.symm hzero)
    refine le_of_mul_le_mul_right ?_ hpos
    calc ‖B (A x)‖ * ‖B (A x)‖ = ⟪A (B (A x)), A x⟫ := by rw [h, real_inner_self_eq_norm_mul_norm]
      _ ≤ ‖A (B (A x))‖ * ‖A x‖ := real_inner_le_norm _ _
      _ ≤ b * ‖B (A x)‖ * (b * ‖x‖) := by
        gcongr
        · exact (norm_nonneg _).trans (hbound _)
        · exact hbound _
        · exact hbound x
      _ = b ^ 2 * ‖x‖ * ‖B (A x)‖ := by ring

end Rounds

/-! ## One round of the method -/

namespace LinearOperator

variable {S : Type} [Scalar S] {op : LinearOperator S} {tol square : S} {rounds : ℕ} {x image back image' back' : Vec S}

theorem powerRounds?_of_zero (himage : op.directInto x image = some image')
    (hback : op.adjointInto image' back = some back') (hzero : Scalar.sqrt back'.normSq ≤ 0) :
    op.powerRounds? tol (rounds + 1) x image back square = some 0 := by
  simp [powerRounds?, himage, hback, hzero]

theorem powerRounds?_of_stop (himage : op.directInto x image = some image')
    (hback : op.adjointInto image' back = some back') (hzero : ¬ Scalar.sqrt back'.normSq ≤ 0)
    (hstop : Scalar.abs (Scalar.sqrt back'.normSq - square) ≤ tol * Scalar.sqrt back'.normSq) :
    op.powerRounds? tol (rounds + 1) x image back square = some (Scalar.sqrt (Scalar.sqrt back'.normSq)) := by
  simp [powerRounds?, himage, hback, hzero, hstop]

theorem powerRounds?_of_next (himage : op.directInto x image = some image')
    (hback : op.adjointInto image' back = some back') (hzero : ¬ Scalar.sqrt back'.normSq ≤ 0)
    (hstop : ¬ Scalar.abs (Scalar.sqrt back'.normSq - square) ≤ tol * Scalar.sqrt back'.normSq) :
    op.powerRounds? tol (rounds + 1) x image back square =
      op.powerRounds? tol rounds (back'.map (· / Scalar.sqrt back'.normSq)) image' back'
        (Scalar.sqrt back'.normSq) := by
  simp [powerRounds?, himage, hback, hzero, hstop]

theorem powerMethodFrom?_of_zero {start : Vec S} (hzero : Scalar.sqrt start.normSq ≤ 0) :
    op.powerMethodFrom? start rounds tol = some 0 := by
  simp [powerMethodFrom?, hzero]

theorem powerMethodFrom?_of_pos {start : Vec S} (hzero : ¬ Scalar.sqrt start.normSq ≤ 0) :
    op.powerMethodFrom? start rounds tol = op.powerRounds? tol rounds
      (start.map (· / Scalar.sqrt start.normSq)) (Vec.zeros op.rangeDim) (Vec.zeros op.domainDim) 0 := by
  simp [powerMethodFrom?, hzero]

end LinearOperator

/-! ## What the method computes -/

namespace Vec

variable {n : ℕ}

theorem sqrt_normSq_ofPoint (x : Space n) : √(normSq (ofPoint x)) = ‖x‖ := by
  rw [normSq_eq_pairing, pairing_ofPoint_self, Real.sqrt_sq (norm_nonneg _)]

/-- The entries of a vector over a number. -/
theorem map_div_ofPoint (x : Space n) (a : ℝ) : (ofPoint x).map (· / a) = ofPoint (a⁻¹ • x) :=
  map_ofPoint fun _ => (div_eq_inv_mul _ _).symm

end Vec

namespace LinearOperator

variable {n r : ℕ} {op : LinearOperator ℝ} {A : Space n → Space r} {B : Space r → Space n}

/-- **The rounds of the method** are those on points, whatever the buffers hold. -/
theorem Computes.powerRounds?_ofPoint (hop : op.Computes A B) (tol : ℝ) (rounds : ℕ) {x : Space n}
    {image back : Vec ℝ} {square : ℝ} (himage : image.length = r) (hback : back.length = n) :
    op.powerRounds? tol rounds (Vec.ofPoint x) image back square =
      some (powerEstimate (fun x => B (A x)) tol rounds x square) := by
  induction rounds generalizing x image back square with
  | zero => rfl
  | succ k ih =>
    simp only [powerRounds?, hop.direct x image himage, hop.adjoint (A x) back hback, Option.bind_eq_bind,
      Option.bind_some, Vec.sqrt_normSq_ofPoint, Vec.map_div_ofPoint, scalar_abs, scalar_sqrt,
      ih (Vec.length_ofPoint _) (Vec.length_ofPoint _)]
    rw [powerEstimate]
    by_cases hzero : ‖B (A x)‖ ≤ 0
    · rw [if_pos hzero, if_pos hzero]
    · rw [if_neg hzero, if_neg hzero]
      by_cases hstop : |‖B (A x)‖ - square| ≤ tol * ‖B (A x)‖
      · rw [if_pos hstop, if_pos hstop]
      · rw [if_neg hstop, if_neg hstop]

theorem Computes.powerMethodFrom?_ofPoint (hop : op.Computes A B) (start : Space n) (rounds : ℕ) (tol : ℝ) :
    op.powerMethodFrom? (Vec.ofPoint start) rounds tol =
      some (powerEstimateFrom (fun x => B (A x)) start rounds tol) := by
  have himage : (Vec.zeros op.rangeDim : Vec ℝ).length = r := (Vec.length_zeros _).trans hop.rangeDim
  have hback : (Vec.zeros op.domainDim : Vec ℝ).length = n := (Vec.length_zeros _).trans hop.domainDim
  simp only [powerMethodFrom?, Vec.sqrt_normSq_ofPoint, Vec.map_div_ofPoint, scalar_sqrt,
    hop.powerRounds?_ofPoint tol rounds himage hback]
  unfold powerEstimateFrom
  by_cases hstart : ‖start‖ ≤ 0
  · rw [if_pos hstart, if_pos hstart]
  · rw [if_neg hstart, if_neg hstart]

end LinearOperator

/-! ## Quotients -/

/-- Exact arithmetic, but with any numbers for the quotients by zero. -/
@[reducible]
noncomputable def Scalar.withQuotientsByZero (q : ℝ → ℝ) : Scalar ℝ :=
  { (inferInstance : Scalar ℝ) with div := fun a b => if b = 0 then q a else a / b }

namespace LinearOperator

/-- Inner products have no quotients. -/
theorem normSq_withQuotientsByZero (q : ℝ → ℝ) (x : Vec ℝ) :
    @Vec.normSq ℝ (.withQuotientsByZero q) x = x.normSq := by
  have hlanes : ∀ l products, @Vec.Lanes.accumulate ℝ (.withQuotientsByZero q) l products =
      Vec.Lanes.accumulate l products := by
    intro l products
    fun_induction Vec.Lanes.accumulate l products with
    | case1 l p0 p1 p2 p3 p4 p5 p6 p7 rest ih => exact ih
    | case2 l rest hrest => exact @Vec.Lanes.accumulate.eq_2 ℝ (.withQuotientsByZero q) l rest hrest
  exact hlanes _ _

/-- A vector over a positive number has the entries that it should have. -/
theorem map_div_withQuotientsByZero (q : ℝ → ℝ) {length : ℝ} (h : ¬ length ≤ 0) (x : Vec ℝ) :
    x.map (fun a => (Scalar.withQuotientsByZero q).div a length) = x.map (· / length) := by
  refine List.map_congr_left fun a _ => ?_
  exact if_neg fun hzero => h hzero.le

theorem powerRounds?_withQuotientsByZero (q : ℝ → ℝ) (op : LinearOperator ℝ) (tol : ℝ) (rounds : ℕ)
    (x image back : Vec ℝ) (square : ℝ) :
    @powerRounds? ℝ (.withQuotientsByZero q) op tol rounds x image back square =
      op.powerRounds? tol rounds x image back square := by
  induction rounds generalizing x image back square with
  | zero => rfl
  | succ k ih =>
    cases himage : op.directInto x image with
    | none => simp [powerRounds?, himage]
    | some image' =>
      cases hback : op.adjointInto image' back with
      | none => simp [powerRounds?, himage, hback]
      | some back' =>
        have hlength := normSq_withQuotientsByZero q back'
        -- the tests are the same, and what remains is begun with the same vector
        by_cases hzero : √back'.normSq ≤ 0
        · have hvalue := @powerRounds?_of_zero ℝ (.withQuotientsByZero q) op tol square k x image back _ _
            himage hback
          rw [hlength] at hvalue
          rw [powerRounds?_of_zero himage hback hzero]
          exact hvalue hzero
        · by_cases hstop : |√back'.normSq - square| ≤ tol * √back'.normSq
          · rw [powerRounds?_of_stop himage hback hzero hstop]
            have hvalue := @powerRounds?_of_stop ℝ (.withQuotientsByZero q) op tol square k x image back _ _
              himage hback
            rw [hlength] at hvalue
            exact hvalue hzero hstop
          · have hnext := @powerRounds?_of_next ℝ (.withQuotientsByZero q) op tol square k x image back _ _
              himage hback
            rw [hlength] at hnext
            rw [powerRounds?_of_next himage hback hzero hstop, ← ih]
            exact (hnext hzero hstop).trans (congrArg (fun v => @powerRounds? ℝ (.withQuotientsByZero q) op tol k v
              image' back' √back'.normSq) (map_div_withQuotientsByZero q hzero back'))

/-- **No quotient by zero is used:** the estimate is the same, whatever such quotients are. -/
theorem powerMethodFrom?_withQuotientsByZero (q : ℝ → ℝ) (op : LinearOperator ℝ) (start : Vec ℝ) (rounds : ℕ)
    (tol : ℝ) :
    @powerMethodFrom? ℝ (.withQuotientsByZero q) op start rounds tol = op.powerMethodFrom? start rounds tol := by
  have hlength := normSq_withQuotientsByZero q start
  by_cases hzero : √start.normSq ≤ 0
  · have hvalue := @powerMethodFrom?_of_zero ℝ (.withQuotientsByZero q) op tol rounds start
    rw [hlength] at hvalue
    rw [powerMethodFrom?_of_zero hzero]
    exact hvalue hzero
  · have hvalue := @powerMethodFrom?_of_pos ℝ (.withQuotientsByZero q) op tol rounds start
    rw [hlength] at hvalue
    rw [powerMethodFrom?_of_pos hzero, ← powerRounds?_withQuotientsByZero q]
    exact (hvalue hzero).trans (congrArg (fun v => @powerRounds? ℝ (.withQuotientsByZero q) op tol rounds v
      (Vec.zeros op.rangeDim) (Vec.zeros op.domainDim) 0) (map_div_withQuotientsByZero q hzero start))

end LinearOperator

/-! ## The estimate -/

/-- A map makes no vector of length `n` longer than by the factor `bound`. -/
structure StretchesBy (n : ℕ) (image : Vec ℝ → Vec ℝ) (bound : ℝ) : Prop where
  nonneg : 0 ≤ bound
  le : ∀ x, x.length = n → (image x).norm ≤ bound * x.norm

/-- What power iteration makes of an operator that computes `image` and `coimage`, beginning with any vector: `e rounds
    tol`, for any number of rounds and any tolerance. -/
structure LinearOperator.Estimated (op : LinearOperator ℝ) (image coimage : Vec ℝ → Vec ℝ) (start : Vec ℝ)
    (e : ℕ → ℝ → ℝ) : Prop where
  eval : ∀ rounds tol, op.powerMethodFrom? start rounds tol = some (e rounds tol)
  nonneg : ∀ rounds tol, 0 ≤ e rounds tol
  le_of_bound : ∀ bound, StretchesBy op.domainDim image bound → ∀ rounds tol, e rounds tol ≤ bound
  mono_rounds : ∀ {rounds rounds'}, rounds ≤ rounds' → ∀ tol, e rounds tol ≤ e rounds' tol
  anti_tol : ∀ {tol tol'}, tol ≤ tol' → ∀ rounds, e rounds tol' ≤ e rounds tol
  /-- It stays the same if the quotients by zero are any other numbers. -/
  quotients : ∀ q rounds tol,
    @powerMethodFrom? ℝ (.withQuotientsByZero q) op start rounds tol = some (e rounds tol)
  /-- Only the first image may be zero. -/
  eq_zero_iff : ∀ rounds tol, e rounds tol = 0 ↔ rounds = 0 ∨ (coimage (image start)).norm = 0

namespace LinearOperator.AdjointPair

variable {op : LinearOperator ℝ} {image coimage : Vec ℝ → Vec ℝ}

/-- The estimate has all these properties. -/
theorem exists_estimated (h : op.AdjointPair image coimage) {start : Vec ℝ} (hstart : start.length = op.domainDim) :
    ∃ e, op.Estimated image coimage start e := by
  obtain ⟨s, rfl⟩ := Vec.exists_ofPoint hstart
  obtain ⟨A, B, hop, hA, hinner⟩ := h.exists_computes rfl
  have hT : ∀ x y, ⟪B (A x), y⟫ = ⟪x, B (A y)⟫ := by
    intro x y
    rw [Problem.adjoint_symm hinner, hinner]
  have heval : ∀ rounds tol, op.powerMethodFrom? (Vec.ofPoint s) rounds tol =
      some (powerEstimateFrom (fun x => B (A x)) s rounds tol) := hop.powerMethodFrom?_ofPoint s
  refine ⟨powerEstimateFrom (fun x => B (A x)) s, heval, ?_, ?_, ?_, ?_, ?_, ?_⟩
  · exact powerEstimateFrom_nonneg hT s
  · intro bound hbound rounds tol
    have himage : ∀ x, ‖A x‖ ≤ bound * ‖x‖ := by
      intro x
      have hx := hbound.le _ (Vec.length_ofPoint x)
      rwa [← hA, Vec.norm_ofPoint, Vec.norm_ofPoint] at hx
    exact powerEstimateFrom_le_of_bound hT hbound.nonneg (norm_adjoint_image_le hinner himage) s rounds tol
  · exact fun hrounds tol => powerEstimateFrom_le hT s hrounds (le_refl tol)
  · exact fun htol rounds => powerEstimateFrom_le hT s (le_refl rounds) htol
  · intro q rounds tol
    rw [powerMethodFrom?_withQuotientsByZero, heval]
  · intro rounds tol
    have himage : (coimage (image (Vec.ofPoint s))).norm = ‖B (A s)‖ := by
      rw [← hA, ← hop.ofPoint_adjoint h, Vec.norm_ofPoint]
    rw [himage]
    exact powerEstimateFrom_eq_zero_iff hT s rounds tol

/-- **An operator has a norm:** a least bound. -/
theorem exists_isLeast_bound (h : op.AdjointPair image coimage) :
    ∃ norm, IsLeast {bound | StretchesBy op.domainDim image bound} norm := by
  obtain ⟨A, B, -, hA, hinner⟩ := h.exists_computes rfl
  have hnorm : ∀ x, (image (Vec.ofPoint x)).norm = ‖A x‖ := by
    intro x
    rw [← hA, Vec.norm_ofPoint]
  let continuous := LinearMap.toContinuousLinearMap ((Problem.isLinearMap_of_adjoint hinner).mk' A)
  refine ⟨‖continuous‖, ⟨norm_nonneg _, ?_⟩, ?_⟩
  · intro x hx
    obtain ⟨p, rfl⟩ := Vec.exists_ofPoint hx
    rw [hnorm, Vec.norm_ofPoint]
    exact continuous.le_opNorm p
  · intro bound hbound
    refine continuous.opNorm_le_bound hbound.nonneg fun p => ?_
    have hp := hbound.le _ (Vec.length_ofPoint p)
    rwa [hnorm, Vec.norm_ofPoint] at hp

end LinearOperator.AdjointPair

variable {W : Type}

/-- The Lipschitz constant that least squares take from an operator without a known norm is not too large. -/
theorem LeastSquares.lipschitz_le_of_estimated [Scalar W] [Precision ℝ W] {op : LinearOperator ℝ}
    {image coimage : Vec ℝ → Vec ℝ} {e : ℕ → ℝ → ℝ} (hunknown : op.knownNorm = none)
    (he : op.Estimated image coimage (LinearOperator.startVector op.domainDim) e) (b : Vec ℝ) {c norm : ℝ}
    (hc : 0 ≤ c) (hnorm : StretchesBy op.domainDim image norm) :
    ∃ f, LeastSquares.of? op b c = some f ∧ f.lipschitz ≤ 2 * c * norm ^ 2 := by
  have hestimate : op.norm? = some (e 100 1e-8) := by
    rw [LinearOperator.norm?, hunknown]
    exact he.eval 100 1e-8
  have hsquare : e 100 1e-8 ^ 2 ≤ norm ^ 2 := pow_le_pow_left₀ (he.nonneg _ _) (he.le_of_bound _ hnorm _ _) 2
  refine ⟨⟨op, b, c, (c + c) * e 100 1e-8 * e 100 1e-8⟩, ?_, ?_⟩
  · rw [LeastSquares.of?, hestimate]
    rfl
  · show (c + c) * e 100 1e-8 * e 100 1e-8 ≤ _
    calc (c + c) * e 100 1e-8 * e 100 1e-8 = 2 * c * e 100 1e-8 ^ 2 := by ring
      _ ≤ 2 * c * norm ^ 2 := mul_le_mul_of_nonneg_left hsquare (by positivity)

/-- **Power iteration never overestimates and only improves.** For an operator with its adjoint, and any vector to begin
    with, the estimate is at least zero and at most every bound of the operator; it does not fall with more rounds or
    with a smaller tolerance; and no quotient by zero is used. So least squares of a dense matrix store a Lipschitz
    constant that is at most the true one. -/
theorem power_method_never_overestimates [Scalar W] [Precision ℝ W] :
    (∀ (op : LinearOperator ℝ) (image coimage : Vec ℝ → Vec ℝ), op.AdjointPair image coimage →
      ∀ start : Vec ℝ, start.length = op.domainDim → ∃ e, op.Estimated image coimage start e) ∧
    ∀ (a : Matrix ℝ) (b : Vec ℝ) (c : ℝ), 0 ≤ c → ∃ f norm,
      LeastSquares.of? (W := W) (LinearOperator.matrix a) b c = some f ∧
      IsLeast {bound | StretchesBy a.cols (BasicOperator.matrix a).image bound} norm ∧
      f.lipschitz ≤ 2 * c * norm ^ 2 := by
  refine ⟨fun op image coimage h start => h.exists_estimated, fun a b c hc => ?_⟩
  have hpair := (BasicOperator.matrix a).adjointPair
  obtain ⟨norm, hnorm⟩ := hpair.exists_isLeast_bound
  obtain ⟨e, he⟩ := hpair.exists_estimated (LinearOperator.length_startEntries (W := W) _ _)
  obtain ⟨f, hf, hle⟩ := LeastSquares.lipschitz_le_of_estimated (W := W) rfl he b hc hnorm.1
  exact ⟨f, norm, hf, hnorm, hle⟩

/-- The estimates of a diagonal scaling by `3` and `4`, and least squares of the matrix with the one entry `3`. -/
theorem power_method_never_overestimates_of_scaling :
    (∃ e, (BasicOperator.diagonal [3, 4]).operator.Estimated (BasicOperator.diagonal [3, 4]).image
      (BasicOperator.diagonal [3, 4]).coimage [1, 1] e) ∧
    ∃ f norm, LeastSquares.of? (W := ℝ) (LinearOperator.matrix ⟨1, [[3]], by simp⟩) [1] 2 = some f ∧
      IsLeast {bound | StretchesBy 1 (BasicOperator.matrix ⟨1, [[3]], by simp⟩).image bound} norm ∧
      f.lipschitz ≤ 2 * 2 * norm ^ 2 := by
  have hpair := (BasicOperator.diagonal [3, 4]).adjointPair
  have hscale : (0 : ℝ) ≤ 2 := zero_le_two
  exact ⟨(power_method_never_overestimates (W := ℝ)).1 _ _ _ hpair [1, 1] rfl,
    power_method_never_overestimates.2 _ _ _ hscale⟩

end Splitting
