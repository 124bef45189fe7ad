import Splitting.Functional.OneNorm
import Splitting.Functional.SquaredDistance
import Splitting.Proofs.Exact.Coordinates
import Splitting.Proofs.Exact.ExtendedReals

/-!
# `Splitting.Proofs.Functional.FenchelYoung` — functions and their conjugates in exact arithmetic

For a scaled one-norm and a scaled squared distance, the value and the conjugate that are computed satisfy
the inequality of Fenchel and Young, `⟨x, y⟩ ≤ f x + f* y`, and the proximal map of the conjugate ends in
the set where the conjugate is finite. All of this is about finite data in the extended reals: only the
conjugate of a one-norm is ever infinite.

* `BasicTerm` — the two functions; `BasicTerm.Proper`, `BasicTerm.Fits` — the data that they are used with;
* `BasicTerm.valueAt`, `BasicTerm.conjugateAt` — what is computed, as real numbers;
* `BasicTerm.Feasible` — where the conjugate counts as finite;
* `BasicTerm.fenchelYoung` — the inequality;
* `BasicTerm.feasible_of_proximalConjugate` — the proximal map of the conjugate.
-/

namespace Splitting

/-! ## The box of a one-norm -/

namespace OneNorm

variable {S : Type} [Scalar S] {f : OneNorm S} {y : Vec S}

theorem conjugate_of_mem_box (h : ∀ v ∈ y, Scalar.abs v ≤ f.radius) : f.conjugate y = 0 := by
  have hall : (y.all fun v => Scalar.abs v ≤ f.radius) = true :=
    List.all_eq_true.mpr fun v hv => decide_eq_true (h v hv)
  rw [conjugate, if_pos hall]

theorem conjugate_of_not_mem_box (h : ¬ ∀ v ∈ y, Scalar.abs v ≤ f.radius) :
    f.conjugate y = Scalar.infinity := by
  have hall : ¬ (y.all fun v => Scalar.abs v ≤ f.radius) = true :=
    fun hall => h fun v hv => of_decide_eq_true (List.all_eq_true.mp hall v hv)
  rw [conjugate, if_neg hall]

theorem radius_lift (a : ℝ) : (⟨a⟩ : OneNorm EReal).radius = ((⟨a⟩ : OneNorm ℝ).radius : ℝ) := by
  rw [radius, radius, EReal.coe_mul, EReal.coe_add]
  rfl

theorem alpha_le_radius {f : OneNorm ℝ} (hf : 0 ≤ f.alpha) : f.alpha ≤ f.radius := by
  have hslack : (1 : ℝ) ≤ 1 + 1e-10 := by norm_num
  calc f.alpha = f.alpha * 1 := (mul_one _).symm
    _ ≤ f.alpha * (1 + 1e-10) := mul_le_mul_of_nonneg_left hslack hf

end OneNorm

/-! ## The functions and their data -/

/-- The functions of this library that have a conjugate. -/
inductive BasicTerm (S : Type) where
  | oneNorm (f : OneNorm S)
  | squaredDistance (f : SquaredDistance S)

namespace BasicTerm

/-- The operations of the function. -/
def functional {S : Type} [Scalar S] : BasicTerm S → Functional S
  | oneNorm f => f.functional
  | squaredDistance f => f.functional

/-- The function with its real data among the extended reals. -/
def lift : BasicTerm ℝ → BasicTerm EReal
  | oneNorm f => oneNorm ⟨f.alpha⟩
  | squaredDistance f => squaredDistance ⟨f.scale, f.center.map Vec.lift⟩

/-- The scale is one for which the function is convex, and its conjugate has the closed form. -/
def Proper : BasicTerm ℝ → Prop
  | oneNorm f => 0 ≤ f.alpha
  | squaredDistance f => 0 < f.scale

/-- The function is one of vectors of length `n`. -/
def Fits (n : ℕ) : BasicTerm ℝ → Prop
  | oneNorm _ => True
  | squaredDistance f => ∀ b ∈ f.center, b.length = n

/-- The dual vectors on which the conjugate is finite. -/
def Feasible (y : Vec ℝ) : BasicTerm ℝ → Prop
  | oneNorm f => ∀ v ∈ y, |v| ≤ f.alpha
  | squaredDistance _ => True

/-- The value. -/
noncomputable def valueAt (x : Vec ℝ) : BasicTerm ℝ → ℝ
  | oneNorm f => f.alpha * List.sum (x.map (|·|))
  | squaredDistance ⟨c, none⟩ => c * Vec.pairing x x
  | squaredDistance ⟨c, some b⟩ =>
    c * Vec.pairing (List.zipWith (· - ·) x b) (List.zipWith (· - ·) x b)

/-- The conjugate, where it is finite. -/
noncomputable def conjugateAt (y : Vec ℝ) : BasicTerm ℝ → ℝ
  | oneNorm _ => 0
  | squaredDistance ⟨c, none⟩ => Vec.pairing y y / (4 * c)
  | squaredDistance ⟨c, some b⟩ => Vec.pairing y y / (4 * c) + Vec.pairing y b

/-! ## The inequality -/

/-- `⟨d, y⟩ ≤ c ‖d‖² + ‖y‖² / (4 c)`, place by place. -/
theorem pairing_le_squares {c : ℝ} (hc : 0 < c) {d y : Vec ℝ} (h : d.length = y.length) :
    Vec.pairing d y ≤ c * Vec.pairing d d + Vec.pairing y y / (4 * c) := by
  have hplace : ∀ a b : ℝ, a * b ≤ c * (a * a) + b * b / (4 * c) := by
    intro a b
    -- the two sides differ by a square over a positive number
    have hsquare : c * (a * a) + b * b / (4 * c) - a * b = (2 * c * a - b) ^ 2 / (4 * c) := by
      field_simp
      ring
    have hnonneg : 0 ≤ (2 * c * a - b) ^ 2 / (4 * c) := by positivity
    linarith
  rw [Vec.pairing_eq_sum h, Vec.pairing_eq_sum (rfl : d.length = d.length),
    Vec.pairing_eq_sum (rfl : y.length = y.length), ← h, Finset.mul_sum, Finset.sum_div,
    ← Finset.sum_add_distrib]
  exact Finset.sum_le_sum fun i _ => hplace _ _

/-- `⟨x, y⟩ ≤ r ‖x‖₁` for `y` in the box of half-width `r`. -/
theorem pairing_le_oneNorm {r : ℝ} {x y : Vec ℝ} (hy : ∀ v ∈ y, |v| ≤ r) (h : x.length = y.length) :
    Vec.pairing x y ≤ r * List.sum (x.map (|·|)) := by
  -- the bound holds place by place; the induction adds it up
  induction x generalizing y with
  | nil => simp [Vec.pairing]
  | cons a x ih =>
    obtain ⟨b, y, rfl⟩ := List.exists_cons_of_length_eq_add_one h.symm
    have hab : a * b ≤ r * |a| := by
      calc a * b ≤ |a * b| := le_abs_self _
        _ = |b| * |a| := by rw [abs_mul, mul_comm]
        _ ≤ r * |a| := mul_le_mul_of_nonneg_right (hy b List.mem_cons_self) (abs_nonneg a)
    have hrest := ih (fun v hv => hy v (List.mem_cons_of_mem b hv)) (Nat.succ.inj h)
    rw [List.map_cons, List.sum_cons, mul_add]
    show a * b + Vec.pairing x y ≤ _
    exact add_le_add hab hrest

/-- The product of a difference splits. -/
theorem pairing_sub_left {x b y : Vec ℝ} (hb : x.length = b.length) (hy : x.length = y.length) :
    Vec.pairing (List.zipWith (· - ·) x b) y = Vec.pairing x y - Vec.pairing b y := by
  have hd : (List.zipWith (· - ·) x b).length = x.length := Vec.length_zipWith_of_length rfl hb.symm
  rw [Vec.pairing_eq_sum (hd.trans hy), hd, Vec.pairing_eq_sum hy, Vec.pairing_eq_sum (hb.symm.trans hy),
    ← hb, ← Finset.sum_sub_distrib]
  refine Finset.sum_congr rfl fun i _ => ?_
  rw [Vec.coords_zipWith (sub_zero 0) hb]
  ring

/-- **The inequality of Fenchel and Young.** -/
theorem fenchelYoung {t : BasicTerm ℝ} {x y : Vec ℝ} (ht : t.Proper) (hfit : t.Fits x.length)
    (hy : t.Feasible y) (h : x.length = y.length) : Vec.pairing x y ≤ t.valueAt x + t.conjugateAt y := by
  cases t with
  | oneNorm f =>
    rw [valueAt, conjugateAt, add_zero]
    exact pairing_le_oneNorm hy h
  | squaredDistance f =>
    obtain ⟨c, center⟩ := f
    cases center with
    | none => exact pairing_le_squares ht h
    | some b =>
      have hb : x.length = b.length := (hfit b rfl).symm
      have hd : (List.zipWith (· - ·) x b).length = y.length :=
        Vec.length_zipWith_of_length h (hb.symm.trans h)
      -- the inequality for the difference, and the rest of both sides is the same
      have hdiff := pairing_le_squares ht hd
      rw [pairing_sub_left hb h, Vec.pairing_comm b y] at hdiff
      show _ ≤ c * _ + (_ / (4 * c) + _)
      linarith

/-! ## What is computed -/

section

variable {x y : Vec ℝ} {t : BasicTerm ℝ}

theorem abs_foldl (x : Vec ℝ) (a : ℝ) :
    x.foldl (fun total v => total + |v|) a = a + List.sum (x.map (|·|)) := by
  rw [← Vec.foldl_add_eq, List.foldl_map]

theorem value_lift (hfit : t.Fits x.length) :
    t.lift.functional.value x.lift = some (t.valueAt x : EReal) := by
  cases t with
  | oneNorm f =>
    -- every partial sum is finite, because it is the image of a real one
    have hsum : x.lift.foldl (fun total a => total + Scalar.abs a) (0 : EReal) =
        (List.sum (x.map (|·|)) : ℝ) := by
      have habs : ∀ a b : ℝ, (a : EReal) + Scalar.abs (b : EReal) = (a + |b| : ℝ) := by
        intro a b
        rw [scalar_abs_coe, EReal.coe_add]
      have := Vec.foldl_lift (F := fun total a => total + Scalar.abs a)
        (f := fun total v => total + |v|) habs x 0
      rwa [abs_foldl, zero_add] at this
    show some ((f.alpha : EReal) * _) = some ((f.alpha * _ : ℝ) : EReal)
    rw [hsum, EReal.coe_mul]
  | squaredDistance f =>
    obtain ⟨c, center⟩ := f
    cases center with
    | none =>
      show some ((c : EReal) * Vec.normSq x.lift) = some ((c * _ : ℝ) : EReal)
      rw [Vec.normSq_lift, Vec.normSq_eq_pairing, EReal.coe_mul]
    | some b =>
      have hb : x.length = b.length := (hfit b rfl).symm
      have hplace : ∀ u v : ℝ, ((u : EReal) - v) * (u - v) = ((u - v) * (u - v) : ℝ) := by
        intro u v
        rw [EReal.coe_mul, EReal.coe_sub]
      have hsquares : List.zipWith (fun u v => (u - v) * (u - v)) x b =
          List.zipWith (· * ·) (List.zipWith (· - ·) x b) (List.zipWith (· - ·) x b) := by
        rw [List.zipWith_self, List.map_zipWith]
      show (((Vec.zip? (fun u v => (u - v) * (u - v)) x.lift b.lift).map Vec.sum).bind
        fun v => some ((c : EReal) * v)) = _
      rw [Vec.zip?_lift hplace, Vec.zip?, if_pos hb, Option.map_some, Option.map_some, Option.bind_some,
        Vec.sum_lift, Vec.sum_eq_sum, hsquares, ← EReal.coe_mul]
      rfl

/-- A vector in the box, or a little outside, has the conjugate zero. -/
theorem oneNorm_conjugate_lift {f : OneNorm ℝ} (hy : ∀ v ∈ y, |v| ≤ f.radius) :
    (oneNorm f).lift.functional.conjugate y.lift = .ok 0 := by
  refine congrArg Except.ok (OneNorm.conjugate_of_mem_box ?_)
  intro v hv
  obtain ⟨u, hu, rfl⟩ := List.mem_map.mp hv
  rw [scalar_abs_coe, OneNorm.radius_lift, EReal.coe_le_coe_iff]
  exact hy u hu

/-- A vector further outside has an infinite conjugate. -/
theorem oneNorm_conjugate_lift_top {f : OneNorm ℝ} (hy : ¬ ∀ v ∈ y, |v| ≤ f.radius) :
    (oneNorm f).lift.functional.conjugate y.lift = .ok ⊤ := by
  refine congrArg Except.ok (OneNorm.conjugate_of_not_mem_box fun hlift => hy fun v hv => ?_)
  have hv' := hlift v (List.mem_map_of_mem hv)
  rwa [scalar_abs_coe, OneNorm.radius_lift, EReal.coe_le_coe_iff] at hv'

theorem squaredDistance_conjugate?_lift {f : SquaredDistance ℝ} (hfit : (squaredDistance f).Fits y.length) :
    (⟨f.scale, f.center.map Vec.lift⟩ : SquaredDistance EReal).conjugate? y.lift =
      some ((squaredDistance f).conjugateAt y : EReal) := by
  obtain ⟨c, center⟩ := f
  have hfour : ((4 : ℕ) : EReal) * (c : EReal) = ((4 * c : ℝ) : EReal) := by
    rw [EReal.coe_mul]
    rfl
  have hsquare : Vec.normSq y.lift / (((4 : ℕ) : EReal) * (c : EReal)) = (Vec.pairing y y / (4 * c) : ℝ) := by
    rw [hfour, Vec.normSq_lift, Vec.normSq_eq_pairing, ← EReal.coe_div]
  cases center with
  | none =>
    simp only [SquaredDistance.conjugate?, Option.map_none, Option.bind_eq_bind, Option.bind_some,
      Option.pure_def, hsquare, conjugateAt]
    rw [add_zero]
  | some b =>
    have hb : y.length = b.length := (hfit b rfl).symm
    simp only [SquaredDistance.conjugate?, Option.map_some, Option.bind_eq_bind, Option.bind_some,
      Option.pure_def, Vec.dot?_lift, Vec.dot?_eq_pairing hb, hsquare, conjugateAt, EReal.coe_add]

/-- **The conjugate is finite on feasible vectors.** -/
theorem conjugate_lift (ht : t.Proper) (hfit : t.Fits y.length) (hy : t.Feasible y) :
    t.lift.functional.conjugate y.lift = .ok (t.conjugateAt y : EReal) := by
  cases t with
  | oneNorm f =>
    -- a feasible vector lies in the box, and so in the wider one that the conjugate allows
    refine oneNorm_conjugate_lift fun v hv => (hy v hv).trans ?_
    exact OneNorm.alpha_le_radius ht
  | squaredDistance f =>
    simp only [lift, functional, SquaredDistance.functional, squaredDistance_conjugate?_lift hfit]

/-! ## Proximal maps -/

theorem softThreshold_lift (threshold a : ℝ) :
    OneNorm.softThreshold (threshold : EReal) (a : EReal) = (OneNorm.softThreshold threshold a : ℝ) := by
  rw [OneNorm.softThreshold, OneNorm.softThreshold, scalar_abs_coe, scalar_signum_coe, ← EReal.coe_sub,
    ← EReal.coe_zero, scalar_max_coe, ← EReal.coe_mul]
  rfl

theorem clip_lift (f : OneNorm ℝ) (a : ℝ) :
    (⟨f.alpha⟩ : OneNorm EReal).clip (a : EReal) = (f.clip a : ℝ) := by
  rw [OneNorm.clip, OneNorm.clip, ← EReal.coe_neg, scalar_max_coe, scalar_min_coe]

/-- A clipped number lies in the box, unless the box is empty. -/
theorem abs_clip_le {f : OneNorm ℝ} (hf : 0 ≤ f.alpha) (a : ℝ) : |f.clip a| ≤ f.alpha := by
  -- the upper bound is taken last, so that only the lower one needs the box not to be empty
  refine abs_le.mpr ⟨?_, min_le_right _ _⟩
  exact le_min (le_max_right _ _) ((neg_nonpos.mpr hf).trans hf)

theorem entries_lift {f : SquaredDistance ℝ} {P : EReal → EReal} {Q : EReal → EReal → EReal} {p : ℝ → ℝ}
    {q : ℝ → ℝ → ℝ} (hp : ∀ a : ℝ, P a = p a) (hq : ∀ a b : ℝ, Q a b = q a b) (x : Vec ℝ) :
    (⟨f.scale, f.center.map Vec.lift⟩ : SquaredDistance EReal).entries P Q x.lift =
      (f.entries p q x).map Vec.lift := by
  obtain ⟨c, center⟩ := f
  cases center with
  | none => exact congrArg some (Vec.map_lift hp x)
  | some b => exact Vec.zip?_lift hq x b

theorem squaredDistance_proximal?_lift (f : SquaredDistance ℝ) (tau : ℝ) :
    (⟨f.scale, f.center.map Vec.lift⟩ : SquaredDistance EReal).proximal? x.lift (tau : EReal) =
      (f.proximal? x tau).map Vec.lift := by
  refine entries_lift (fun a => ?_) (fun a b => ?_) x
  · simp only [EReal.coe_div, EReal.coe_add, EReal.coe_mul, EReal.coe_one]
  · simp only [EReal.coe_div, EReal.coe_add, EReal.coe_mul, EReal.coe_one]

theorem squaredDistance_proximalConjugate?_lift (f : SquaredDistance ℝ) (tau : ℝ) :
    (⟨f.scale, f.center.map Vec.lift⟩ : SquaredDistance EReal).proximalConjugate? y.lift (tau : EReal) =
      (f.proximalConjugate? y tau).map Vec.lift := by
  refine entries_lift (fun a => ?_) (fun a b => ?_) y
  · simp only [EReal.coe_div, EReal.coe_add, EReal.coe_one]
  · simp only [EReal.coe_div, EReal.coe_add, EReal.coe_sub, EReal.coe_mul, EReal.coe_one]

/-- The proximal maps fail on lengths only. -/
theorem proximal_ne_error {S : Type} [Scalar S] (t : BasicTerm S) {x out v : Vec S} {tau : S} {e : Error} :
    t.functional.proximal x tau out ≠ .error e v := by
  cases t with
  | oneNorm f => exact Outcome.put_ne_error
  | squaredDistance f => exact Outcome.put_ne_error

theorem proximalConjugate_ne_error {S : Type} [Scalar S] (t : BasicTerm S) {y out v : Vec S} {tau : S}
    {e : Error} : t.functional.proximalConjugate y tau out ≠ .error e v := by
  cases t with
  | oneNorm f => exact Outcome.put_ne_error
  | squaredDistance f => exact Outcome.put_ne_error

/-- **The proximal map of finite data is finite.** -/
theorem lift_of_proximal {tau : ℝ} {out v : Vec EReal}
    (h : t.lift.functional.proximal x.lift (tau : EReal) out = .ok () v) : ∃ w, v = Vec.lift w := by
  cases t with
  | oneNorm f =>
    obtain ⟨hv, -⟩ := Functional.overwrite_eq_ok_iff.mp h
    cases hv
    refine ⟨x.map (OneNorm.softThreshold (tau * f.alpha)), Vec.map_lift (fun a => ?_) x⟩
    rw [← EReal.coe_mul]
    exact softThreshold_lift _ _
  | squaredDistance f =>
    obtain ⟨hv, -⟩ := Functional.overwrite_eq_ok_iff.mp h
    rw [squaredDistance_proximal?_lift] at hv
    obtain ⟨w, -, rfl⟩ := Option.map_eq_some_iff.mp hv
    exact ⟨w, rfl⟩

/-- **The proximal map of the conjugate ends where the conjugate is finite.** -/
theorem feasible_of_proximalConjugate (ht : t.Proper) {tau : ℝ} {out v : Vec EReal}
    (h : t.lift.functional.proximalConjugate y.lift (tau : EReal) out = .ok () v) :
    ∃ w, v = Vec.lift w ∧ t.Feasible w := by
  cases t with
  | oneNorm f =>
    obtain ⟨hv, -⟩ := Functional.overwrite_eq_ok_iff.mp h
    cases hv
    refine ⟨y.map f.clip, Vec.map_lift (clip_lift f) y, ?_⟩
    intro u hu
    obtain ⟨a, -, rfl⟩ := List.mem_map.mp hu
    exact abs_clip_le ht a
  | squaredDistance f =>
    obtain ⟨hv, -⟩ := Functional.overwrite_eq_ok_iff.mp h
    rw [squaredDistance_proximalConjugate?_lift] at hv
    obtain ⟨w, -, rfl⟩ := Option.map_eq_some_iff.mp hv
    exact ⟨w, rfl, trivial⟩

end

end BasicTerm

end Splitting
