import Splitting.Proofs.Exact.Reals

/-!
# `Splitting.Proofs.Exact.ExtendedReals` — exact arithmetic with infinite values

The conjugate of a function may be infinite, and so may be a dual objective. In the extended reals no number
is rounded and infinite values have a place. On finite numbers the operations are those of the reals, so
that what is computed from finite vectors is what the reals compute, as long as no value is infinite by
definition.

* `Scalar EReal` — the exact operations, with an infinite value;
* `Vec.lift` — a real vector among the extended ones;
* `Vec.zip?_lift`, `Vec.laneSum_lift`, `Vec.dot?_lift` and so on — vector operations on finite numbers.
-/

namespace Splitting

noncomputable instance : Scalar EReal where
  ofScientific m s e := ((OfScientific.ofScientific m s e : ℝ) : EReal)
  decLt := Classical.decRel (· < ·)
  decLe := Classical.decRel (· ≤ ·)
  abs x := max x (-x)
  signum x := if x < 0 then -1 else 1
  sqrt x := if x = ⊤ then ⊤ else (√x.toReal : ℝ)
  log10 x := if x = ⊤ then ⊤ else if x ≤ 0 then ⊥ else (Scalar.log10 x.toReal : ℝ)
  max x y := max x y
  min x y := min x y
  infinity := ⊤
  isFinite x := decide (x ≠ ⊤ ∧ x ≠ ⊥)
  isNaN _ := false
  ceilNat? x := if x = ⊤ ∨ x = ⊥ then none else Scalar.ceilNat? x.toReal
  text _ := ""

/-- In exact arithmetic there is one precision only. -/
instance : Precision EReal EReal where
  narrow w := w
  widen x := x

/-! ## Finite numbers -/

theorem ereal_max (a b : ℝ) : max (a : EReal) b = (max a b : ℝ) :=
  (EReal.coe_strictMono.monotone.map_max).symm

theorem ereal_min (a b : ℝ) : min (a : EReal) b = (min a b : ℝ) :=
  (EReal.coe_strictMono.monotone.map_min).symm

theorem scalar_abs_coe (a : ℝ) : Scalar.abs (a : EReal) = (|a| : ℝ) := by
  show max (a : EReal) (-a) = _
  rw [← EReal.coe_neg, ereal_max]
  rfl

theorem scalar_signum_coe (a : ℝ) : Scalar.signum (a : EReal) = (Scalar.signum a : ℝ) := by
  show (if (a : EReal) < 0 then (-1 : EReal) else 1) = ((if a < 0 then (-1 : ℝ) else 1 : ℝ) : EReal)
  by_cases ha : a < 0
  · rw [if_pos ha, if_pos (EReal.coe_neg'.mpr ha)]
    rfl
  · rw [if_neg ha, if_neg (fun h => ha (EReal.coe_neg'.mp h))]
    rfl

theorem scalar_max_coe (a b : ℝ) : Scalar.max (a : EReal) b = (Scalar.max a b : ℝ) := ereal_max a b

theorem scalar_min_coe (a b : ℝ) : Scalar.min (a : EReal) b = (Scalar.min a b : ℝ) := ereal_min a b

/-- No number has an infinite reciprocal here: that of zero and those of the infinite numbers are zero. -/
theorem exists_coe_one_div (w : EReal) : ∃ q : ℝ, 1 / w = (q : EReal) := by
  induction w with
  | bot => exact ⟨0, by rw [EReal.div_bot, EReal.coe_zero]⟩
  | coe r => exact ⟨1 / r, by rw [EReal.coe_div, EReal.coe_one]⟩
  | top => exact ⟨0, by rw [EReal.div_top, EReal.coe_zero]⟩

/-- A positive number that is not infinite. -/
theorem exists_coe_of_pos {s : EReal} (h : 0 < s ∧ s ≠ ⊤) : ∃ r : ℝ, s = (r : EReal) :=
  ⟨s.toReal, (EReal.coe_toReal h.2 (ne_bot_of_gt h.1)).symm⟩

/-! ## Vectors of finite numbers -/

namespace Vec

/-- A real vector among the extended ones. -/
def lift (x : Vec ℝ) : Vec EReal := x.map Real.toEReal

@[simp] theorem length_lift (x : Vec ℝ) : x.lift.length = x.length := List.length_map _

theorem lift_injective : Function.Injective lift := List.map_injective_iff.mpr EReal.coe_injective

theorem lift_map {α : Type} (f : α → ℝ) (l : List α) : lift (l.map f) = l.map fun a => (f a : EReal) :=
  List.map_map

theorem map_lift {F : EReal → EReal} {f : ℝ → ℝ} (h : ∀ a : ℝ, F a = f a) (x : Vec ℝ) :
    x.lift.map F = lift (x.map f) := by
  rw [lift, lift, List.map_map, List.map_map]
  exact List.map_congr_left fun a _ => h a

theorem zipWith_lift {F : EReal → EReal → EReal} {f : ℝ → ℝ → ℝ} (h : ∀ a b : ℝ, F a b = f a b)
    (x y : Vec ℝ) : List.zipWith F x.lift y.lift = lift (List.zipWith f x y) := by
  rw [lift, lift, lift, List.zipWith_map, List.map_zipWith]
  simp only [h]

theorem zip?_lift {F : EReal → EReal → EReal} {f : ℝ → ℝ → ℝ} (h : ∀ a b : ℝ, F a b = f a b) (x y : Vec ℝ) :
    zip? F x.lift y.lift = (zip? f x y).map lift := by
  unfold zip?
  by_cases hl : x.length = y.length
  · rw [if_pos hl, if_pos (by rwa [length_lift, length_lift]), Option.map_some, zipWith_lift h]
  · rw [if_neg hl, if_neg (by rwa [length_lift, length_lift]), Option.map_none]

theorem foldl_lift {F : EReal → EReal → EReal} {f : ℝ → ℝ → ℝ} (h : ∀ a b : ℝ, F a b = f a b) (x : Vec ℝ)
    (a : ℝ) : x.lift.foldl F a = (x.foldl f a : ℝ) := by
  induction x generalizing a with
  | nil => rfl
  | cons b x ih =>
    show (lift x).foldl F (F a b) = _
    rw [h, ih]
    rfl

theorem zeros_lift (n : ℕ) : (zeros n : Vec EReal) = lift (zeros n) := by
  rw [lift, zeros, zeros, List.map_replicate]
  rfl

theorem sum_lift (x : Vec ℝ) : Vec.sum x.lift = (Vec.sum x : ℝ) :=
  foldl_lift (fun a b => (EReal.coe_add a b).symm) x 0

/-- Partial sums of finite numbers. -/
def Lanes.lift (l : Lanes ℝ) : Lanes EReal :=
  ⟨l.l0, l.l1, l.l2, l.l3, l.l4, l.l5, l.l6, l.l7⟩

theorem Lanes.total_lift (l : Lanes ℝ) : l.lift.total = (l.total : ℝ) := by
  simp only [Lanes.total, EReal.coe_add, EReal.coe_zero]
  rfl

theorem Lanes.accumulate_lift (l : Lanes ℝ) (products : Vec ℝ) :
    l.lift.accumulate products.lift = (l.accumulate products : ℝ) := by
  fun_induction Lanes.accumulate l products with
  | case1 l p0 p1 p2 p3 p4 p5 p6 p7 rest ih =>
    rw [← ih]
    show Lanes.accumulate _ (Vec.lift rest) = _
    simp only [Lanes.lift, EReal.coe_add]
  | case2 l rest hrest =>
    rw [Lanes.accumulate, Lanes.total_lift]
    · exact foldl_lift (fun a b => (EReal.coe_add a b).symm) rest _
    · -- a list with fewer than eight entries still has fewer when it is lifted
      intro p0 p1 p2 p3 p4 p5 p6 p7 rest' h
      simp only [Vec.lift, List.map_eq_cons_iff] at h
      obtain ⟨q0, l0, rfl, -, q1, l1, rfl, -, q2, l2, rfl, -, q3, l3, rfl, -, q4, l4, rfl, -, q5, l5, rfl,
        -, q6, l6, rfl, -, q7, l7, rfl, -⟩ := h
      exact hrest _ _ _ _ _ _ _ _ _ rfl

theorem laneSum_lift (products : Vec ℝ) : laneSum products.lift = (laneSum products : ℝ) :=
  Lanes.accumulate_lift Lanes.zero products

theorem dot?_lift (x y : Vec ℝ) : dot? x.lift y.lift = (dot? x y).map Real.toEReal := by
  rw [dot?, dot?, zip?_lift fun a b => (EReal.coe_mul a b).symm, Option.map_map, Option.map_map]
  exact congrArg (Option.map · _) (funext laneSum_lift)

theorem stridedDot?_lift (x y : Vec ℝ) : stridedDot? x.lift y.lift = (stridedDot? x y).map Real.toEReal := by
  rw [stridedDot?, stridedDot?, zip?_lift fun a b => (EReal.coe_mul a b).symm, Option.map_map, Option.map_map]
  exact congrArg (Option.map · _) (funext sum_lift)

theorem normSq_lift (x : Vec ℝ) : normSq x.lift = (normSq x : ℝ) := by
  rw [normSq, zipWith_lift fun a b => (EReal.coe_mul a b).symm]
  exact laneSum_lift _

end Vec

end Splitting
