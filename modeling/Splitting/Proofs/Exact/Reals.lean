import Mathlib
import Splitting.Vec.Dot

/-!
# `Splitting.Proofs.Exact.Reals` — the methods in exact real arithmetic

The real numbers are a `Scalar`: the operations are the exact ones, no number is rounded, and every number is
finite. What floating point adds to the reals has no place here: there is no infinite value, and no text of a
number. Statements about infinite values are made in the extended reals.

* `Scalar ℝ`, `Precision ℝ ℝ` — the exact operations, and the one precision there is;
* `Vec.laneSum_eq_sum`, `Vec.sum_eq_sum` — in exact arithmetic the two orders of summation agree;
* `Vec.pairing` — the inner product, and `Vec.dot?_eq_pairing`, `Vec.stridedDot?_eq_pairing`.
-/

namespace Splitting

noncomputable instance : Scalar ℝ where
  decLt := Classical.decRel (· < ·)
  decLe := Classical.decRel (· ≤ ·)
  abs x := |x|
  signum x := if x < 0 then -1 else 1
  sqrt := Real.sqrt
  log10 := Real.logb 10
  max x y := max x y
  min x y := min x y
  infinity := 0
  isFinite _ := true
  isNaN _ := false
  ceilNat? x := if -1 < x ∧ x ≤ 2 ^ 64 - 1 then some ⌈x⌉₊ else none
  text _ := ""

/-- In exact arithmetic there is one precision only. -/
instance : Precision ℝ ℝ where
  narrow w := w
  widen x := x

@[simp] theorem scalar_abs (x : ℝ) : Scalar.abs x = |x| := rfl

@[simp] theorem scalar_signum (x : ℝ) : Scalar.signum x = if x < 0 then -1 else 1 := rfl

@[simp] theorem scalar_sqrt (x : ℝ) : Scalar.sqrt x = √x := rfl

@[simp] theorem scalar_max (x y : ℝ) : Scalar.max x y = max x y := rfl

@[simp] theorem scalar_min (x y : ℝ) : Scalar.min x y = min x y := rfl

namespace Vec

/-! ## Sums -/

theorem foldl_add_eq {x : List ℝ} {a : ℝ} : x.foldl (· + ·) a = a + List.sum x := by
  induction x generalizing a with
  | nil => simp
  | cons b x ih => rw [List.foldl_cons, ih, List.sum_cons, add_assoc]

/-- A sum that is begun with the first entry. -/
theorem foldl_tail_eq_sum (x : List ℝ) : x.tail.foldl (· + ·) (x.headD 0) = List.sum x := by
  cases x with
  | nil => rfl
  | cons a x => exact foldl_add_eq

theorem sum_eq_sum (x : Vec ℝ) : Vec.sum x = List.sum x := by
  rw [Vec.sum, foldl_add_eq]
  exact zero_add (List.sum x)

theorem Lanes.total_eq (l : Lanes ℝ) :
    l.total = l.l0 + l.l1 + l.l2 + l.l3 + l.l4 + l.l5 + l.l6 + l.l7 := by
  rw [Lanes.total]
  ring

theorem Lanes.accumulate_eq (l : Lanes ℝ) (products : List ℝ) :
    l.accumulate products = l.total + List.sum products := by
  fun_induction Lanes.accumulate l products with
  | case1 l p0 p1 p2 p3 p4 p5 p6 p7 rest ih =>
    rw [ih, Lanes.total_eq, Lanes.total_eq]
    simp only [List.sum_cons]
    ring
  | case2 l rest => exact foldl_add_eq

/-- **Eight partial sums add up to the sum.** -/
theorem laneSum_eq_sum (products : List ℝ) : laneSum products = List.sum products := by
  rw [laneSum, Lanes.accumulate_eq, Lanes.total_eq]
  simp [Lanes.zero]

/-! ## The inner product -/

/-- The inner product of two vectors. -/
def pairing (x y : Vec ℝ) : ℝ := List.sum (List.zipWith (· * ·) x y)

theorem dot?_eq_pairing {x y : Vec ℝ} (h : x.length = y.length) : dot? x y = some (pairing x y) := by
  simp only [dot?, zip?, if_pos h, Option.map_some, laneSum_eq_sum, pairing]

theorem stridedDot?_eq_pairing {x y : Vec ℝ} (h : x.length = y.length) :
    stridedDot? x y = some (pairing x y) := by
  simp only [stridedDot?, zip?, if_pos h, Option.map_some, sum_eq_sum, pairing]

theorem normSq_eq_pairing (x : Vec ℝ) : normSq x = pairing x x :=
  Option.some.inj ((dot?_self x).symm.trans (dot?_eq_pairing rfl))

theorem normSq_nonneg (x : Vec ℝ) : 0 ≤ normSq x := by
  rw [normSq_eq_pairing, pairing, List.zipWith_self]
  refine List.sum_nonneg fun a ha => ?_
  obtain ⟨b, -, rfl⟩ := List.mem_map.mp ha
  exact mul_self_nonneg b

end Vec

end Splitting
