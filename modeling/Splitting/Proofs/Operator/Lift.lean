import Splitting.Operator.Stack
import Splitting.Proofs.Exact.ExtendedReals
import Splitting.Proofs.Operator.Adjoint

/-!
# `Splitting.Proofs.Operator.Lift` — real operators among the extended reals

An operator with finite data takes finite vectors to finite vectors, and computes what the real operator
computes, whatever its buffer held. The same is true of the sum of adjoints that a stack computes.

* `BasicOperator.lift` — the operator with its data among the extended reals;
* `BasicOperator.direct_lift`, `BasicOperator.adjoint_lift` — what its two maps compute;
* `adjointSum?_lift` — the sum of adjoints.
-/

namespace Splitting

/-- The matrix with its entries among the extended reals. -/
def Matrix.lift (a : Matrix ℝ) : Matrix EReal where
  cols := a.cols
  rows := a.rows.map Vec.lift
  length_of_mem := by
    intro r hr
    obtain ⟨s, hs, rfl⟩ := List.mem_map.mp hr
    rw [Vec.length_lift]
    exact a.length_of_mem s hs

theorem Matrix.column_lift (a : Matrix ℝ) (j : ℕ) : a.lift.column j = Vec.lift (a.column j) := by
  rw [Matrix.column, Matrix.column, Matrix.lift, Vec.lift, List.map_map, List.map_map]
  refine List.map_congr_left fun r _ => ?_
  show (r.map Real.toEReal).getD j 0 = ((r.getD j 0 : ℝ) : EReal)
  rw [← EReal.coe_zero, List.getD_map]

namespace BasicOperator

/-- The operator with its data among the extended reals. -/
def lift : BasicOperator ℝ → BasicOperator EReal
  | matrix a => matrix a.lift
  | identity dim => identity dim
  | diagonal d => diagonal (Vec.lift d)

variable {k : BasicOperator ℝ} {x y : Vec ℝ} {out : Vec EReal}

theorem domainDim_lift (k : BasicOperator ℝ) : k.lift.operator.domainDim = k.operator.domainDim := by
  cases k with
  | matrix a => rfl
  | identity dim => rfl
  | diagonal d => exact Vec.length_lift d

theorem rangeDim_lift (k : BasicOperator ℝ) : k.lift.operator.rangeDim = k.operator.rangeDim := by
  cases k with
  | matrix a => exact List.length_map _
  | identity dim => rfl
  | diagonal d => exact Vec.length_lift d

theorem scaleEntries_lift {d : Vec ℝ} (hx : x.length = d.length) (hout : out.length = d.length) :
    LinearOperator.scaleEntries d.lift x.lift out = some (Vec.lift (List.zipWith (· * ·) d x)) := by
  have hproduct : Vec.zip? (· * ·) d.lift x.lift = some (Vec.lift (List.zipWith (· * ·) d x)) := by
    rw [Vec.zip?_lift fun a b => (EReal.coe_mul a b).symm, Vec.zip?, if_pos hx.symm, Option.map_some]
  rw [LinearOperator.scaleEntries, hproduct]
  refine Vec.write?_eq_some_iff.mpr ⟨?_, rfl⟩
  rw [Vec.length_lift, Vec.length_zipWith_of_length rfl hx, hout]

theorem columnDot?_lift {a : Matrix ℝ} (j : ℕ) (hy : y.length = a.rows.length) :
    a.lift.columnDot? j y.lift = some ((Vec.pairing (a.column j) y : ℝ) : EReal) := by
  have hl : (a.column j).length = y.length := (length_column a j).trans hy.symm
  unfold Matrix.columnDot?
  rw [Matrix.column_lift, Vec.dot?_lift, Vec.stridedDot?_lift, Vec.dot?_eq_pairing hl,
    Vec.stridedDot?_eq_pairing hl]
  -- the two orders of summation differ in floating point only
  by_cases hcols : a.lift.cols = 1
  · rw [if_pos hcols]
    rfl
  · rw [if_neg hcols]
    rfl

/-- **The operator computes what the real one computes.** -/
theorem direct_lift (hx : x.length = k.operator.domainDim) (hout : out.length = k.operator.rangeDim) :
    k.lift.operator.direct x.lift out = some (k.image x).lift := by
  cases k with
  | matrix a =>
    change x.length = a.cols at hx
    show a.lift.mulVec? x.lift out = some (Vec.lift (a.rows.map fun r => Vec.pairing r x))
    have hrows : a.lift.rows.mapM (fun r => Vec.dot? r x.lift) =
        some (Vec.lift (a.rows.map fun r => Vec.pairing r x)) := by
      show (a.rows.map Vec.lift).mapM (fun r => Vec.dot? r x.lift) = _
      rw [List.mapM_map, Vec.lift_map]
      refine mapM_eq_some_map fun r hr => ?_
      show Vec.dot? (Vec.lift r) x.lift = _
      rw [Vec.dot?_lift, Vec.dot?_eq_pairing ((a.length_of_mem r hr).trans hx.symm)]
      rfl
    have hlength : x.lift.length = a.lift.cols := (Vec.length_lift x).trans hx
    rw [Matrix.mulVec?, if_pos hlength, hrows]
    refine Vec.write?_eq_some_iff.mpr ⟨?_, rfl⟩
    rw [Vec.length_lift, List.length_map]
    exact hout.symm
  | identity dim => exact Vec.spread?_eq_self ((Vec.length_lift x).trans (hx.trans hout.symm))
  | diagonal d => exact scaleEntries_lift hx hout

/-- **The adjoint computes what the real one computes.** -/
theorem adjoint_lift (hy : y.length = k.operator.rangeDim) (hout : out.length = k.operator.domainDim) :
    k.lift.operator.adjoint y.lift out = some (k.coimage y).lift := by
  cases k with
  | matrix a =>
    change y.length = a.rows.length at hy
    show a.lift.transposeMulVec? y.lift out =
      some (Vec.lift ((List.range a.cols).map fun j => Vec.pairing (a.column j) y))
    have hcols : (List.range a.lift.cols).mapM (fun j => a.lift.columnDot? j y.lift) =
        some (Vec.lift ((List.range a.cols).map fun j => Vec.pairing (a.column j) y)) := by
      rw [Vec.lift_map]
      exact mapM_eq_some_map fun j _ => columnDot?_lift j hy
    have hlength : y.lift.length = a.lift.rows.length := by
      rw [Vec.length_lift, hy]
      exact (List.length_map _).symm
    rw [Matrix.transposeMulVec?, if_pos hlength, hcols]
    refine Vec.write?_eq_some_iff.mpr ⟨?_, rfl⟩
    rw [Vec.length_lift, List.length_map, List.length_range]
    exact hout.symm
  | identity dim => exact Vec.spread?_eq_self ((Vec.length_lift y).trans (hy.trans hout.symm))
  | diagonal d => exact scaleEntries_lift hy hout

end BasicOperator

/-! ## The sum of adjoints -/

/-- The norms that are known of operators do not enter the sum of their adjoints. -/
theorem adjointSum?_withoutNorm {S : Type} [Scalar S] {total scratch : Vec S}
    {pairs : List (LinearOperator S × Vec S)} : LinearOperator.adjointSum? total scratch pairs =
      LinearOperator.adjointSum? total scratch (pairs.map fun p => (p.1.withoutNorm, p.2)) := by
  induction pairs generalizing total scratch with
  | nil => rfl
  | cons p rest ih =>
    obtain ⟨op, y⟩ := p
    rw [List.map_cons, LinearOperator.adjointSum?, LinearOperator.adjointSum?]
    simp only [← ih]
    rfl

/-- **The sum of adjoints is finite,** and its inner product with any vector is the sum of the inner
    products. -/
theorem adjointSum?_lift {n : ℕ} {total : Vec ℝ} {scratch : Vec EReal}
    {pairs : List (BasicOperator ℝ × Vec ℝ)} (ht : total.length = n) (hs : scratch.length = n)
    (hp : ∀ p ∈ pairs, p.1.operator.domainDim = n ∧ p.2.length = p.1.operator.rangeDim) :
    ∃ w : Vec ℝ, LinearOperator.adjointSum? total.lift scratch
        (pairs.map fun p => (p.1.lift.operator.withoutNorm, p.2.lift)) = some w.lift ∧ w.length = n ∧
      ∀ x, x.length = n →
        Vec.pairing x w =
          Vec.pairing x total + List.sum (pairs.map fun p => Vec.pairing x (p.1.coimage p.2)) := by
  induction pairs generalizing total scratch with
  | nil =>
    refine ⟨total, rfl, ht, fun x _ => ?_⟩
    rw [List.map_nil, List.sum_nil, add_zero]
  | cons p rest ih =>
    obtain ⟨hdim, hlen⟩ := hp p List.mem_cons_self
    have hvalue : (p.1.coimage p.2).length = n := (p.1.length_coimage hlen).trans hdim
    have hinto : p.1.lift.operator.withoutNorm.adjointInto p.2.lift scratch =
        some (Vec.lift (p.1.coimage p.2)) := by
      have hadjoint := p.1.adjoint_lift hlen (hs.trans hdim.symm)
      refine Option.bind_eq_some_iff.mpr ⟨_, hadjoint, Vec.write?_eq_some_iff.mpr ⟨?_, rfl⟩⟩
      rw [Vec.length_lift, hvalue, hs]
    have htotal : (List.zipWith (· + ·) total (p.1.coimage p.2)).length = n :=
      Vec.length_zipWith_of_length ht hvalue
    have hsum : Vec.zip? (· + ·) total.lift (Vec.lift (p.1.coimage p.2)) =
        some (Vec.lift (List.zipWith (· + ·) total (p.1.coimage p.2))) := by
      rw [Vec.zip?_lift fun a b => (EReal.coe_add a b).symm, Vec.zip?, if_pos (ht.trans hvalue.symm),
        Option.map_some]
    have hspread : (Vec.lift (p.1.coimage p.2)).length = total.lift.length := by
      rw [Vec.length_lift, Vec.length_lift, hvalue, ht]
    obtain ⟨w, hw, hwl, hwp⟩ := ih htotal ((Vec.length_lift _).trans hvalue)
      fun q hq => hp q (List.mem_cons_of_mem p hq)
    refine ⟨w, ?_, hwl, ?_⟩
    · rw [List.map_cons, LinearOperator.adjointSum?]
      simp only [hinto, Vec.spread?_eq_self hspread, hsum, Option.bind_eq_bind, Option.bind_some]
      exact hw
    · intro x hx
      rw [hwp x hx, Vec.pairing_add_right (hx.trans ht.symm) (ht.trans hvalue.symm), List.map_cons,
        List.sum_cons, add_assoc]

end Splitting
