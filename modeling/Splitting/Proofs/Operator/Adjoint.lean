import Splitting.Operator.Matrix
import Splitting.Operator.Stack
import Splitting.Proofs.Buffers
import Splitting.Proofs.Exact.Coordinates

/-!
# `Splitting.Proofs.Operator.Adjoint` — operators whose adjoint is linear

In exact arithmetic the adjoint of an operator is a linear map of vectors: it has a value wherever the
lengths fit, whatever the buffer held before, and the value depends linearly on the argument. The operators
of this library are of this kind.

* `LinearOperator.adjointOf` — `Kᵀ y`, in a fresh buffer;
* `LinearOperator.LinearAdjoint` — the law;
* `LinearOperator.adjointSum?_eq_some` — the sum that a stack of such operators computes;
* `BasicOperator` — a dense matrix, an identity or a diagonal scaling, and what its two maps compute;
* `BasicOperator.pairing_image` — the second is the adjoint of the first;
* `BasicOperator.linearAdjoint`, `BasicOperator.overwrites` — the law for them, and that they overwrite their
  buffers in any arithmetic.
-/

namespace Splitting

theorem mapM_eq_some_map {α β : Type} {f : α → Option β} {g : α → β} {l : List α}
    (h : ∀ a ∈ l, f a = some (g a)) : l.mapM f = some (l.map g) := by
  induction l with
  | nil => rfl
  | cons a l ih =>
    rw [List.mapM_cons, h a List.mem_cons_self, ih fun b hb => h b (List.mem_cons_of_mem a hb)]
    rfl

namespace LinearOperator

/-- `Kᵀ y`, in a fresh buffer. -/
def adjointOf {S : Type} [Scalar S] (op : LinearOperator S) (y : Vec S) : Vec S :=
  (op.adjoint y (Vec.zeros op.domainDim)).getD []

/-- The adjoint overwrites its buffer with a vector that depends linearly on the argument. -/
structure LinearAdjoint (op : LinearOperator ℝ) : Prop where
  adjoint_eq : ∀ y out, y.length = op.rangeDim → out.length = op.domainDim →
    op.adjoint y out = some (op.adjointOf y)
  length_adjointOf : ∀ y, y.length = op.rangeDim → (op.adjointOf y).length = op.domainDim
  adjointOf_add : ∀ y y', y.length = op.rangeDim → y'.length = op.rangeDim →
    op.adjointOf (List.zipWith (· + ·) y y') = List.zipWith (· + ·) (op.adjointOf y) (op.adjointOf y')
  adjointOf_smul : ∀ (c : ℝ) y, y.length = op.rangeDim →
    op.adjointOf (y.map (c * ·)) = (op.adjointOf y).map (c * ·)

namespace LinearAdjoint

variable {op : LinearOperator ℝ}

theorem adjointInto_eq (h : op.LinearAdjoint) {y out : Vec ℝ} (hy : y.length = op.rangeDim)
    (hout : out.length = op.domainDim) : op.adjointInto y out = some (op.adjointOf y) := by
  rw [adjointInto, h.adjoint_eq y out hy hout]
  exact Vec.write?_eq_some_iff.mpr ⟨(h.length_adjointOf y hy).trans hout.symm, rfl⟩

/-- The law for an operator whose adjoint computes a linear map `A`. -/
theorem of_map {A : Vec ℝ → Vec ℝ}
    (heval : ∀ y out, y.length = op.rangeDim → out.length = op.domainDim → op.adjoint y out = some (A y))
    (hlength : ∀ y, y.length = op.rangeDim → (A y).length = op.domainDim)
    (hadd : ∀ y y', y.length = op.rangeDim → y'.length = op.rangeDim →
      A (List.zipWith (· + ·) y y') = List.zipWith (· + ·) (A y) (A y'))
    (hsmul : ∀ (c : ℝ) y, y.length = op.rangeDim → A (y.map (c * ·)) = (A y).map (c * ·)) :
    op.LinearAdjoint := by
  have hA : ∀ y, y.length = op.rangeDim → op.adjointOf y = A y := by
    intro y hy
    rw [adjointOf, heval y _ hy (Vec.length_zeros _)]
    rfl
  refine ⟨?_, ?_, ?_, ?_⟩
  · intro y out hy hout
    rw [heval y out hy hout, hA y hy]
  · intro y hy
    rw [hA y hy, hlength y hy]
  · intro y y' hy hy'
    have hsum : (List.zipWith (· + ·) y y').length = op.rangeDim := Vec.length_zipWith_of_length hy hy'
    rw [hA _ hsum, hA y hy, hA y' hy', hadd y y' hy hy']
  · intro c y hy
    rw [hA _ ((List.length_map _).trans hy), hA y hy, hsmul c y hy]

/-- The adjoint of a change is the change of the adjoint. -/
theorem coords_adjointOf_sub (h : op.LinearAdjoint) {y y' : Vec ℝ} (hy : y.length = op.rangeDim)
    (hy' : y'.length = op.rangeDim) :
    (op.adjointOf (List.zipWith (fun old new => new - old) y y')).coords =
      (op.adjointOf y').coords - (op.adjointOf y).coords := by
  have hlength : (List.zipWith (fun old new => new - old) y y').length = op.rangeDim :=
    Vec.length_zipWith_of_length hy hy'
  have hback : List.zipWith (· + ·) y (List.zipWith (fun old new => new - old) y y') = y' := by
    refine Vec.eq_of_coords ((Vec.length_zipWith_of_length hy hlength).trans hy'.symm) ?_
    rw [Vec.coords_add (hy.trans hlength.symm), Vec.coords_sub (hy.trans hy'.symm), add_sub_cancel]
  have hadd := congrArg Vec.coords (h.adjointOf_add _ _ hy hlength)
  rw [hback, Vec.coords_add ((h.length_adjointOf _ hy).trans (h.length_adjointOf _ hlength).symm)] at hadd
  rw [hadd, add_sub_cancel_left]

/-- The adjoint of zero is zero. -/
theorem coords_adjointOf_zeros (h : op.LinearAdjoint) :
    (op.adjointOf (Vec.zeros op.rangeDim)).coords = 0 := by
  have hzero : (Vec.zeros op.rangeDim : Vec ℝ).length = op.rangeDim := Vec.length_zeros _
  have hsmul := congrArg Vec.coords (h.adjointOf_smul 0 _ hzero)
  have hzeros : (Vec.zeros op.rangeDim : Vec ℝ).map (0 * ·) = Vec.zeros op.rangeDim := by
    refine Vec.eq_of_coords (List.length_map _) ?_
    funext i
    rw [Vec.coords_map (mul_zero 0), zero_mul, Vec.coords_zeros]
    rfl
  rw [hzeros] at hsmul
  rw [hsmul]
  funext i
  rw [Vec.coords_map (mul_zero 0), zero_mul]
  rfl

end LinearAdjoint

/-- The sum of adjoints that is computed block by block is the sum of the adjoints. -/
theorem adjointSum?_eq_some {n : ℕ} {total scratch : Vec ℝ} {pairs : List (LinearOperator ℝ × Vec ℝ)}
    (ht : total.length = n) (hs : scratch.length = n)
    (hp : ∀ p ∈ pairs, p.1.LinearAdjoint ∧ p.1.domainDim = n ∧ p.2.length = p.1.rangeDim) :
    ∃ v, adjointSum? total scratch pairs = some v ∧ v.length = n ∧
      v.coords = total.coords + (pairs.map fun p => (p.1.adjointOf p.2).coords).sum := by
  -- for every partial sum and every content of the buffer, as both change from block to block
  induction pairs generalizing total scratch with
  | nil => exact ⟨total, rfl, ht, by simp⟩
  | cons p rest ih =>
    obtain ⟨hlinear, hdim, hlen⟩ := hp p List.mem_cons_self
    have hvalue : (p.1.adjointOf p.2).length = n := (hlinear.length_adjointOf _ hlen).trans hdim
    have hinto : p.1.adjointInto p.2 scratch = some (p.1.adjointOf p.2) :=
      hlinear.adjointInto_eq hlen (hs.trans hdim.symm)
    have htotal : (List.zipWith (· + ·) total (p.1.adjointOf p.2)).length = n :=
      Vec.length_zipWith_of_length ht hvalue
    obtain ⟨v, hv, hvl, hvc⟩ := ih htotal hvalue fun q hq => hp q (List.mem_cons_of_mem p hq)
    refine ⟨v, ?_, hvl, ?_⟩
    · obtain ⟨op, y⟩ := p
      simp only [adjointSum?, hinto, Vec.spread?_eq_self (hvalue.trans ht.symm),
        Vec.zip?, if_pos (ht.trans hvalue.symm), Option.bind_eq_bind, Option.bind_some]
      exact hv
    · rw [hvc, Vec.coords_add (ht.trans hvalue.symm), List.map_cons, List.sum_cons, add_assoc]

end LinearOperator

/-! ## The operators of this library -/

/-- The operators of this library. -/
inductive BasicOperator (S : Type) where
  | matrix (a : Matrix S)
  | identity (dim : Nat)
  | diagonal (d : Vec S)

namespace BasicOperator

/-- The operator itself. -/
def operator {S : Type} [Scalar S] : BasicOperator S → LinearOperator S
  | matrix a => .matrix a
  | identity dim => .identity dim
  | diagonal d => .diagonal d

/-- Both its maps overwrite their buffers, in any arithmetic. -/
theorem overwrites {S : Type} [Scalar S] (k : BasicOperator S) : k.operator.Overwrites := by
  cases k with
  | matrix a => exact LinearOperator.overwrites_matrix a
  | identity dim => exact LinearOperator.overwrites_identity dim
  | diagonal d => exact LinearOperator.overwrites_diagonal d

/-- What the operator computes. -/
noncomputable def image : BasicOperator ℝ → Vec ℝ → Vec ℝ
  | matrix a, x => a.rows.map fun r => Vec.pairing r x
  | identity _, x => x
  | diagonal d, x => List.zipWith (· * ·) d x

/-- What its adjoint computes. -/
noncomputable def coimage : BasicOperator ℝ → Vec ℝ → Vec ℝ
  | matrix a, y => (List.range a.cols).map fun j => Vec.pairing (a.column j) y
  | identity _, y => y
  | diagonal d, y => List.zipWith (· * ·) d y

theorem scaleEntries_eq {d x out : Vec ℝ} (hx : x.length = d.length) (hout : out.length = d.length) :
    LinearOperator.scaleEntries d x out = some (List.zipWith (· * ·) d x) := by
  have hl : (List.zipWith (· * ·) d x).length = out.length :=
    Vec.length_zipWith_of_length hout.symm (hx.trans hout.symm)
  rw [LinearOperator.scaleEntries, Vec.zip?_eq_some_iff.mpr ⟨hx.symm, rfl⟩]
  exact Vec.write?_eq_some_iff.mpr ⟨hl, rfl⟩

theorem length_column (a : Matrix ℝ) (j : Nat) : (a.column j).length = a.rows.length := List.length_map _

/-- Both orders of summation give the inner product with a column. -/
theorem columnDot?_eq {a : Matrix ℝ} {j : Nat} {y : Vec ℝ} (hy : y.length = a.rows.length) :
    a.columnDot? j y = some (Vec.pairing (a.column j) y) := by
  have hl : (a.column j).length = y.length := (length_column a j).trans hy.symm
  unfold Matrix.columnDot?
  split
  · exact Vec.dot?_eq_pairing hl
  · exact Vec.stridedDot?_eq_pairing hl

theorem direct_eq (k : BasicOperator ℝ) {x out : Vec ℝ} (hx : x.length = k.operator.domainDim)
    (hout : out.length = k.operator.rangeDim) : k.operator.direct x out = some (k.image x) := by
  cases k with
  | matrix a =>
    change x.length = a.cols at hx
    change a.mulVec? x out = _
    have hrows : a.rows.mapM (fun r => Vec.dot? r x) = some (a.rows.map fun r => Vec.pairing r x) :=
      mapM_eq_some_map fun r hr => Vec.dot?_eq_pairing ((a.length_of_mem r hr).trans hx.symm)
    rw [Matrix.mulVec?, if_pos hx, hrows]
    exact Vec.write?_eq_some_iff.mpr ⟨(List.length_map _).trans hout.symm, rfl⟩
  | identity dim => exact Vec.spread?_eq_self (hx.trans hout.symm)
  | diagonal d => exact scaleEntries_eq hx hout

theorem adjoint_eq (k : BasicOperator ℝ) {y out : Vec ℝ} (hy : y.length = k.operator.rangeDim)
    (hout : out.length = k.operator.domainDim) : k.operator.adjoint y out = some (k.coimage y) := by
  cases k with
  | matrix a =>
    change y.length = a.rows.length at hy
    change a.transposeMulVec? y out = _
    have hcols : (List.range a.cols).mapM (fun j => a.columnDot? j y) =
        some ((List.range a.cols).map fun j => Vec.pairing (a.column j) y) :=
      mapM_eq_some_map fun j _ => columnDot?_eq hy
    rw [Matrix.transposeMulVec?, if_pos hy, hcols]
    refine Vec.write?_eq_some_iff.mpr ⟨?_, rfl⟩
    rw [List.length_map, List.length_range]
    exact hout.symm
  | identity dim => exact Vec.spread?_eq_self (hy.trans hout.symm)
  | diagonal d => exact scaleEntries_eq hy hout

theorem length_image (k : BasicOperator ℝ) {x : Vec ℝ} (hx : x.length = k.operator.domainDim) :
    (k.image x).length = k.operator.rangeDim := by
  cases k with
  | matrix a => exact List.length_map _
  | identity dim => exact hx
  | diagonal d => exact Vec.length_zipWith_of_length rfl hx

theorem length_coimage (k : BasicOperator ℝ) {y : Vec ℝ} (hy : y.length = k.operator.rangeDim) :
    (k.coimage y).length = k.operator.domainDim := by
  cases k with
  | matrix a =>
    rw [coimage, List.length_map, List.length_range]
    rfl
  | identity dim => exact hy
  | diagonal d => exact Vec.length_zipWith_of_length rfl hy

theorem coimage_add (k : BasicOperator ℝ) {y y' : Vec ℝ} (hy : y.length = k.operator.rangeDim)
    (hy' : y'.length = k.operator.rangeDim) :
    k.coimage (List.zipWith (· + ·) y y') = List.zipWith (· + ·) (k.coimage y) (k.coimage y') := by
  cases k with
  | matrix a =>
    simp only [coimage]
    rw [List.zipWith_map, List.zipWith_self]
    refine List.map_congr_left fun j _ => ?_
    exact Vec.pairing_add_right ((length_column a j).trans hy.symm) (hy.trans hy'.symm)
  | identity dim => rfl
  | diagonal d =>
    have hd : d.length = y.length := hy.symm
    have hd' : d.length = y'.length := hy'.symm
    have hsum : d.length = (List.zipWith (· + ·) y y').length :=
      (Vec.length_zipWith_of_length hd.symm hd'.symm).symm
    have hprod : (List.zipWith (· * ·) d y).length = (List.zipWith (· * ·) d y').length := by
      rw [List.length_zipWith, List.length_zipWith, ← hd, ← hd']
    refine Vec.eq_of_coords ?_ ?_
    · simp only [coimage, List.length_zipWith, ← hd, ← hd', Nat.min_self]
    · funext i
      simp only [coimage]
      rw [Vec.coords_zipWith (mul_zero 0) hsum, Vec.coords_add hprod, Vec.coords_add (hd.symm.trans hd'),
        Pi.add_apply, Pi.add_apply, Vec.coords_zipWith (mul_zero 0) hd, Vec.coords_zipWith (mul_zero 0) hd',
        mul_add]

theorem coimage_smul (k : BasicOperator ℝ) (c : ℝ) {y : Vec ℝ} (hy : y.length = k.operator.rangeDim) :
    k.coimage (y.map (c * ·)) = (k.coimage y).map (c * ·) := by
  cases k with
  | matrix a =>
    simp only [coimage, List.map_map]
    refine List.map_congr_left fun j _ => ?_
    exact Vec.pairing_smul_right c ((length_column a j).trans hy.symm)
  | identity dim => rfl
  | diagonal d =>
    simp only [coimage, List.zipWith_map_right, List.map_zipWith]
    congr 1
    funext a b
    ring

theorem coimage_zeros (k : BasicOperator ℝ) :
    k.coimage (Vec.zeros k.operator.rangeDim) = Vec.zeros k.operator.domainDim := by
  have hzero : ∀ y : Vec ℝ, y.map ((0 : ℝ) * ·) = Vec.zeros y.length := by
    intro y
    simp only [zero_mul]
    exact List.map_const'
  have hsmul := k.coimage_smul 0 (Vec.length_zeros k.operator.rangeDim)
  rwa [hzero, hzero, k.length_coimage (Vec.length_zeros _), Vec.length_zeros] at hsmul

theorem coords_image_matrix {a : Matrix ℝ} {x : Vec ℝ} (hx : x.length = a.cols) {i : ℕ}
    (hi : i < a.rows.length) : (image (matrix a) x).coords i =
      ∑ j ∈ Finset.range x.length, (a.rows.getD i []).coords j * x.coords j := by
  have hlength : (a.rows.getD i []).length = x.length := by
    rw [List.getD_eq_getElem _ _ hi, hx]
    exact a.length_of_mem _ (List.getElem_mem hi)
  rw [image, Vec.coords_map_of_lt hi [], Vec.pairing_eq_sum hlength, hlength]

theorem coords_coimage_matrix {a : Matrix ℝ} {y : Vec ℝ} (hy : y.length = a.rows.length) {j : ℕ}
    (hj : j < a.cols) : (coimage (matrix a) y).coords j =
      ∑ i ∈ Finset.range y.length, (a.rows.getD i []).coords j * y.coords i := by
  have hj' : j < (List.range a.cols).length := by rwa [List.length_range]
  have hindex : (List.range a.cols).getD j 0 = j := by
    rw [List.getD_eq_getElem _ _ hj', List.getElem_range]
  have hlength : (a.column j).length = y.length := (length_column a j).trans hy.symm
  rw [coimage, Vec.coords_map_of_lt hj' 0, hindex, Vec.pairing_eq_sum hlength, hlength]
  refine Finset.sum_congr rfl fun i hi => ?_
  have hi' : i < a.rows.length := hy ▸ Finset.mem_range.mp hi
  rw [Matrix.column, Vec.coords_map_of_lt hi' [], Vec.coords_apply (a.rows.getD i [])]

/-- The transpose of a matrix is its adjoint. -/
theorem pairing_image_matrix (a : Matrix ℝ) {x y : Vec ℝ} (hx : x.length = a.cols)
    (hy : y.length = a.rows.length) :
    Vec.pairing (image (matrix a) x) y = Vec.pairing x (coimage (matrix a) y) := by
  have himage : (image (matrix a) x).length = y.length := (List.length_map _).trans hy.symm
  have hcoimage : x.length = (coimage (matrix a) y).length := by
    rw [coimage, List.length_map, List.length_range, hx]
  -- both sides are the double sum over rows and columns, in the two orders
  have hrow : ∀ i ∈ Finset.range y.length, (image (matrix a) x).coords i * y.coords i =
      ∑ j ∈ Finset.range x.length, (a.rows.getD i []).coords j * x.coords j * y.coords i := by
    intro i hi
    rw [coords_image_matrix hx (hy ▸ Finset.mem_range.mp hi), Finset.sum_mul]
  have hcolumn : ∀ j ∈ Finset.range x.length, x.coords j * (coimage (matrix a) y).coords j =
      ∑ i ∈ Finset.range y.length, (a.rows.getD i []).coords j * x.coords j * y.coords i := by
    intro j hj
    rw [coords_coimage_matrix hy (hx ▸ Finset.mem_range.mp hj), Finset.mul_sum]
    refine Finset.sum_congr rfl fun i _ => ?_
    ring
  rw [Vec.pairing_eq_sum himage, himage, Finset.sum_congr rfl hrow, Finset.sum_comm,
    Vec.pairing_eq_sum hcoimage, Finset.sum_congr rfl hcolumn]

/-- **The adjoint is the adjoint:** `⟨K x, y⟩ = ⟨x, Kᵀ y⟩`. -/
theorem pairing_image (k : BasicOperator ℝ) {x y : Vec ℝ} (hx : x.length = k.operator.domainDim)
    (hy : y.length = k.operator.rangeDim) : Vec.pairing (k.image x) y = Vec.pairing x (k.coimage y) := by
  cases k with
  | matrix a => exact pairing_image_matrix a hx hy
  | identity dim => rfl
  | diagonal d =>
    have hdx : d.length = x.length := hx.symm
    have hdy : d.length = y.length := hy.symm
    have hleft : (List.zipWith (· * ·) d x).length = y.length :=
      Vec.length_zipWith_of_length hdy (hdx.symm.trans hdy)
    have hright : x.length = (List.zipWith (· * ·) d y).length :=
      (Vec.length_zipWith_of_length hdx (hdy.symm.trans hdx)).symm
    show Vec.pairing (List.zipWith (· * ·) d x) y = Vec.pairing x (List.zipWith (· * ·) d y)
    rw [Vec.pairing_eq_sum hleft, Vec.pairing_eq_sum hright, hleft, ← hdy, hdx]
    refine Finset.sum_congr rfl fun i _ => ?_
    rw [Vec.coords_zipWith (mul_zero 0) hdx, Vec.coords_zipWith (mul_zero 0) hdy]
    ring

/-- **The adjoints of dense matrices, identities and diagonal scalings are linear.** -/
theorem linearAdjoint (k : BasicOperator ℝ) : k.operator.LinearAdjoint :=
  .of_map (fun _ _ => k.adjoint_eq) (fun _ => k.length_coimage) (fun _ _ => k.coimage_add)
    fun c _ => k.coimage_smul c

end BasicOperator

end Splitting
