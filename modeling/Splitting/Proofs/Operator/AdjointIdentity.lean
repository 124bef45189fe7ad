import Splitting.Proofs.Functional.OnPoints

/-!
# `Splitting.Proofs.Operator.AdjointIdentity` — the two maps of an operator belong together

The products of a matrix with a vector run over its rows, those of the transpose over its columns, and the two are
summed in different orders; a stack adds up the adjoints of its blocks in a buffer that is filled with zeros first. In
exact arithmetic none of this shows: `⟨K x, y⟩ = ⟨x, Kᵀ y⟩`, for single operators and for stacks of them.

* `SummationOrder`, `Matrix.operatorIn` — matrices summed in any orders, and `Matrix.operatorIn_eq`, that the order does
  not matter;
* `LinearOperator.WritesLinearly` — a map that overwrites its buffer with a linear function of the argument;
* `LinearOperator.AdjointPair.direct_writesLinearly`, `LinearOperator.AdjointPair.adjoint_writesLinearly` — maps
  that are adjoint to each other are of this kind;
* `OperatorStack.pairing_adjoint?` — the identity for stacks;
* `adjoint_identity` — the main statement.
-/

namespace Splitting

open scoped RealInnerProductSpace

/-! ## Orders of summation -/

/-- The two orders in which the products of an inner product are summed: eight lanes for vectors that lie in one
    piece, from left to right for strided ones. -/
inductive SummationOrder where
  | lanes
  | plain
deriving DecidableEq, Repr

namespace SummationOrder

/-- The inner product, with its products summed in the given order. -/
def dot? {S : Type} [Scalar S] : SummationOrder → Vec S → Vec S → Option S
  | lanes => Vec.dot?
  | plain => Vec.stridedDot?

/-- In exact arithmetic the order does not matter. -/
theorem dot?_eq (order : SummationOrder) : (order.dot? : Vec ℝ → Vec ℝ → Option ℝ) = Vec.dot? := by
  cases order with
  | lanes => rfl
  | plain =>
    have hsum : (Vec.sum : Vec ℝ → ℝ) = Vec.laneSum := by
      funext products
      rw [Vec.sum_eq_sum, Vec.laneSum_eq_sum]
    funext x y
    rw [dot?, Vec.stridedDot?, Vec.dot?, hsum]

end SummationOrder

namespace Matrix

section

variable {S : Type} [Scalar S]

/-- A dense matrix as an operator, the products with its rows and those with its columns summed in the given
    orders. -/
def operatorIn (a : Matrix S) (rows columns : SummationOrder) : LinearOperator S where
  domainDim := a.cols
  rangeDim := a.rows.length
  direct x out :=
    if x.length = a.cols then do
      Vec.write? out (← a.rows.mapM fun r => rows.dot? r x)
    else none
  adjoint y out :=
    if y.length = a.rows.length then do
      Vec.write? out (← (List.range a.cols).mapM fun j => columns.dot? (a.column j) y)
    else none
  knownNorm := none

/-- Rows lie in one piece, and so does a single column. -/
theorem matrix_eq_operatorIn (a : Matrix S) : LinearOperator.matrix a =
    a.operatorIn .lanes (if a.cols = 1 then .lanes else .plain) := by
  have hcolumn : ∀ j y, a.columnDot? j y =
      (if a.cols = 1 then SummationOrder.lanes else .plain).dot? (a.column j) y := by
    intro j y
    unfold columnDot?
    split
    · rfl
    · rfl
  have hcoimage : a.transposeMulVec? =
      (a.operatorIn .lanes (if a.cols = 1 then .lanes else .plain)).adjoint := by
    funext y out
    simp only [transposeMulVec?, operatorIn, hcolumn]
  rw [LinearOperator.matrix, hcoimage]
  rfl

end

/-- **The order of summation does not matter.** -/
theorem operatorIn_eq (a : Matrix ℝ) (rows columns : SummationOrder) :
    a.operatorIn rows columns = LinearOperator.matrix a := by
  rw [matrix_eq_operatorIn]
  simp only [operatorIn, SummationOrder.dot?_eq]

end Matrix

/-! ## Maps that are adjoint to each other -/

/-- Vectors that no inner product tells apart are equal. -/
theorem Vec.eq_of_pairing {n : ℕ} {u v : Vec ℝ} (hu : u.length = n) (hv : v.length = n)
    (h : ∀ y, y.length = n → pairing u y = pairing v y) : u = v := by
  obtain ⟨p, rfl⟩ := exists_ofPoint hu
  obtain ⟨q, rfl⟩ := exists_ofPoint hv
  refine congrArg ofPoint (ext_inner_right ℝ fun y => ?_)
  rw [← pairing_ofPoint, ← pairing_ofPoint]
  exact h _ (length_ofPoint y)

theorem Vec.pairing_add_left {x x' y : Vec ℝ} (h : x.length = y.length) (h' : x'.length = y.length) :
    pairing (List.zipWith (· + ·) x x') y = pairing x y + pairing x' y := by
  rw [pairing_comm, pairing_add_right h.symm (h.trans h'.symm), pairing_comm y, pairing_comm y]

theorem Vec.pairing_smul_left {x y : Vec ℝ} (c : ℝ) (h : x.length = y.length) :
    pairing (x.map (c * ·)) y = c * pairing x y := by
  rw [pairing_comm, pairing_smul_right c h.symm, pairing_comm]

namespace LinearOperator

/-- What a map writes is a linear function `A` of its argument, from vectors of length `n` to vectors of length `m`,
    whatever the buffer held before. -/
structure WritesLinearly (n m : ℕ) (write : Vec ℝ → Vec ℝ → Option (Vec ℝ)) (A : Vec ℝ → Vec ℝ) : Prop where
  eval : ∀ x out, x.length = n → out.length = m → write x out = some (A x)
  length : ∀ x, x.length = n → (A x).length = m
  add : ∀ x x', x.length = n → x'.length = n →
    A (List.zipWith (· + ·) x x') = List.zipWith (· + ·) (A x) (A x')
  smul : ∀ (c : ℝ) x, x.length = n → A (x.map (c * ·)) = (A x).map (c * ·)

/-- The operator with its maps exchanged. -/
def transpose {S : Type} (op : LinearOperator S) : LinearOperator S where
  domainDim := op.rangeDim
  rangeDim := op.domainDim
  direct := op.adjoint
  adjoint := op.direct
  knownNorm := op.knownNorm

/-- `K x`, in a fresh buffer. -/
def imageOf {S : Type} [Scalar S] (op : LinearOperator S) (x : Vec S) : Vec S := op.transpose.adjointOf x

/-- The operator is a dense matrix, an identity or a diagonal scaling, or wraps one: then its maps are the same, and it
    may say something else about the norm, or nothing. -/
def Wraps (op : LinearOperator ℝ) (k : BasicOperator ℝ) : Prop :=
  ∃ norm, op = { k.operator with knownNorm := norm }

namespace AdjointPair

variable {op : LinearOperator ℝ} {image coimage : Vec ℝ → Vec ℝ}

theorem transpose (h : op.AdjointPair image coimage) : op.transpose.AdjointPair coimage image where
  direct_eq := h.adjoint_eq
  adjoint_eq := h.direct_eq
  length_image := h.length_coimage
  length_coimage := h.length_image
  pairing_image y x hy hx := by
    rw [Vec.pairing_comm, ← h.pairing_image x y hx hy, Vec.pairing_comm]

/-- **A map with an adjoint is linear,** as its inner products with all vectors are. -/
theorem direct_writesLinearly (h : op.AdjointPair image coimage) :
    WritesLinearly op.domainDim op.rangeDim op.directInto image where
  eval x out hx hout := by
    rw [directInto, h.direct_eq x out hx hout]
    exact Vec.write?_eq_some_iff.mpr ⟨(h.length_image x hx).trans hout.symm, rfl⟩
  length := h.length_image
  add x x' hx hx' := by
    have hsum : (List.zipWith (· + ·) x x').length = op.domainDim := Vec.length_zipWith_of_length hx hx'
    have himage := h.length_image x hx
    have himage' := h.length_image x' hx'
    refine Vec.eq_of_pairing (h.length_image _ hsum) (Vec.length_zipWith_of_length himage himage') fun y hy => ?_
    have hy' := h.length_coimage y hy
    rw [h.pairing_image _ y hsum hy, Vec.pairing_add_left (hx.trans hy'.symm) (hx'.trans hy'.symm),
      Vec.pairing_add_left (himage.trans hy.symm) (himage'.trans hy.symm), h.pairing_image x y hx hy,
      h.pairing_image x' y hx' hy]
  smul c x hx := by
    have hscaled : (x.map (c * ·)).length = op.domainDim := (List.length_map _).trans hx
    have himage := h.length_image x hx
    refine Vec.eq_of_pairing (h.length_image _ hscaled) ((List.length_map _).trans himage) fun y hy => ?_
    rw [h.pairing_image _ y hscaled hy, Vec.pairing_smul_left c (hx.trans (h.length_coimage y hy).symm),
      Vec.pairing_smul_left c (himage.trans hy.symm), h.pairing_image x y hx hy]

theorem adjoint_writesLinearly (h : op.AdjointPair image coimage) :
    WritesLinearly op.rangeDim op.domainDim op.adjointInto coimage :=
  h.transpose.direct_writesLinearly

/-- Such an operator has a linear adjoint. -/
theorem linearAdjoint (h : op.AdjointPair image coimage) : op.LinearAdjoint :=
  .of_map h.adjoint_eq h.length_coimage h.adjoint_writesLinearly.add h.adjoint_writesLinearly.smul

theorem adjointOf_eq (h : op.AdjointPair image coimage) {y : Vec ℝ} (hy : y.length = op.rangeDim) :
    op.adjointOf y = coimage y := by
  rw [adjointOf, h.adjoint_eq y _ hy (Vec.length_zeros _), Option.getD_some]

theorem imageOf_eq (h : op.AdjointPair image coimage) {x : Vec ℝ} (hx : x.length = op.domainDim) :
    op.imageOf x = image x :=
  h.transpose.adjointOf_eq hx

end AdjointPair

/-- A wrapper has the maps of what it wraps. -/
theorem Wraps.adjointPair {op : LinearOperator ℝ} {k : BasicOperator ℝ} (h : op.Wraps k) :
    op.AdjointPair k.image k.coimage := by
  obtain ⟨norm, rfl⟩ := h
  have hk := k.adjointPair
  exact ⟨hk.direct_eq, hk.adjoint_eq, hk.length_image, hk.length_coimage, hk.pairing_image⟩

end LinearOperator

/-! ## Stacks -/

/-- The inner product with a vector, as a linear map of sequences. -/
noncomputable def Vec.covector (x : Vec ℝ) : (ℕ → ℝ) →ₗ[ℝ] ℝ :=
  ∑ i ∈ Finset.range x.length, x.coords i • LinearMap.proj i

theorem Vec.pairing_eq_covector {x y : Vec ℝ} (h : x.length = y.length) : pairing x y = x.covector y.coords := by
  rw [pairing_eq_sum h, covector, LinearMap.sum_apply]
  rfl

namespace OperatorStack

variable {stack : OperatorStack ℝ} {x : Vec ℝ} {ys : List (Vec ℝ)}

/-- **The identity for stacks.** The adjoint sum is the same in any buffer, and its inner product with `x` is the sum of
    the inner products of the blocks' images. -/
theorem pairing_adjoint? (h : ∀ op ∈ stack.blocks, ∃ image coimage, op.AdjointPair image coimage)
    (hx : x.length = stack.domainDim) (hys : List.Forall₂ (fun op y => y.length = op.rangeDim) stack.blocks ys) :
    ∃ images w,
      List.Forall₂ (fun op v => ∀ out, out.length = op.rangeDim → op.directInto x out = some v) stack.blocks images ∧
      w.length = stack.domainDim ∧ (∀ out, out.length = stack.domainDim → stack.adjoint? ys out = some w) ∧
      List.sum (List.zipWith Vec.pairing images ys) = Vec.pairing x w := by
  have hdim := stack.domainDim_of_mem
  have hpairs : ∀ p ∈ stack.blocks.zip ys, p.1 ∈ stack.blocks ∧ p.2.length = p.1.rangeDim := by
    intro p hp
    exact ⟨(List.of_mem_zip hp).1, (List.forall₂_iff_zip.mp hys).2 hp⟩
  have hlinear : ∀ p ∈ stack.blocks.zip ys,
      p.1.LinearAdjoint ∧ p.1.domainDim = stack.domainDim ∧ p.2.length = p.1.rangeDim := by
    intro p hp
    obtain ⟨hmem, hl⟩ := hpairs p hp
    obtain ⟨image, coimage, hpair⟩ := h p.1 hmem
    exact ⟨hpair.linearAdjoint, hdim p.1 hmem, hl⟩
  have hzeros : (Vec.zeros stack.domainDim : Vec ℝ).length = stack.domainDim := Vec.length_zeros _
  obtain ⟨w, hw, hwl, hwc⟩ := LinearOperator.adjointSum?_eq_some hzeros hzeros hlinear
  rw [Vec.coords_zeros, zero_add] at hwc
  refine ⟨stack.blocks.map (·.imageOf x), w, ?_, hwl, ?_, ?_⟩
  · rw [List.forall₂_map_right_iff, List.forall₂_same]
    intro op hop out hout
    obtain ⟨image, coimage, hpair⟩ := h op hop
    have hx' : x.length = op.domainDim := hx.trans (hdim op hop).symm
    rw [hpair.imageOf_eq hx']
    exact hpair.direct_writesLinearly.eval x out hx' hout
  · intro out hout
    rw [adjoint?, hout]
    exact hw
  · have hterm : ∀ p ∈ stack.blocks.zip ys,
        x.covector (p.1.adjointOf p.2).coords = Vec.pairing (p.1.imageOf x) p.2 := by
      intro p hp
      obtain ⟨hmem, hl⟩ := hpairs p hp
      obtain ⟨image, coimage, hpair⟩ := h p.1 hmem
      have hx' : x.length = p.1.domainDim := hx.trans (hdim p.1 hmem).symm
      rw [hpair.imageOf_eq hx', hpair.adjointOf_eq hl, ← Vec.pairing_eq_covector
        (hx'.trans (hpair.length_coimage _ hl).symm), hpair.pairing_image x p.2 hx' hl]
    calc List.sum (List.zipWith Vec.pairing (stack.blocks.map (·.imageOf x)) ys)
        = List.sum ((stack.blocks.zip ys).map fun p => Vec.pairing (p.1.imageOf x) p.2) := by
          rw [List.zipWith_map_left, List.zip, List.map_zipWith]
      _ = List.sum ((stack.blocks.zip ys).map fun p => x.covector (p.1.adjointOf p.2).coords) := by
          rw [List.map_congr_left hterm]
      _ = x.covector w.coords := by
          rw [hwc, map_list_sum, List.map_map]
          rfl
      _ = Vec.pairing x w := (Vec.pairing_eq_covector (hx.trans hwl.symm)).symm

end OperatorStack

/-- **The adjoint identity.** Take any operator that is a dense matrix, an identity or a diagonal scaling, or wraps one.
    Both its maps write linear functions of their arguments, whatever their buffers held, and `⟨K x, y⟩ = ⟨x, Kᵀ y⟩`.
    Over a stack of such operators, with one vector `yⱼ` for each block, `∑ⱼ ⟨Kⱼ x, yⱼ⟩ = ⟨x, w⟩` for the adjoint sum
    `w` that the stack computes, in any buffer. A matrix is the same operator, in whatever orders the products with its
    rows and with its columns are summed. -/
theorem adjoint_identity :
    (∀ (op : LinearOperator ℝ) (k : BasicOperator ℝ), op.Wraps k → ∃ A B,
      LinearOperator.WritesLinearly op.domainDim op.rangeDim op.directInto A ∧
      LinearOperator.WritesLinearly op.rangeDim op.domainDim op.adjointInto B ∧
      ∀ x y, x.length = op.domainDim → y.length = op.rangeDim → Vec.pairing (A x) y = Vec.pairing x (B y)) ∧
    (∀ (stack : OperatorStack ℝ), (∀ op ∈ stack.blocks, ∃ k, op.Wraps k) → ∀ (x : Vec ℝ) (ys : List (Vec ℝ)),
      x.length = stack.domainDim → List.Forall₂ (fun op y => y.length = op.rangeDim) stack.blocks ys →
      ∃ images w,
        List.Forall₂ (fun op v => ∀ out, out.length = op.rangeDim → op.directInto x out = some v) stack.blocks images ∧
        w.length = stack.domainDim ∧ (∀ out, out.length = stack.domainDim → stack.adjoint? ys out = some w) ∧
        List.sum (List.zipWith Vec.pairing images ys) = Vec.pairing x w) ∧
    ∀ (a : Matrix ℝ) (rows columns : SummationOrder), a.operatorIn rows columns = LinearOperator.matrix a := by
  refine ⟨?_, ?_, Matrix.operatorIn_eq⟩
  · intro op k hop
    have hpair := hop.adjointPair
    exact ⟨_, _, hpair.direct_writesLinearly, hpair.adjoint_writesLinearly, hpair.pairing_image⟩
  · intro stack hstack x ys hx hys
    refine OperatorStack.pairing_adjoint? (fun op hop => ?_) hx hys
    obtain ⟨k, hk⟩ := hstack op hop
    exact ⟨_, _, hk.adjointPair⟩

/-- A matrix with three rows. -/
def tallMatrix : Matrix ℝ := ⟨2, [[1, 0], [1, 1], [0, 1]], by simp⟩

/-- The matrix over a diagonal scaling that has been wrapped, so that its norm would be estimated. -/
noncomputable def tallStack : OperatorStack ℝ where
  blocks := [.matrix tallMatrix, (LinearOperator.diagonal [1, -1]).withoutNorm]
  domainDim := 2
  knownNorms := none
  blocks_ne_nil := List.cons_ne_nil _ _
  domainDim_of_mem := by
    intro op hop
    simp only [List.mem_cons, List.not_mem_nil, or_false] at hop
    obtain rfl | rfl := hop
    · rfl
    · rfl
  length_knownNorms := nofun

/-- The adjoint sum of `(1, 0, 1)` and `(1, 2)` has the inner product one with `(1, 1)`, as have the images. -/
theorem adjoint_identity_of_tallStack :
    (∀ op ∈ tallStack.blocks, ∃ k, op.Wraps k) ∧
    List.Forall₂ (fun op (y : Vec ℝ) => y.length = op.rangeDim) tallStack.blocks [[1, 0, 1], [1, 2]] ∧
    (∃ A B, LinearOperator.WritesLinearly 2 2 (LinearOperator.diagonal [1, -1]).withoutNorm.directInto A ∧
      LinearOperator.WritesLinearly 2 2 (LinearOperator.diagonal [1, -1]).withoutNorm.adjointInto B ∧
      Vec.pairing (A [1, 1]) [1, 2] = Vec.pairing [1, 1] (B [1, 2])) ∧
    ∃ w, (∀ out, out.length = 2 → tallStack.adjoint? [[1, 0, 1], [1, 2]] out = some w) ∧
      Vec.pairing [1, 1] w = 1 := by
  obtain ⟨hsingle, hstack, -⟩ := adjoint_identity
  have hmatrix : (LinearOperator.matrix tallMatrix).Wraps (.matrix tallMatrix) := ⟨none, rfl⟩
  have hdiagonal : (LinearOperator.diagonal [1, -1]).withoutNorm.Wraps (.diagonal [1, -1]) := ⟨none, rfl⟩
  have hwraps : ∀ op ∈ tallStack.blocks, ∃ k, op.Wraps k := by
    intro op hop
    simp only [tallStack, List.mem_cons, List.not_mem_nil, or_false] at hop
    obtain rfl | rfl := hop
    · exact ⟨_, hmatrix⟩
    · exact ⟨_, hdiagonal⟩
  have hys : List.Forall₂ (fun op (y : Vec ℝ) => y.length = op.rangeDim) tallStack.blocks [[1, 0, 1], [1, 2]] :=
    .cons rfl (.cons rfl .nil)
  obtain ⟨A, B, hA, hB, hAB⟩ := hsingle _ _ hdiagonal
  obtain ⟨images, w, himages, -, hw, hsum⟩ := hstack tallStack hwraps [1, 1] _ rfl hys
  refine ⟨hwraps, hys, ⟨A, B, hA, hB, hAB _ _ rfl rfl⟩, w, hw, ?_⟩
  -- the images are those that the two blocks compute
  cases himages with
  | cons hfirst hrest =>
    cases hrest with
    | cons hsecond hnil =>
      cases hnil
      have hevalFirst := hmatrix.adjointPair.direct_writesLinearly.eval [1, 1] (Vec.zeros 3) rfl (Vec.length_zeros _)
      have hevalSecond := hdiagonal.adjointPair.direct_writesLinearly.eval [1, 1] (Vec.zeros 2) rfl (Vec.length_zeros _)
      obtain rfl := Option.some.inj ((hfirst _ (Vec.length_zeros _)).symm.trans hevalFirst)
      obtain rfl := Option.some.inj ((hsecond _ (Vec.length_zeros _)).symm.trans hevalSecond)
      rw [← hsum]
      norm_num [BasicOperator.image, Vec.pairing, tallMatrix]

end Splitting
