import Splitting.Operator.Basic

/-!
# `Splitting.Operator.Matrix` — dense matrices

A matrix is stored by rows. Its rows lie in one piece and its columns are strided, unless there is only one
column; the inner products of `K x` and of `Kᵀ y` are summed accordingly.

* `Matrix` — the rows, all of one length;
* `LinearOperator.matrix` — the products with the matrix and with its transpose.
-/

namespace Splitting

/-- A matrix with `cols` columns, as the list of its rows. -/
structure Matrix (S : Type) where
  cols : Nat
  rows : List (Vec S)
  length_of_mem : ∀ r ∈ rows, r.length = cols

namespace Matrix

variable {S : Type} [Scalar S]

/-- The matrix whose entries are listed row by row; entries that the list lacks are zero. -/
def ofRowMajor (rows cols : Nat) (entries : Array S) : Matrix S where
  cols := cols
  rows := (List.range rows).map fun i => (List.range cols).map fun j => entries.getD (i * cols + j) 0
  length_of_mem := by
    intro r hr
    obtain ⟨i, _, rfl⟩ := List.mem_map.mp hr
    simp

/-- Column `j`, one entry for each row. -/
def column (a : Matrix S) (j : Nat) : Vec S := a.rows.map fun r => r.getD j 0

/-- The inner product of a column with a vector. -/
def columnDot? (a : Matrix S) (j : Nat) (y : Vec S) : Option S :=
  if a.cols = 1 then Vec.dot? (a.column j) y else Vec.stridedDot? (a.column j) y

/-- The product with `x`, in a buffer with one entry for each row. -/
def mulVec? (a : Matrix S) (x out : Vec S) : Option (Vec S) :=
  if x.length = a.cols then do
    Vec.write? out (← a.rows.mapM fun r => Vec.dot? r x)
  else none

/-- The product of the transpose with `y`, in a buffer with one entry for each column. -/
def transposeMulVec? (a : Matrix S) (y out : Vec S) : Option (Vec S) :=
  if y.length = a.rows.length then do
    Vec.write? out (← (List.range a.cols).mapM fun j => a.columnDot? j y)
  else none

end Matrix

/-- A dense matrix as an operator; its norm has to be estimated. -/
def LinearOperator.matrix {S : Type} [Scalar S] (a : Matrix S) : LinearOperator S where
  domainDim := a.cols
  rangeDim := a.rows.length
  direct := a.mulVec?
  adjoint := a.transposeMulVec?
  knownNorm := none

end Splitting
