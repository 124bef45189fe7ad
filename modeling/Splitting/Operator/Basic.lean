import Splitting.Vec.Dot

/-!
# `Splitting.Operator.Basic` — linear maps between spaces of vectors

An operator is given by what it does: how it writes `K x` and `Kᵀ y` into a buffer, between which dimensions,
and its norm where that is known in closed form. Any such record will do; the ones of this library overwrite
their buffer and do not read it.

* `LinearOperator` — the record;
* `LinearOperator.directInto`, `LinearOperator.adjointInto` — its two maps, on a buffer that keeps its length;
* `LinearOperator.identity`, `LinearOperator.diagonal` — the two operators that act entry by entry.
-/

namespace Splitting

/-- A linear map `K` together with its adjoint. The maps take their argument and the contents of a buffer and
    give the new contents; there are none when the lengths do not fit. -/
structure LinearOperator (S : Type) where
  /-- The length of the vectors on which `K` acts. -/
  domainDim : Nat
  /-- The length of their images. -/
  rangeDim : Nat
  direct : Vec S → Vec S → Option (Vec S)
  adjoint : Vec S → Vec S → Option (Vec S)
  /-- The spectral norm, where it need not be estimated. -/
  knownNorm : Option S

namespace LinearOperator

variable {S : Type}

/-- `K x` in a buffer, which keeps its length. -/
def directInto (op : LinearOperator S) (x out : Vec S) : Option (Vec S) := do
  Vec.write? out (← op.direct x out)

/-- `Kᵀ y` in a buffer, which keeps its length. -/
def adjointInto (op : LinearOperator S) (y out : Vec S) : Option (Vec S) := do
  Vec.write? out (← op.adjoint y out)

theorem length_of_directInto {op : LinearOperator S} {x out v : Vec S} (h : op.directInto x out = some v) :
    v.length = out.length := by
  obtain ⟨w, -, hw⟩ := Option.bind_eq_some_iff.mp h
  obtain ⟨hl, rfl⟩ := Vec.write?_eq_some_iff.mp hw
  exact hl

theorem length_of_adjointInto {op : LinearOperator S} {y out v : Vec S} (h : op.adjointInto y out = some v) :
    v.length = out.length := by
  obtain ⟨w, -, hw⟩ := Option.bind_eq_some_iff.mp h
  obtain ⟨hl, rfl⟩ := Vec.write?_eq_some_iff.mp hw
  exact hl

/-- The same maps with nothing said about the norm. -/
def withoutNorm (op : LinearOperator S) : LinearOperator S := { op with knownNorm := none }

variable [Scalar S]

/-- The identity on vectors of length `dim`. It copies its argument into the buffer, and a single entry into
    all places of it. -/
def identity (dim : Nat) : LinearOperator S where
  domainDim := dim
  rangeDim := dim
  direct x out := Vec.spread? out.length x
  adjoint y out := Vec.spread? out.length y
  knownNorm := some 1

/-- The entries of `x` scaled by those of `d`, in a buffer of the same length. -/
def scaleEntries (d x out : Vec S) : Option (Vec S) := do
  Vec.write? out (← Vec.zip? (· * ·) d x)

/-- The scaling of every entry by one of its own; it is its own adjoint, and its norm is the largest
    magnitude. -/
def diagonal (d : Vec S) : LinearOperator S where
  domainDim := d.length
  rangeDim := d.length
  direct := scaleEntries d
  adjoint := scaleEntries d
  knownNorm := some (d.foldl (fun best a => Scalar.max best (Scalar.abs a)) 0)

end LinearOperator

end Splitting
