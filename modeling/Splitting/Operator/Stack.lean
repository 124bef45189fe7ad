import Splitting.Error
import Splitting.Operator.Norm

/-!
# `Splitting.Operator.Stack` — operators one above the other

A stack `K = [K₁; …; K_J]` is a non-empty list of operators on one space. Each block keeps a range of its own,
so that images and dual vectors are lists of vectors. The norms of the blocks are computed when they are first
asked for, unless they were given.

* `OperatorStack` — the blocks and the norms known so far;
* `OperatorStack.norms?`, `OperatorStack.setNorms` — reading and giving the norms;
* `LinearOperator.adjointSum?`, `OperatorStack.adjoint?` — the sum of the blocks' adjoints.
-/

namespace Splitting

variable {S : Type} [Scalar S]

/-- Adds `Kᵀ y` to `total` for each operator and vector in turn. `scratch` is the buffer of each `Kᵀ y`. -/
def LinearOperator.adjointSum? (total scratch : Vec S) : List (LinearOperator S × Vec S) → Option (Vec S)
  | [] => some total
  | (op, y) :: rest => do
    let scratch ← op.adjointInto y scratch
    let total ← Vec.zip? (· + ·) total (← Vec.spread? total.length scratch)
    adjointSum? total scratch rest

/-- The norms of a list of operators. -/
def LinearOperator.norms? {W : Type} [Scalar W] [Precision S W] : List (LinearOperator S) → Option (List S)
  | [] => some []
  | op :: rest => do
    let n ← op.norm?
    let ns ← norms? rest
    return n :: ns

theorem LinearOperator.length_of_norms? {W : Type} [Scalar W] [Precision S W] {ops : List (LinearOperator S)}
    {ns : List S} (h : LinearOperator.norms? ops = some ns) : ns.length = ops.length := by
  induction ops generalizing ns with
  | nil => cases h; rfl
  | cons op rest ih =>
    simp only [LinearOperator.norms?, Option.bind_eq_bind, Option.bind_eq_some_iff, Option.pure_def,
      Option.some.injEq] at h
    obtain ⟨n, _, ms, hms, rfl⟩ := h
    simp [ih hms]

/-- A non-empty list of operators that act on vectors of one length, and their norms if they are known. -/
structure OperatorStack (S : Type) where
  blocks : List (LinearOperator S)
  domainDim : Nat
  /-- The norms that were given or have been computed. -/
  knownNorms : Option (List S)
  blocks_ne_nil : blocks ≠ []
  domainDim_of_mem : ∀ op ∈ blocks, op.domainDim = domainDim
  length_knownNorms : ∀ ns, knownNorms = some ns → ns.length = blocks.length

namespace OperatorStack

omit [Scalar S] in
/-- The first block whose domain is not `dim`, with its index. -/
def misfit? (dim : Nat) : List (LinearOperator S) → Nat → Option (Nat × LinearOperator S)
  | [], _ => none
  | op :: rest, i => if op.domainDim = dim then misfit? dim rest (i + 1) else some (i, op)

omit [Scalar S] in
theorem domainDim_of_misfit?_eq_none {dim : Nat} {ops : List (LinearOperator S)} {i : Nat}
    (h : misfit? dim ops i = none) : ∀ op ∈ ops, op.domainDim = dim := by
  induction ops generalizing i with
  | nil => simp
  | cons op rest ih =>
    rw [misfit?] at h
    split at h
    next hop =>
      intro op' hmem
      rcases List.mem_cons.mp hmem with rfl | hmem
      · exact hop
      · exact ih h op' hmem
    next => cases h

omit [Scalar S] in
/-- Stacks operators. There has to be one, and all have to act on vectors of the same length. -/
def ofBlocks (blocks : List (LinearOperator S)) : Except Error (OperatorStack S) :=
  match hb : blocks with
  | [] => .error (.invalidParameter .noBlocks)
  | first :: rest =>
    match h : misfit? first.domainDim (first :: rest) 0 with
    | some (i, op) => .error (.invalidParameter (.domainDiffers i op.domainDim first.domainDim))
    | none => .ok {
        blocks := first :: rest
        domainDim := first.domainDim
        knownNorms := none
        blocks_ne_nil := List.cons_ne_nil _ _
        domainDim_of_mem := domainDim_of_misfit?_eq_none h
        length_knownNorms := by simp }

omit [Scalar S] in
/-- The lengths of the blocks' images. -/
def rangeDims (k : OperatorStack S) : List Nat := k.blocks.map (·.rangeDim)

/-- The norms given: one for each block, none of them negative or not a number. -/
def setNorms (k : OperatorStack S) (norms : List S) : Except Error (OperatorStack S) :=
  if h : norms.length = k.blocks.length then
    if norms.any fun n => Scalar.isNaN n || n < 0 then .error (.invalidParameter .negativeNorm)
    else .ok { k with
      knownNorms := some norms
      length_knownNorms := by
        rintro _ ⟨⟩
        exact h }
  else .error (.lengthMismatch .norms k.blocks.length norms.length)

/-- The sum of the blocks' adjoints, each on its own vector, in a buffer. Blocks without a vector and vectors
    without a block are left out. -/
def adjoint? (k : OperatorStack S) (y : List (Vec S)) (out : Vec S) : Option (Vec S) :=
  LinearOperator.adjointSum? (Vec.zeros out.length) (Vec.zeros k.domainDim) (k.blocks.zip y)

variable {W : Type} [Scalar W] [Precision S W]

/-- The norms of the blocks, computed if they are not known, and the stack that knows them. -/
def norms? (k : OperatorStack S) : Option (List S × OperatorStack S) :=
  match k.knownNorms with
  | some ns => some (ns, k)
  | none =>
    match h : LinearOperator.norms? k.blocks with
    | none => none
    | some ns => some (ns, { k with
        knownNorms := some ns
        length_knownNorms := by
          rintro _ ⟨⟩
          exact LinearOperator.length_of_norms? h })

end OperatorStack

end Splitting
