import Splitting.Functional.Basic
import Splitting.Iteration
import Splitting.Operator.Stack
import Splitting.PrimalDual.StepSizes
import Splitting.Subsets.Sampler

/-!
# `Splitting.PrimalDual.Spdhg` — the stochastic primal-dual hybrid gradient method

To minimise `∑ fᵢ (Kᵢ x) + g x`, an iteration takes a full primal step and then updates the dual variable of the
one block `i` that a source of indices names:

  `x' = prox (τ g) (x - τ z̄)`,
  `yᵢ' = prox (σᵢ fᵢ*) (yᵢ + σᵢ Kᵢ x')`,
  `Δ = Kᵢᵀ (yᵢ' - yᵢ)`,
  `z' = z + Δ`,
  `z̄' = z' + (1 / pᵢ) Δ`.

Everything that belongs to a block is kept in one record, so that no two lists can disagree on their length.

* `DualBlock` — a block: its term, operator, probability, norm, step, dual variable and buffers;
* `Spdhg` — the state of the method;
* `Spdhg.update` — an iteration, in four phases;
* `Spdhg.recordObjective` — primal and dual objective, and the gap between them;
* `Spdhg.setStepSizes`, `Spdhg.setStepSizesFromRatio`, `Spdhg.checkConvergence` — the steps and their bound.
-/

namespace Splitting

/-- A block of the problem `∑ fᵢ (Kᵢ x) + g x`, with its part of the method's state. -/
structure DualBlock (S : Type) where
  /-- The term `fᵢ`. -/
  term : Functional S
  /-- The operator `Kᵢ`. -/
  operator : LinearOperator S
  /-- The probability with which the block is drawn. -/
  weight : S
  /-- The norm of the operator, as the steps are derived from it. -/
  norm : S
  /-- The dual step. -/
  sigma : S
  /-- The dual variable. -/
  dual : Vec S
  /-- The buffer for the next dual variable; between two updates of the block it holds the last change. -/
  spare : Vec S
  /-- The buffer for the image of the solution, and for the point at which the dual is updated. -/
  image : Vec S

namespace DualBlock

variable {S : Type} [Scalar S]

/-- The dual step of a block at the solution `x`: the point `yᵢ + σᵢ Kᵢ x`, and the proximal map of the
    conjugate there, in the spare buffer. -/
def ascend (b : DualBlock S) (x : Vec S) : Outcome (DualBlock S) Unit :=
  match (b.operator.directInto x b.image).bind fun image =>
      Vec.zip? (fun a y => y + b.sigma * a) image b.dual with
  | none => .mismatch
  | some point =>
    (b.term.proximalConjugateInto point b.sigma b.spare).mapState fun y => { b with spare := y, image := point }

/-- The block with its new dual variable in place, and the change of it in the spare buffer. -/
def commit (b : DualBlock S) : Option (DualBlock S) :=
  (Vec.zip? (fun old new => new - old) b.dual b.spare).map fun change =>
    { b with dual := b.spare, spare := change }

end DualBlock

/-- One record of the objectives. -/
structure ObjectiveRecord (S : Type) where
  primal : S
  dual : S
  /-- The primal objective less the dual one. -/
  gap : S
deriving DecidableEq, Repr

/-- The state of the stochastic primal-dual hybrid gradient method; `σ` is the state of its index source. -/
structure Spdhg (S σ : Type) where
  blocks : List (DualBlock S)
  /-- The length of the primal vectors. -/
  domainDim : Nat
  /-- The term `g`. -/
  primalTerm : Functional S
  source : σ
  /-- The primal step. -/
  tau : S
  /-- The solution. -/
  x : Vec S
  /-- A buffer for the primal forward point, and for sums of adjoints. -/
  scratch : Vec S
  /-- The sum of the adjoints on the dual variables. -/
  z : Vec S
  /-- That sum, extrapolated along the last change. -/
  zbar : Vec S
  losses : Array (ObjectiveRecord S)
  iteration : Nat

namespace Spdhg

variable {S W σ : Type}

/-- The dual steps, one for each block. -/
def sigma (m : Spdhg S σ) : List S := m.blocks.map (·.sigma)

/-- The probabilities, one for each block. -/
def weights (m : Spdhg S σ) : List S := m.blocks.map (·.weight)

/-- The norms of the operators, one for each block. -/
def norms (m : Spdhg S σ) : List S := m.blocks.map (·.norm)

/-- The dual variables, one for each block. -/
def duals (m : Spdhg S σ) : List (Vec S) := m.blocks.map (·.dual)

/-- The lengths of the dual variables. -/
def rangeDims (m : Spdhg S σ) : List Nat := m.blocks.map (·.operator.rangeDim)

/-- What the steps of each block depend on. -/
def scales (m : Spdhg S σ) : List (DualScale S) := m.blocks.map fun b => ⟨b.weight, b.norm⟩

variable [Scalar S]

/-! ## An iteration -/

/-- The primal step: the forward point `x - τ z̄`, and the proximal map of `g` there. -/
def primalPhase (m : Spdhg S σ) : Outcome (Spdhg S σ) Unit :=
  match (Vec.zip? (fun x zbar => x - m.tau * zbar) m.x m.zbar).bind m.scratch.write? with
  | none => .mismatch
  | some point =>
    (m.primalTerm.proximalInto point m.tau m.x).mapState fun x => { m with x := x, scratch := point }

omit [Scalar S] in
/-- The index that the source names next, with its block. An index without a block is an error. -/
def drawPhase [IndexSource σ W] (m : Spdhg S σ) : Outcome (Spdhg S σ) (Nat × DualBlock S) :=
  let (i, source) := IndexSource.next m.source
  let m := { m with source := source }
  match m.blocks[i]? with
  | some b => .ok (i, b) m
  | none => .error (.subsetOutOfRange i m.blocks.length) m

/-- The dual step of block `i`, which is `b`. -/
def dualPhase (m : Spdhg S σ) (i : Nat) (b : DualBlock S) : Outcome (Spdhg S σ) (DualBlock S) :=
  match b.ascend m.x with
  | .ok () b => .ok b m
  | .error e b => .error e { m with blocks := m.blocks.set i b }
  | .mismatch => .mismatch

/-- The end of an iteration: the change `Δ` of the adjoint sum, the sum with it, and the extrapolation by
    `1 / pᵢ` of it. `b` is block `i` after its dual step. -/
def accumulate (m : Spdhg S σ) (i : Nat) (b : DualBlock S) : Option (Spdhg S σ) := do
  let b ← b.commit
  let delta ← b.operator.adjointInto b.spare m.scratch
  let z ← Vec.zip? (· + ·) m.z delta
  let ahead := 1 / b.weight
  let zbar ← m.zbar.write? (← Vec.zip? (fun z d => z + ahead * d) z delta)
  return { m with
    blocks := m.blocks.set i b
    scratch := delta
    z := z
    zbar := zbar
    iteration := m.iteration + 1 }

/-- **One iteration.** -/
def update [IndexSource σ W] (m : Spdhg S σ) : Outcome (Spdhg S σ) Unit :=
  m.primalPhase.bind fun _ m =>
    m.drawPhase.bind fun (i, b) m =>
      (m.dualPhase i b).bind fun b m =>
        .put (m.accumulate i b)

/-! ## Objectives -/

/-- The sums `∑ fᵢ (Kᵢ x)` and `∑ fᵢ* yᵢ` added to the primal value `primal` and taken off the dual value
    `dual`, block by block; the images of `x` are left in the blocks' buffers. -/
def blockObjectives (x : Vec S) (primal dual : S) : List (DualBlock S) → Outcome (List (DualBlock S)) (S × S)
  | [] => .ok (primal, dual) []
  | b :: rest =>
    match b.operator.directInto x b.image with
    | none => .mismatch
    | some image =>
      let b := { b with image := image }
      match b.term.value image, b.term.conjugate b.dual with
      | none, _ => .mismatch
      | _, .error .mismatch => .mismatch
      | some _, .error (.error e) => .error e (b :: rest)
      | some v, .ok c => (blockObjectives x (primal + v) (dual - c) rest).mapState (b :: ·)

/-- `-Kᵀ y` for the dual variables `y`. -/
def negatedAdjoint? (m : Spdhg S σ) : Option (Vec S) :=
  (LinearOperator.adjointSum? (Vec.zeros m.scratch.length) (Vec.zeros m.domainDim)
    (m.blocks.map fun b => (b.operator, b.dual))).map fun v => v.map (- ·)

/-- Adds a record of the primal objective `∑ fᵢ (Kᵢ x) + g x`, the dual objective
    `-∑ fᵢ* yᵢ - g* (-Kᵀ y)`, and the gap. -/
def recordObjective (m : Spdhg S σ) : Outcome (Spdhg S σ) Unit :=
  match m.primalTerm.value m.x with
  | none => .mismatch
  | some g =>
    ((blockObjectives m.x g 0 m.blocks).mapState fun blocks => { m with blocks := blocks }).bind
      fun (primal, dual) m =>
        match m.negatedAdjoint? with
        | none => .mismatch
        | some v =>
          (Outcome.ofExcept { m with scratch := v } (m.primalTerm.conjugate v)).bind fun c m =>
            let dual := dual - c
            .ok () { m with losses := m.losses.push ⟨primal, dual, primal - dual⟩ }

/-! ## Step sizes -/

omit [Scalar S] in
/-- The method with other steps. -/
def withSteps (m : Spdhg S σ) (steps : List S × S) : Spdhg S σ :=
  { m with
    blocks := List.zipWith (fun b s => { b with sigma := s }) m.blocks steps.1
    tau := steps.2 }

/-- Replaces the steps by those that are given, and by derived ones where none are. -/
def setStepSizes (m : Spdhg S σ) (sigma : Option (List S)) (tau : Option S) : Except Error (Spdhg S σ) :=
  m.withSteps <$> PrimalDual.resolveSteps m.scales sigma tau

/-- Replaces the steps by those that belong to a trade-off and a margin. -/
def setStepSizesFromRatio (m : Spdhg S σ) (gamma rho : S) : Except Error (Spdhg S σ) :=
  m.withSteps <$> PrimalDual.stepsFromRatio m.scales gamma rho

/-- Whether `σᵢ τ nᵢ² ≤ pᵢ` is violated by no block. An iteration can be taken either way. -/
def checkConvergence (m : Spdhg S σ) : Bool :=
  !m.blocks.any fun b => b.weight < b.sigma * m.tau * b.norm * b.norm

instance [IndexSource σ W] : Iterative (Spdhg S σ) S where
  update := update
  recordObjective := recordObjective
  exchange m := m
  solution m := m.x
  iteration m := m.iteration

end Spdhg

end Splitting
