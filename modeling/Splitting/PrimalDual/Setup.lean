import Splitting.PrimalDual.Spdhg

/-!
# `Splitting.PrimalDual.Setup` — configuring the primal-dual method

The probabilities of the blocks come from exactly one place: the index source, if it reports them, or else one
of two options, or else they are uniform. Without a source, blocks are drawn independently with them.

* `SpdhgSetup` — what a user gives;
* `BlockSource` — the source that was given, or the default one;
* `SpdhgSetup.resolveWeights` — the one place the probabilities come from;
* `SpdhgSetup.build` — the method before its first iteration, or the first thing that is wrong with the setup.
-/

namespace Splitting

/-- A configuration of the primal-dual method for `∑ fᵢ (Kᵢ x) + g x`. -/
structure SpdhgSetup (S σ : Type) where
  /-- The terms `fᵢ`, one for each block. -/
  terms : List (Functional S)
  /-- The term `g`. -/
  primalTerm : Functional S
  operator : OperatorStack S
  /-- The starting point; zero unless it is given. -/
  initial : Option (Vec S)
  sigma : Option (List S)
  tau : Option S
  source : Option σ
  /-- The probabilities of the blocks. -/
  weights : Option (List S)
  /-- The probabilities of the blocks, by their old name. -/
  probabilities : Option (List S)
  /-- The norms of the blocks; better given to the stack itself. -/
  norms : Option (List S)
  /-- The seed of the source that is used unless one is given. -/
  seed : UInt64

/-- The source of indices of a method: one that was given, or independent draws. -/
inductive BlockSource (σ W : Type) where
  | given (source : σ)
  | standard (sampler : Sampler W)

instance {σ W : Type} [Scalar W] [IndexSource σ W] : IndexSource (BlockSource σ W) W where
  next source :=
    match source with
    | .given s =>
      let (i, s) := IndexSource.next s
      (i, .given s)
    | .standard s =>
      let (i, s) := s.draw
      (i, .standard s)
  frequencies? source :=
    match source with
    | .given s => IndexSource.frequencies? s
    | .standard s => some s.frequencies

namespace SpdhgSetup

variable {S W σ : Type} [Scalar S] [Scalar W] [Precision S W] [IndexSource σ W]

omit [Scalar S] [Scalar W] [Precision S W] [IndexSource σ W] in
/-- The number of blocks. -/
def count (setup : SpdhgSetup S σ) : Nat := setup.operator.blocks.length

omit [Scalar S] [Scalar W] [Precision S W] [IndexSource σ W] in
/-- Checks that there is one term for each block. -/
def checkTerms (setup : SpdhgSetup S σ) : Except Error Unit :=
  if setup.terms.length = setup.count then .ok ()
  else .error (.lengthMismatch .functions setup.count setup.terms.length)

omit [Scalar S] [Scalar W] in
/-- The probabilities that are given. There may be one place only that gives them. -/
def resolveWeights (setup : SpdhgSetup S σ) : Except Error (Option (List S)) :=
  let reported := (setup.source.bind IndexSource.frequencies?).map fun ws => ws.map Precision.narrow
  match reported, setup.weights, setup.probabilities with
  | some _, some _, _ => .error (.invalidParameter .weightsTwice)
  | some _, none, some _ => .error (.invalidParameter .probabilitiesTwice)
  | none, some _, some _ => .error (.invalidParameter .probabilitiesTwice)
  | some ws, none, none => .ok (some ws)
  | none, some ws, none => .ok (some ws)
  | none, none, some ws => .ok (some ws)
  | none, none, none => .ok none

omit [Scalar W] [Precision S W] [IndexSource σ W] in
/-- The stack with the norms that the setup gives. -/
def stack (setup : SpdhgSetup S σ) : Except Error (OperatorStack S) :=
  match setup.norms with
  | none => .ok setup.operator
  | some ns => setup.operator.setNorms ns

omit [Scalar W] [Precision S W] [IndexSource σ W] in
/-- The probabilities: those that are given, one for each block, or uniform ones. -/
def completeWeights (setup : SpdhgSetup S σ) (given : Option (List S)) : Except Error (List S) :=
  let weights := given.getD (List.replicate setup.count (1 / (setup.count : S)))
  if weights.length = setup.count then .ok weights
  else .error (.lengthMismatch .weights setup.count weights.length)

omit [Scalar S] [IndexSource σ W] in
/-- The source that was given, or else independent draws with the probabilities. -/
def blockSource (setup : SpdhgSetup S σ) (weights : List S) : Except Error (BlockSource σ W) :=
  match setup.source with
  | some s => .ok (.given s)
  | none => .standard <$>
      Sampler.randomWithReplacement weights.length (some (weights.map Precision.widen)) setup.seed

omit [Scalar W] [Precision S W] [IndexSource σ W] in
/-- The starting point. -/
def start (setup : SpdhgSetup S σ) : Except Error (Vec S) :=
  match setup.initial with
  | none => .ok (Vec.zeros setup.operator.domainDim)
  | some x =>
    if x.length = setup.operator.domainDim then .ok x
    else .error (.lengthMismatch .initialPoint setup.operator.domainDim x.length)

/-- The blocks before the first iteration, from the five lists that describe them. -/
def blocks : List (Functional S) → List (LinearOperator S) → List S → List S → List S → List (DualBlock S)
  | f :: fs, k :: ks, p :: ps, n :: ns, s :: ss =>
    let zeros := Vec.zeros k.rangeDim
    ⟨f, k, p, n, s, zeros, zeros, zeros⟩ :: blocks fs ks ps ns ss
  | _, _, _, _, _ => []

/-- **The method that belongs to a setup,** before its first iteration. What is checked first: the number of
    terms, that the probabilities come from one place, the norms, the number of probabilities, the default
    source, the steps, and the starting point. -/
def build (setup : SpdhgSetup S σ) : Except Fault (Spdhg S (BlockSource σ W)) := do
  Fault.lift setup.checkTerms
  let given ← Fault.lift setup.resolveWeights
  let stack ← Fault.lift setup.stack
  let weights ← Fault.lift (setup.completeWeights given)
  let source ← Fault.lift (setup.blockSource weights)
  let (norms, stack) ← Fault.ofOption stack.norms?
  let (sigma, tau) ← Fault.lift
    (PrimalDual.resolveSteps (List.zipWith DualScale.mk weights norms) setup.sigma setup.tau)
  let x ← Fault.lift setup.start
  let zeros := Vec.zeros stack.domainDim
  return {
    blocks := blocks setup.terms stack.blocks weights norms sigma
    domainDim := stack.domainDim
    primalTerm := setup.primalTerm
    source := source
    tau := tau
    x := x
    scratch := zeros
    z := zeros
    zbar := zeros
    losses := #[]
    iteration := 0 }

end SpdhgSetup

end Splitting
