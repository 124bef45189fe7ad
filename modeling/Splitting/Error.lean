/-!
# `Splitting.Error` — what can go wrong

Every failure of the library is a cause, and each cause has one wording.

* `ParameterFault`, `SamplerFault` — the causes behind a rejected parameter and a rejected sampler;
* `Error` — all causes, with their text in `Error.message`;
* `Fault` — how a computation without a state of its own can break off: with an error, or because the lengths
  of two vectors do not fit.

Numbers inside a cause are kept as their text, so that one type serves every arithmetic.
-/

namespace Splitting

/-- The step parameters of the primal-dual method, all of which have to be positive. -/
inductive PrimalDualStep where
  | sigma
  | tau
  | gamma
  | rho
deriving DecidableEq, Repr

/-- The name under which a step parameter is given. -/
def PrimalDualStep.name : PrimalDualStep → String
  | .sigma => "sigma"
  | .tau => "tau"
  | .gamma => "gamma"
  | .rho => "rho"

/-- Why a parameter is refused. -/
inductive ParameterFault where
  /-- A stack of operators without a block. -/
  | noBlocks
  /-- Block `block` acts on vectors of length `dim`, and block 0 on vectors of length `first`. -/
  | domainDiffers (block dim first : Nat)
  /-- An operator norm that is negative or not a number. -/
  | negativeNorm
  /-- A constant step that is not positive and finite. -/
  | stepNotPositive (got : String)
  /-- A first trial step that is not positive. -/
  | initialStepNotPositive (got : String)
  /-- A shrink factor outside of (0, 1). -/
  | shrinkFactorOutside (got : String)
  /-- A step parameter of the primal-dual method that is not positive. -/
  | primalDualStepNotPositive (which : PrimalDualStep) (got : String)
  /-- Weights given although the sampler reports its own. -/
  | weightsTwice
  /-- Probabilities given although there are weights already. -/
  | probabilitiesTwice
  /-- No block bounds the primal step away from zero. -/
  | noPrimalStep
deriving DecidableEq, Repr

namespace ParameterFault

/-- The parameter at fault. -/
def parameter : ParameterFault → String
  | noBlocks => "operator"
  | domainDiffers .. => "operator"
  | negativeNorm => "norms"
  | stepNotPositive _ => "step_size"
  | initialStepNotPositive _ => "alpha"
  | shrinkFactorOutside _ => "beta"
  | primalDualStepNotPositive which _ => which.name
  | weightsTwice => "prob_weights"
  | probabilitiesTwice => "prob"
  | noPrimalStep => "tau"

/-- What is wrong with it. -/
def reason : ParameterFault → String
  | noBlocks => "a block operator needs at least one block"
  | domainDiffers block dim first =>
    s!"block {block} has domain dimension {dim}, block 0 has {first}"
  | negativeNorm => "operator norms must be non-negative"
  | stepNotPositive got => s!"expected a positive step size, got {got}"
  | initialStepNotPositive got => s!"expected a positive initial step, got {got}"
  | shrinkFactorOutside got => s!"expected a shrink factor in (0, 1), got {got}"
  | primalDualStepNotPositive _ got => s!"step sizes of SPDHG are positive, got {got}"
  | weightsTwice => "the sampler already provides prob_weights, remove the prob_weights argument"
  | probabilitiesTwice =>
    "`prob` is deprecated, give only one of `prob`, `prob_weights` or a sampler with prob_weights"
  | noPrimalStep => "no block admits a positive primal step size"

end ParameterFault

/-- Why a sampler is refused. -/
inductive SamplerFault where
  | noSubsets
  /-- An offset that is not less than the number of subsets. -/
  | offsetTooLarge
  | offsetZero
  /-- Probabilities that sum to `total`. -/
  | totalNotOne (total : String)
  /-- A probability that is negative or not a number. -/
  | invalidWeight
  /-- A number of subsets with fewer than two prime factors. -/
  | notComposite (n : Nat)
deriving DecidableEq, Repr

/-- The wording of a `SamplerFault`. -/
def SamplerFault.message : SamplerFault → String
  | noSubsets => "the number of subsets should be positive"
  | offsetTooLarge => "the offset should be less than the number of subsets"
  | offsetZero => "the offset should be positive"
  | totalNotOne total => s!"the probabilities should sum to 1, they sum to {total}"
  | invalidWeight => "invalid probabilities: A weight is invalid in distribution"
  | notComposite n =>
    s!"Herman-Meyer sampling of {n} subsets is sequential ordering since {n} is not composite, " ++
      "use another sampling method or change the number of subsets"

/-- The lists that are given per block or per coordinate, and whose lengths are checked. -/
inductive Quantity where
  | functions
  | weights
  | probabilities
  | norms
  | dualSteps
  | initialPoint
deriving DecidableEq, Repr

/-- The name under which a list is given. -/
def Quantity.name : Quantity → String
  | functions => "f"
  | weights => "prob_weights"
  | probabilities => "prob"
  | norms => "norms"
  | dualSteps => "sigma"
  | initialPoint => "initial"

/-- A failure of the library or of a function, rule or preconditioner that it was given. -/
inductive Error where
  /-- Neither a smooth nor a proximable term: the iterates would never move. -/
  | bothTermsAbsent
  /-- A constant step and a rule for the step at once. -/
  | conflictingStepSize
  /-- A default step was asked for, and the smooth term knows no Lipschitz constant. -/
  | unknownLipschitz
  | invalidParameter (fault : ParameterFault)
  /-- `what` has `got` entries instead of `expected`. -/
  | lengthMismatch (what : Quantity) (expected got : Nat)
  | invalidSampler (fault : SamplerFault)
  /-- The sampler drew `index`, and there are only `blocks` blocks. -/
  | subsetOutOfRange (index blocks : Nat)
  /-- No convergence criterion covers preconditioned gradients. -/
  | preconditionedConvergence
  | nonConstantStepSize
  /-- A function does not provide an operation. -/
  | unsupported (operation : String)
  /-- A backtracking search made `trials` trials in vain. -/
  | stepSizeSearchFailed (trials : Nat)
deriving DecidableEq, Repr

/-- The wording of an error. -/
def Error.message : Error → String
  | bothTermsAbsent => "both f and g are absent, the iterates would never move away from the initial value"
  | conflictingStepSize => "pass either a step size or a step-size rule, not both"
  | unknownLipschitz => "f has no known Lipschitz constant, pass a step size or a step-size rule"
  | invalidParameter fault => s!"invalid parameter '{fault.parameter}': {fault.reason}"
  | lengthMismatch what expected got => s!"{what.name} has {got} entries, expected {expected}"
  | invalidSampler fault => s!"invalid sampler: {fault.message}"
  | subsetOutOfRange index blocks =>
    s!"the sampler returned index {index} but there are only {blocks} operator blocks, " ++
      "samplers must draw from \x7b0, ..., " ++ toString blocks ++ " - 1\x7d"
  | preconditionedConvergence => "can't check the convergence criterion when a preconditioner is used"
  | nonConstantStepSize => "the step size is not constant, it is set by a step-size rule"
  | unsupported operation => s!"the function does not implement '{operation}'"
  | stepSizeSearchFailed trials =>
    s!"could not find a step size satisfying the Armijo condition in {trials} trials"

/-- How a computation can break off. -/
inductive Fault where
  | error (cause : Error)
  /-- The lengths of two vectors do not fit. -/
  | mismatch
deriving DecidableEq, Repr

/-- A computation that only an error stops, as one that faults can stop. -/
def Fault.lift {α : Type} : Except Error α → Except Fault α
  | .ok a => .ok a
  | .error e => .error (.error e)

/-- A computation that only mismatched lengths stop, as one that faults can stop. -/
def Fault.ofOption {α : Type} : Option α → Except Fault α
  | some a => .ok a
  | none => .error .mismatch

end Splitting
