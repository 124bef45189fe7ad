import Splitting.Scalar.Binary
import Splitting.Generator.Uniform
import Splitting.Operator.Matrix
import Splitting.Operator.Stack
import Splitting.Functional.SquaredDistance
import Splitting.Functional.OneNorm
import Splitting.Functional.LeastSquares
import Splitting.StepSize.Armijo
import Splitting.Preconditioner
import Splitting.Iteration
import Splitting.Subsets.Sampler
import Splitting.ForwardBackward.Ista
import Splitting.ForwardBackward.Fista
import Splitting.PrimalDual.StepSizes
import Splitting.PrimalDual.Setup
import Splitting.Proofs.PrimalDual.Phases
import Splitting.Proofs.PrimalDual.Frames
import Splitting.Proofs.PrimalDual.Shape
import Splitting.Proofs.Exact.Coordinates
import Splitting.Proofs.Operator.Adjoint
import Splitting.Proofs.PrimalDual.RunningAdjoint
import Splitting.Proofs.Buffers
import Splitting.Proofs.PrimalDual.Refinement
import Splitting.Proofs.ForwardBackward.Step
import Splitting.Proofs.Iteration
import Splitting.Proofs.ForwardBackward.Acceleration
import Splitting.Proofs.Exact.ExtendedReals
import Splitting.Proofs.Functional.FenchelYoung
import Splitting.Proofs.Operator.Lift
import Splitting.Proofs.PrimalDual.FiniteData
import Splitting.Proofs.PrimalDual.WeakDuality
import Splitting.Proofs.PrimalDual.LeastRatio
import Splitting.Proofs.PrimalDual.DerivedSteps
import Splitting.Proofs.Convex.Step
import Splitting.Proofs.Convex.Saddle
import Splitting.Proofs.Convex.Momentum
import Splitting.Proofs.Exact.Euclidean
import Splitting.Proofs.Convex.Terms
import Splitting.Proofs.Functional.OnPoints
import Splitting.Proofs.Functional.ConjugateMaps
import Splitting.Proofs.ForwardBackward.ExactStep
import Splitting.Proofs.ForwardBackward.AcceleratedRate
import Splitting.Proofs.ForwardBackward.Descent
import Splitting.Proofs.ForwardBackward.FixedPoints
import Splitting.Proofs.PrimalDual.SingleBlock
import Splitting.Proofs.PrimalDual.EnergyDescent
import Splitting.Proofs.PrimalDual.Stationary
import Splitting.Proofs.Subsets.Rounds
import Splitting.Proofs.Subsets.TrialDivision
import Splitting.Proofs.Subsets.WordDivision
import Splitting.Proofs.Subsets.Orders
import Splitting.Proofs.PrimalDual.Draws
import Splitting.Proofs.Subsets.Cycles
import Splitting.Proofs.PrimalDual.Representation
import Splitting.Proofs.Iteration.Turns
import Splitting.Proofs.Iteration.Records
import Splitting.Proofs.Observation
import Splitting.Proofs.Iteration.Resumption
import Splitting.Proofs.Iteration.Losses
import Splitting.Proofs.ForwardBackward.Recursion
import Splitting.Proofs.LossHistory
import Splitting.Proofs.ForwardBackward.SufficientDecrease
import Splitting.Proofs.PrimalDual.FailedCalls
import Splitting.Proofs.Iteration.Simulation
import Splitting.Proofs.ForwardBackward.FailedSteps
import Splitting.Proofs.ForwardBackward.Retry
import Splitting.Proofs.Operator.Norms
import Splitting.Proofs.PrimalDual.Requirements
import Splitting.Proofs.PrimalDual.Weights
import Splitting.Proofs.Relabelling
import Splitting.Proofs.PrimalDual.OrderFree
import Splitting.Proofs.PrimalDual.RelabelledSetup
import Splitting.Proofs.PrimalDual.Equivariance
import Splitting.Proofs.Checks
import Splitting.Proofs.Scalars
import Splitting.Proofs.ForwardBackward.Configuration
import Splitting.Proofs.ForwardBackward.UnseenCoordinates
import Splitting.Proofs.ForwardBackward.SquaredDistances
import Splitting.Proofs.ForwardBackward.EqualTerms
import Splitting.Proofs.Functional.ProximalMinimum
import Splitting.Proofs.Functional.Conjugates
import Splitting.Proofs.Operator.KnownNorms
import Splitting.Proofs.Functional.Gradients
import Splitting.Proofs.Iteration.Lockstep
import Splitting.Proofs.PrimalDual.OtherTerms
import Splitting.Proofs.PrimalDual.DerivedConjugates
import Splitting.Proofs.Operator.AdjointIdentity
import Splitting.Proofs.Operator.PowerMethod
import Splitting.Proofs.StepSize.Quadratics
import Splitting.Proofs.StepSize.Budget
import Splitting.Proofs.Subsets.Strides
import Splitting.Proofs.ForwardBackward.CompletedUpdates
import Splitting.Proofs.Rounding
import Splitting.Proofs.Operator.GivenNorms
import Splitting.Proofs.PrimalDual.StepChanges
