import Splitting.Proofs.Exact.Reals
import Splitting.Scalar.Binary

/-!
# `Splitting.Proofs.Scalars` — what holds in every arithmetic of the library

The methods use their scalars without laws, and rounded arithmetic has few. What is proved of a method in double and
in single precision alike rests on the ones here.

* `LawfulScalar` — a finite number compares as at most itself, and one is a positive number;
* `LawfulScalar ℝ`, `LawfulScalar Float`, `LawfulScalar Float32` — exact arithmetic, double and single precision.
-/

namespace Splitting

open Float.Model (UnpackedFloat)

/-- What comparisons promise, also where arithmetic rounds. A number that is not one is not even at most itself. -/
class LawfulScalar (S : Type) [Scalar S] : Prop where
  le_self : ∀ {a : S}, Scalar.isFinite a = true → a ≤ a
  zero_lt_one : (0 : S) < 1
  isFinite_one : Scalar.isFinite (1 : S) = true

instance : LawfulScalar ℝ where
  le_self _ := le_rfl
  zero_lt_one := zero_lt_one
  isFinite_one := rfl

/-- A finite number of either precision has the same sign, exponent and mantissa as itself. -/
theorem unpackedFloat_le_self {u : UnpackedFloat} (h : u.isFinite = true) : u.le u = true := by
  cases u with
  | infinity s => cases h
  | notANumber => cases h
  | zero s => rfl
  | finite s m e hm => cases s <;> simp [UnpackedFloat.le, UnpackedFloat.compare]

instance : LawfulScalar Float where
  le_self {a} h := by
    show decide (a.toModel ≤ a.toModel) = true
    exact decide_eq_true (unpackedFloat_le_self h)
  zero_lt_one := by decide
  isFinite_one := by decide

instance : LawfulScalar Float32 where
  le_self {a} h := by
    show decide (a.toModel ≤ a.toModel) = true
    exact decide_eq_true (unpackedFloat_le_self h)
  zero_lt_one := by decide
  isFinite_one := by decide

end Splitting
