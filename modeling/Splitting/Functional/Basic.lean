import Splitting.Outcome
import Splitting.Vec.Basic

/-!
# `Splitting.Functional.Basic` — functions and their proximal maps

The methods see a function only through what it can do. A smooth term has a gradient and perhaps a known
Lipschitz constant of it; a non-smooth term has a proximal map

  `prox τ x = argmin u, τ · f u + ½ ‖u - x‖²`;

the primal-dual method also uses the convex conjugate and its proximal map. What a function cannot do is an
error that names the operation.

* `Functional` — the record of operations;
* `Functional.ofProximal` — a function given by its value and proximal map; the proximal map of its conjugate
  follows from them, `x - τ · prox (1/τ) (x/τ)`;
* `valueOrZero`, `gradientOrZero`, `proximalOrIdentity` — a term that may be absent and then is zero.
-/

namespace Splitting

/-- A function of vectors, as the operations that it offers. The last argument of an operation that fills a
    buffer is what the buffer held before; the outcome has what it holds after. -/
structure Functional (S : Type) where
  value : Vec S → Option S
  gradient : Vec S → Vec S → Outcome (Vec S) Unit
  /-- The proximal map, at a point and with a step. -/
  proximal : Vec S → S → Vec S → Outcome (Vec S) Unit
  /-- The convex conjugate, which may be infinite. -/
  conjugate : Vec S → Except Fault S
  /-- The proximal map of the conjugate, at a point and with a step. -/
  proximalConjugate : Vec S → S → Vec S → Outcome (Vec S) Unit
  /-- A Lipschitz constant of the gradient, where one is known. -/
  lipschitz : Option S

namespace Functional

variable {S : Type}

/-- A buffer that comes back with another length than it had is a mismatch. -/
def sameLength (out : Vec S) (o : Outcome (Vec S) Unit) : Outcome (Vec S) Unit :=
  o.guard fun new => new.length = out.length

/-- The gradient at `x` in a buffer, which keeps its length. -/
def gradientInto (f : Functional S) (x out : Vec S) : Outcome (Vec S) Unit :=
  sameLength out (f.gradient x out)

/-- The proximal map at `x` in a buffer, which keeps its length. -/
def proximalInto (f : Functional S) (x : Vec S) (tau : S) (out : Vec S) : Outcome (Vec S) Unit :=
  sameLength out (f.proximal x tau out)

/-- The proximal map of the conjugate at `x` in a buffer, which keeps its length. -/
def proximalConjugateInto (f : Functional S) (x : Vec S) (tau : S) (out : Vec S) : Outcome (Vec S) Unit :=
  sameLength out (f.proximalConjugate x tau out)

/-- An operation that is not offered, on a buffer that stays as it is. -/
def unsupported (operation : String) (out : Vec S) : Outcome (Vec S) Unit := .error (.unsupported operation) out

/-- Overwrites a buffer with values that were computed for it, if there are any and their number fits. -/
def overwrite (out : Vec S) (new : Option (Vec S)) : Outcome (Vec S) Unit :=
  .put (new.bind out.write?)

theorem sameLength_eq_ok_iff {out v : Vec S} {o : Outcome (Vec S) Unit} :
    sameLength out o = .ok () v ↔ o = .ok () v ∧ v.length = out.length := by
  rw [sameLength, Outcome.guard_eq_ok_iff, decide_eq_true_iff]

theorem sameLength_eq_error_iff {out v : Vec S} {o : Outcome (Vec S) Unit} {e : Error} :
    sameLength out o = .error e v ↔ o = .error e v ∧ v.length = out.length := by
  rw [sameLength, Outcome.guard_eq_error_iff, decide_eq_true_iff]

/-- A step that succeeds keeps the length of its buffer. -/
theorem length_of_sameLength {out v : Vec S} {o : Outcome (Vec S) Unit} (h : sameLength out o = .ok () v) :
    v.length = out.length :=
  (sameLength_eq_ok_iff.mp h).2

theorem overwrite_eq_ok_iff {out v : Vec S} {new : Option (Vec S)} :
    overwrite out new = .ok () v ↔ new = some v ∧ v.length = out.length := by
  cases new with
  | none => simp [overwrite, Outcome.put]
  | some w =>
    simp only [overwrite, Option.bind_some, Outcome.put_eq_ok_iff, Vec.write?_eq_some_iff, Option.some.injEq]
    constructor
    · rintro ⟨hl, rfl⟩
      exact ⟨rfl, hl⟩
    · rintro ⟨rfl, hl⟩
      exact ⟨hl, rfl⟩

variable [Scalar S]

/-- The proximal map of the conjugate, from the proximal map of the function itself. -/
def moreau (proximal : Vec S → S → Vec S → Outcome (Vec S) Unit) (x : Vec S) (tau : S) (out : Vec S) :
    Outcome (Vec S) Unit :=
  (sameLength out (proximal (x.map (· / tau)) (1 / tau) out)).bind fun _ out =>
    overwrite out (Vec.zip? (fun o a => a - tau * o) out x)

/-- A function of which only the value and the proximal map are given. -/
def ofProximal (value : Vec S → Option S) (proximal : Vec S → S → Vec S → Outcome (Vec S) Unit) :
    Functional S where
  value := value
  gradient _ out := unsupported "gradient" out
  proximal := proximal
  conjugate _ := .error (.error (.unsupported "convex_conjugate"))
  proximalConjugate := moreau proximal
  lipschitz := none

/-- The function with its gradient, conjugate and Lipschitz constant forgotten. -/
def proximalOnly (f : Functional S) : Functional S := ofProximal f.value f.proximal

end Functional

variable {S : Type} [Scalar S]

/-- The value of a term; zero if it is absent. -/
def valueOrZero (f : Option (Functional S)) (x : Vec S) : Option S :=
  match f with
  | some f => f.value x
  | none => some 0

/-- The gradient of a term in a buffer; zero if it is absent. -/
def gradientOrZero (f : Option (Functional S)) (x out : Vec S) : Outcome (Vec S) Unit :=
  match f with
  | some f => f.gradientInto x out
  | none => .ok () (Vec.zeros out.length)

/-- The proximal map of a term in a buffer; the point itself if it is absent. -/
def proximalOrIdentity (g : Option (Functional S)) (x : Vec S) (tau : S) (out : Vec S) :
    Outcome (Vec S) Unit :=
  match g with
  | some g => g.proximalInto x tau out
  | none => Functional.overwrite out (Vec.spread? out.length x)

end Splitting
