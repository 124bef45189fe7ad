import Splitting.Functional.Basic
import Splitting.Vec.Dot

/-!
# `Splitting.Functional.SquaredDistance` — the scaled squared distance to a point

The function `c · ‖x - b‖²`, or `c · ‖x‖²` without a centre. Its gradient has the Lipschitz constant `2 c`, and
its proximal map, its conjugate `‖y‖² / (4 c) + ⟨y, b⟩` and the proximal map of that have closed forms.
-/

namespace Splitting

/-- The function `scale · ‖x - center‖²`; an absent centre is the origin. -/
structure SquaredDistance (S : Type) where
  scale : S
  center : Option (Vec S)

namespace SquaredDistance

variable {S : Type} [Scalar S]

/-- The squared norm. -/
def unit : SquaredDistance S := ⟨1, none⟩

/-- Applies `shifted` to each entry of `x` and of the centre, or `plain` to each entry of `x` if there is no
    centre. -/
def entries (f : SquaredDistance S) (plain : S → S) (shifted : S → S → S) (x : Vec S) : Option (Vec S) :=
  match f.center with
  | some b => Vec.zip? shifted x b
  | none => some (x.map plain)

/-- The squared distance, summed in place order if there is a centre and in lanes if not. -/
def distanceSq? (f : SquaredDistance S) (x : Vec S) : Option S :=
  match f.center with
  | some b => (Vec.zip? (fun x b => (x - b) * (x - b)) x b).map Vec.sum
  | none => some x.normSq

def value? (f : SquaredDistance S) (x : Vec S) : Option S := do
  return f.scale * (← f.distanceSq? x)

def gradient? (f : SquaredDistance S) (x : Vec S) : Option (Vec S) :=
  let c2 := f.scale + f.scale
  f.entries (fun x => c2 * x) (fun x b => c2 * (x - b)) x

def proximal? (f : SquaredDistance S) (x : Vec S) (tau : S) : Option (Vec S) :=
  let t := (f.scale + f.scale) * tau
  f.entries (fun x => x / (1 + t)) (fun x b => (x + t * b) / (1 + t)) x

def conjugate? (f : SquaredDistance S) (y : Vec S) : Option S := do
  let linear ← match f.center with
    | some b => Vec.dot? y b
    | none => some 0
  return y.normSq / (((4 : Nat) : S) * f.scale) + linear

def proximalConjugate? (f : SquaredDistance S) (y : Vec S) (tau : S) : Option (Vec S) :=
  let denominator := 1 + tau / (f.scale + f.scale)
  f.entries (fun y => y / denominator) (fun y b => (y - tau * b) / denominator) y

/-- The operations of a squared distance. -/
def functional (f : SquaredDistance S) : Functional S where
  value := f.value?
  gradient x out := Functional.overwrite out (f.gradient? x)
  proximal x tau out := Functional.overwrite out (f.proximal? x tau)
  conjugate y :=
    match f.conjugate? y with
    | some v => .ok v
    | none => .error .mismatch
  proximalConjugate y tau out := Functional.overwrite out (f.proximalConjugate? y tau)
  lipschitz := some (f.scale + f.scale)

end SquaredDistance

end Splitting
