import Splitting.Vec.Basic

/-!
# `Splitting.Vec.Dot` — the two orders in which an inner product is summed

Vectors that lie in one piece are summed in eight lanes: the product at place `i` of each full group of eight
goes to lane `i mod 8`, the lanes are folded in four pairs, and the products after the last full group follow
one by one. Vectors that are taken out of a larger array with a stride are summed plainly from left to right.
Below eight entries the two agree.

* `Vec.laneSum` — the sum in eight lanes;
* `Vec.dot?`, `Vec.stridedDot?` — the two inner products.
-/

namespace Splitting

namespace Vec

variable {S : Type} [Scalar S]

/-- Eight partial sums. -/
structure Lanes (S : Type) where
  l0 : S
  l1 : S
  l2 : S
  l3 : S
  l4 : S
  l5 : S
  l6 : S
  l7 : S

namespace Lanes

/-- Eight sums of nothing. -/
def zero : Lanes S := ⟨0, 0, 0, 0, 0, 0, 0, 0⟩

/-- The lanes folded in the pairs (0, 4), (1, 5), (2, 6), (3, 7), one after the other. -/
def total (l : Lanes S) : S := 0 + (l.l0 + l.l4) + (l.l1 + l.l5) + (l.l2 + l.l6) + (l.l3 + l.l7)

/-- Adds the products that remain: full groups of eight into the lanes, the rest to their total. -/
def accumulate (l : Lanes S) : List S → S
  | p0 :: p1 :: p2 :: p3 :: p4 :: p5 :: p6 :: p7 :: rest =>
    accumulate ⟨l.l0 + p0, l.l1 + p1, l.l2 + p2, l.l3 + p3, l.l4 + p4, l.l5 + p5, l.l6 + p6, l.l7 + p7⟩ rest
  | rest => rest.foldl (· + ·) l.total

end Lanes

/-- The sum of a list in eight lanes. -/
def laneSum (products : List S) : S := Lanes.zero.accumulate products

/-- The inner product of two vectors of one length, each lying in one piece. -/
def dot? (x y : Vec S) : Option S := (zip? (· * ·) x y).map laneSum

/-- The inner product of two vectors of one length, one of them strided. -/
def stridedDot? (x y : Vec S) : Option S := (zip? (· * ·) x y).map sum

/-- The inner product of a vector with itself. -/
def normSq (x : Vec S) : S := laneSum (List.zipWith (· * ·) x x)

theorem dot?_self (x : Vec S) : dot? x x = some x.normSq := by
  simp [dot?, zip?, normSq]

end Vec

end Splitting
