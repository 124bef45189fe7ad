import Splitting.Proofs.Exact.Coordinates

/-!
# `Splitting.Proofs.Exact.Euclidean` — vectors as points of Euclidean space

The vectors of one length are the points of a Euclidean space, with `Vec.pairing` as the inner product. What an
operation computes entry by entry on lists is stated there as the point that it leads to.

* `Space`, `Vec.ofPoint` — the space, and the vector of a point;
* `Vec.map_ofPoint`, `Vec.zipWith_ofPoint` — operations entry by entry;
* `Vec.pairing_ofPoint` — the inner product;
* `Vec.norm`, `Vec.distance` — the length of a vector, and the distance of two.
-/

namespace Splitting

open scoped RealInnerProductSpace

/-- The Euclidean space of dimension `n`. -/
abbrev Space (n : ℕ) : Type := EuclideanSpace ℝ (Fin n)

namespace Vec

/-- The length of a vector. -/
noncomputable def norm (x : Vec ℝ) : ℝ := √(pairing x x)

/-- The distance of two vectors. -/
noncomputable def distance (x u : Vec ℝ) : ℝ :=
  √(pairing (List.zipWith (· - ·) x u) (List.zipWith (· - ·) x u))

/-- The vector of a point: its coordinates. -/
def ofPoint {n : ℕ} (x : Space n) : Vec ℝ := List.ofFn fun i => x i

variable {n : ℕ}

@[simp] theorem length_ofPoint (x : Space n) : (ofPoint x).length = n := List.length_ofFn

/-- Every vector is the vector of a point. -/
theorem exists_ofPoint {x : Vec ℝ} (h : x.length = n) : ∃ p : Space n, ofPoint p = x := by
  subst h
  exact ⟨WithLp.toLp 2 fun i => x.get i, List.ofFn_get x⟩

theorem ofPoint_injective : Function.Injective (ofPoint : Space n → Vec ℝ) := by
  intro x y h
  ext i
  exact congrFun (List.ofFn_injective h) i

theorem map_ofPoint {f : ℝ → ℝ} {x z : Space n} (h : ∀ i, z i = f (x i)) : (ofPoint x).map f = ofPoint z := by
  rw [ofPoint, List.map_ofFn, ofPoint]
  exact congrArg List.ofFn (funext fun i => (h i).symm)

theorem zipWith_ofPoint {f : ℝ → ℝ → ℝ} {x y z : Space n} (h : ∀ i, z i = f (x i) (y i)) :
    List.zipWith f (ofPoint x) (ofPoint y) = ofPoint z := by
  refine List.ext_getElem (by simp) fun i hi hi' => ?_
  simp only [List.getElem_zipWith, ofPoint, List.getElem_ofFn]
  exact (h _).symm

theorem zip?_ofPoint {f : ℝ → ℝ → ℝ} {x y z : Space n} (h : ∀ i, z i = f (x i) (y i)) :
    zip? f (ofPoint x) (ofPoint y) = some (ofPoint z) :=
  zip?_eq_some_iff.mpr ⟨by rw [length_ofPoint, length_ofPoint], zipWith_ofPoint h⟩

theorem zeros_eq_ofPoint (n : ℕ) : (zeros n : Vec ℝ) = ofPoint (0 : Space n) :=
  (List.ofFn_const n 0).symm

theorem sum_ofPoint (x : Space n) : List.sum (ofPoint x) = ∑ i, x i := List.sum_ofFn

/-- **The inner product.** -/
theorem pairing_ofPoint (x y : Space n) : pairing (ofPoint x) (ofPoint y) = ⟪x, y⟫ := by
  have hproducts : List.zipWith (· * ·) (ofPoint x) (ofPoint y) = ofPoint (WithLp.toLp 2 fun i => x i * y i) :=
    zipWith_ofPoint fun _ => rfl
  rw [pairing, hproducts, sum_ofPoint, PiLp.inner_apply]
  refine Finset.sum_congr rfl fun i _ => ?_
  exact mul_comm _ _

theorem pairing_ofPoint_self (x : Space n) : pairing (ofPoint x) (ofPoint x) = ‖x‖ ^ 2 := by
  rw [pairing_ofPoint, real_inner_self_eq_norm_sq]

theorem norm_ofPoint (x : Space n) : norm (ofPoint x) = ‖x‖ := by
  rw [norm, pairing_ofPoint_self, Real.sqrt_sq (norm_nonneg _)]

theorem sub_ofPoint (x y : Space n) : List.zipWith (· - ·) (ofPoint x) (ofPoint y) = ofPoint (x - y) :=
  zipWith_ofPoint fun _ => rfl

theorem distance_ofPoint (x u : Space n) : distance (ofPoint x) (ofPoint u) = ‖x - u‖ := by
  rw [distance, sub_ofPoint, pairing_ofPoint_self, Real.sqrt_sq (norm_nonneg _)]

end Vec

end Splitting
