import Splitting.Proofs.Exact.Reals

/-!
# `Splitting.Proofs.Exact.Coordinates` — vectors as sequences of real numbers

A vector is a list, and lists of one length are added entry by entry, but there is no sum of two lists of
different lengths. Continued by zeros, every vector is a sequence of real numbers, and sequences form a
vector space: an equation between vectors of one length is proved there.

* `Vec.coords` — the entries of a vector, continued by zeros;
* `Vec.eq_of_coords` — vectors of one length are equal if their sequences are;
* `Vec.coords_zipWith`, `Vec.coords_map` — operations entry by entry;
* `Vec.pairing_eq_sum` — the inner product as a finite sum, and that it is bilinear.
-/

namespace Splitting

namespace Vec

/-- The entries of a vector, continued by zeros. -/
def coords (x : Vec ℝ) : ℕ → ℝ := fun i => x.getD i 0

theorem coords_apply (x : Vec ℝ) (i : ℕ) : x.coords i = x.getD i 0 := rfl

theorem eq_of_coords {x y : Vec ℝ} (hl : x.length = y.length) (h : x.coords = y.coords) : x = y := by
  refine List.ext_getElem hl fun i hi hi' => ?_
  have := congrFun h i
  rwa [coords_apply, coords_apply, List.getD_eq_getElem _ _ hi, List.getD_eq_getElem _ _ hi'] at this

theorem coords_of_length_le {x : Vec ℝ} {i : ℕ} (h : x.length ≤ i) : x.coords i = 0 :=
  List.getD_eq_default _ _ h

theorem coords_zipWith {f : ℝ → ℝ → ℝ} (hf : f 0 0 = 0) {x y : Vec ℝ} (h : x.length = y.length) (i : ℕ) :
    coords (List.zipWith f x y) i = f (x.coords i) (y.coords i) := by
  by_cases hi : i < x.length
  · have hz : i < (List.zipWith f x y).length := by rwa [length_zipWith_of_length rfl h.symm]
    rw [coords_apply, coords_apply, coords_apply, List.getD_eq_getElem _ _ hz, List.getD_eq_getElem _ _ hi,
      List.getD_eq_getElem _ _ (h ▸ hi), List.getElem_zipWith]
  · -- beyond the end all entries count as zero
    have hx : x.length ≤ i := Nat.le_of_not_lt hi
    have hz : (List.zipWith f x y).length ≤ i := by rwa [length_zipWith_of_length rfl h.symm]
    rw [coords_of_length_le hz, coords_of_length_le hx, coords_of_length_le (h ▸ hx), hf]

theorem coords_map {f : ℝ → ℝ} (hf : f 0 = 0) (x : Vec ℝ) (i : ℕ) : coords (x.map f) i = f (x.coords i) := by
  by_cases hi : i < x.length
  · rw [coords_apply, coords_apply, List.getD_eq_getElem _ _ (by simpa using hi), List.getD_eq_getElem _ _ hi,
      List.getElem_map]
  · have hx : x.length ≤ i := Nat.le_of_not_lt hi
    rw [coords_of_length_le (by simpa using hx), coords_of_length_le hx, hf]

theorem coords_map_of_lt {α : Type} {f : α → ℝ} {l : List α} {i : ℕ} (hi : i < l.length) (d : α) :
    coords (l.map f) i = f (l.getD i d) := by
  rw [coords_apply, List.getD_eq_getElem _ _ (by rwa [List.length_map]), List.getElem_map,
    List.getD_eq_getElem _ _ hi]

theorem coords_add {x y : Vec ℝ} (h : x.length = y.length) :
    coords (List.zipWith (· + ·) x y) = x.coords + y.coords :=
  funext fun i => coords_zipWith (add_zero 0) h i

theorem coords_sub {x y : Vec ℝ} (h : x.length = y.length) :
    coords (List.zipWith (fun old new => new - old) x y) = y.coords - x.coords :=
  funext fun i => coords_zipWith (f := fun old new => new - old) (sub_zero 0) h i

@[simp] theorem coords_zeros (n : ℕ) : (Vec.zeros n : Vec ℝ).coords = 0 := by
  funext i
  by_cases hi : i < n
  · rw [coords_apply, List.getD_eq_getElem _ _ (by simpa using hi)]
    exact List.getElem_replicate _
  · exact coords_of_length_le (by simpa using hi)

theorem list_sum_eq_sum (x : Vec ℝ) : List.sum x = ∑ i ∈ Finset.range x.length, x.coords i := by
  induction x with
  | nil => rfl
  | cons a x ih =>
    rw [List.sum_cons, List.length_cons, Finset.sum_range_succ', ih, add_comm]
    rfl

theorem pairing_eq_sum {x y : Vec ℝ} (h : x.length = y.length) :
    pairing x y = ∑ i ∈ Finset.range x.length, x.coords i * y.coords i := by
  have hl : (List.zipWith (· * ·) x y).length = x.length := length_zipWith_of_length rfl h.symm
  rw [pairing, list_sum_eq_sum, hl]
  exact Finset.sum_congr rfl fun i _ => coords_zipWith (mul_zero 0) h i

/-! ## The inner product is bilinear -/

theorem pairing_comm (x y : Vec ℝ) : pairing x y = pairing y x := by
  rw [pairing, pairing, List.zipWith_comm]
  simp only [mul_comm]

theorem pairing_add_right {x y y' : Vec ℝ} (h : x.length = y.length) (h' : y.length = y'.length) :
    pairing x (List.zipWith (· + ·) y y') = pairing x y + pairing x y' := by
  have hl : x.length = (List.zipWith (· + ·) y y').length :=
    (length_zipWith_of_length h.symm (h.trans h').symm).symm
  rw [pairing_eq_sum hl, pairing_eq_sum h, pairing_eq_sum (h.trans h'), coords_add h',
    ← Finset.sum_add_distrib]
  exact Finset.sum_congr rfl fun i _ => mul_add _ _ _

theorem pairing_smul_right {x y : Vec ℝ} (c : ℝ) (h : x.length = y.length) :
    pairing x (y.map (c * ·)) = c * pairing x y := by
  rw [pairing_eq_sum (h.trans (List.length_map _).symm), pairing_eq_sum h, Finset.mul_sum]
  refine Finset.sum_congr rfl fun i _ => ?_
  rw [coords_map (mul_zero c)]
  ring

theorem pairing_neg_right {x y : Vec ℝ} (h : x.length = y.length) :
    pairing x (y.map (- ·)) = -pairing x y := by
  rw [pairing_eq_sum (h.trans (List.length_map _).symm), pairing_eq_sum h, ← Finset.sum_neg_distrib]
  refine Finset.sum_congr rfl fun i _ => ?_
  rw [coords_map neg_zero]
  ring

theorem pairing_zeros_right {x : Vec ℝ} {n : ℕ} (h : x.length = n) : pairing x (zeros n) = 0 := by
  rw [pairing_eq_sum (h.trans (length_zeros n).symm), coords_zeros]
  exact Finset.sum_eq_zero fun i _ => mul_zero _

end Vec

end Splitting
