import Splitting.Scalar.Basic

/-!
# `Splitting.Vec.Basic` — vectors and the lengths that have to fit

A vector is the list of its entries. Operations on two vectors have no value when the lengths differ; where a
right-hand side of one entry may stand for a whole vector, that is `Vec.spread?`.

* `Vec.zip?` — entry by entry, on equal lengths;
* `Vec.spread?` — a vector of the right length, or a single entry repeated;
* `Vec.write?` — new contents for a buffer, which keeps its length;
* `Vec.sum` — the sum from left to right.
-/

namespace Splitting

/-- A vector, as the list of its entries. -/
abbrev Vec (S : Type) := List S

namespace Vec

variable {S : Type}

/-- Combines two vectors of one length entry by entry. -/
def zip? {α β γ : Type} (f : α → β → γ) (x : Vec α) (y : Vec β) : Option (Vec γ) :=
  if x.length = y.length then some (List.zipWith f x y) else none

/-- The vector as a right-hand side for `n` entries: itself if it has `n`, and its entry `n` times if it has
    a single one. -/
def spread? (n : Nat) (x : Vec S) : Option (Vec S) :=
  if x.length = n then some x
  else match x with
    | [a] => some (List.replicate n a)
    | _ => none

/-- New contents for a buffer, which have to have its length. -/
def write? (out new : Vec S) : Option (Vec S) :=
  if new.length = out.length then some new else none

/-- The sum of the entries from left to right, beginning with zero. -/
def sum [Scalar S] (x : Vec S) : S := x.foldl (· + ·) 0

/-- The vector of `n` zeros. -/
def zeros [Scalar S] (n : Nat) : Vec S := List.replicate n 0

theorem length_zipWith_of_length {α β γ : Type} {f : α → β → γ} {x : Vec α} {y : Vec β} {n : Nat}
    (hx : x.length = n) (hy : y.length = n) : (List.zipWith f x y).length = n := by
  rw [List.length_zipWith]
  omega

theorem zip?_eq_some_iff {α β γ : Type} {f : α → β → γ} {x : Vec α} {y : Vec β} {z : Vec γ} :
    zip? f x y = some z ↔ x.length = y.length ∧ List.zipWith f x y = z := by
  unfold zip?
  split
  · next h => simp [h]
  · next h => simp [h]

theorem length_of_zip? {α β γ : Type} {f : α → β → γ} {x : Vec α} {y : Vec β} {z : Vec γ}
    (h : zip? f x y = some z) : z.length = x.length := by
  obtain ⟨hxy, rfl⟩ := zip?_eq_some_iff.mp h
  simp [hxy]

theorem write?_eq_some_iff {out new z : Vec S} :
    write? out new = some z ↔ new.length = out.length ∧ new = z := by
  unfold write?
  split
  · next h => simp [h]
  · next h => simp [h]

theorem spread?_eq_self {n : Nat} {x : Vec S} (h : x.length = n) : spread? n x = some x := by
  unfold spread?
  rw [if_pos h]

theorem length_of_spread? {n : Nat} {x z : Vec S} (h : spread? n x = some z) : z.length = n := by
  unfold spread? at h
  split at h
  · next hx => cases h; exact hx
  · split at h
    · cases h; simp
    · cases h

@[simp] theorem length_zeros [Scalar S] (n : Nat) : (zeros n : Vec S).length = n := List.length_replicate

/-- An operation for which zero is neutral on the right. -/
theorem zipWith_zeros [Scalar S] {f : S → S → S} (hf : ∀ a, f a 0 = a) {x : Vec S} {n : Nat}
    (h : x.length = n) : List.zipWith f x (zeros n) = x := by
  subst h
  induction x with
  | nil => rfl
  | cons a x ih =>
    rw [List.length_cons, zeros, List.replicate_succ, List.zipWith_cons_cons, hf]
    exact congrArg (a :: ·) ih

end Vec

end Splitting
