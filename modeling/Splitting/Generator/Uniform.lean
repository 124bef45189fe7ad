import Splitting.Generator.ChaCha

/-!
# `Splitting.Generator.Uniform` — fair indices and permutations

An index below `n` is the high half of the 64-bit product of a random word with `n`. Words whose product has
too large a low half are rejected, because they would favour some indices.

* `Generator.below` — an index below `n`; at most `rejections` words are rejected in a row, after which any
  word is taken, so that drawing always ends;
* `Generator.shuffle` — the list permuted by exchanges from its end to its front.
-/

namespace Splitting

-- Powers are those of the natural numbers themselves, also where they are a monoid among others.
attribute [local instance(2000)] instPowNat

namespace Generator

/-- The largest low half that is accepted: the largest multiple of `n` by a power of two that fits into a
    word, less one. -/
def zone (n : Nat) : Nat := n * 2 ^ (31 - n.log2) - 1

/-- How many words a single index may reject. Each is rejected with a chance below one half. -/
@[irreducible] def rejections : Nat := 128

/-- Draws words until one is accepted, or `budget` are rejected; then the next word is taken, whatever it is. This
    departs from the library of random numbers whose draws are followed here: its loop has no budget, and goes on
    until a word is accepted. Where a word is accepted within the budget, the index and the words used up are the
    same. -/
def belowWithin (n : Nat) : Nat → Generator → Nat × Generator
  | 0, g => (g.next.1.toNat * n / 2 ^ (32 : Nat), g.next.2)
  | budget + 1, g =>
    let (word, g) := g.next
    let product := word.toNat * n
    if product % 2 ^ (32 : Nat) ≤ zone n then (product / 2 ^ (32 : Nat), g) else belowWithin n budget g

/-- An index below `n`, for `n` from 1 to 2 ^ 32. -/
def below (g : Generator) (n : Nat) : Nat × Generator := belowWithin n rejections g

/-- Exchanges the entry at `i` with one at or before it, for every `i` from the given one down to 1. -/
def shuffleDown {α : Type} : Nat → Array α → Generator → Array α × Generator
  | 0, xs, g => (xs, g)
  | i + 1, xs, g =>
    let (j, g) := g.below (i + 2)
    shuffleDown i (xs.swapIfInBounds (i + 1) j) g

/-- The entries in random order. -/
def shuffle {α : Type} (g : Generator) (xs : Array α) : Array α × Generator :=
  shuffleDown (xs.size - 1) xs g

/-- An exchange keeps the entries, whatever the places. -/
theorem swapIfInBounds_perm {α : Type} (xs : Array α) (i j : Nat) : (xs.swapIfInBounds i j).Perm xs := by
  unfold Array.swapIfInBounds
  split
  · split
    · exact Array.swap_perm _ _
    · exact Array.Perm.refl _
  · exact Array.Perm.refl _

theorem shuffleDown_perm {α : Type} (i : Nat) (xs : Array α) (g : Generator) :
    (shuffleDown i xs g).1.Perm xs := by
  induction i generalizing xs g with
  | zero => exact Array.Perm.refl xs
  | succ i ih => exact (ih _ _).trans (swapIfInBounds_perm xs _ _)

/-- **A shuffled list is a permutation of the list,** whatever words the generator shows. -/
theorem shuffle_perm {α : Type} (g : Generator) (xs : Array α) : (g.shuffle xs).1.Perm xs :=
  shuffleDown_perm _ xs g

end Generator

end Splitting
