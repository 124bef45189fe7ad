import Splitting.Proofs.Subsets.Stream

/-!
# `Splitting.Proofs.Subsets.Rounds` — a list is walked round by round

A sampler that walks a list draws its entries in their order and begins again at the end. If the list is
permuted afresh, that happens before the first draw of a round and at no other time, so that each round shows
one permutation from its beginning to its end.

* `Sampler.draw_inside`, `Sampler.draw_first` — the two kinds of draws;
* `Sampler.after_fixed`, `Sampler.draws_fixed`, `Sampler.draws_after_of_fixed` — a list that is never
  permuted, from any place in a round;
* `Sampler.after_round`, `Sampler.draws_round` — one round of a list that is permuted at its beginning;
* `Sampler.Walks` — what holds after any draws, `Sampler.Walks.draw` and `Sampler.Walks.after` — that it does;
* `rounds_without_replacement` — the main statement.
-/

namespace Splitting

/-! ## Permutations of the indices -/

theorem size_of_perm_range {order : Array Nat} {n : Nat} (h : order.Perm (Array.range n)) : order.size = n :=
  h.size_eq.trans Array.size_range

theorem toList_perm_range {order : Array Nat} {n : Nat} (h : order.Perm (Array.range n)) :
    order.toList.Perm (List.range n) := by
  rw [← Array.toList_range]
  exact h.toList

namespace Sampler

variable {W : Type} [Scalar W] {s : Sampler W} {first order : Array Nat} {reshuffled : Bool}

/-! ## The two kinds of draws -/

/-- A draw that does not begin a round with a new permutation reads the list as it is. -/
theorem draw_inside (h : s.supply = .rounds first order reshuffled)
    (hinside : ¬(reshuffled = true ∧ s.position = 0)) :
    s.draw = (order.getD s.position 0, { s with position := (s.position + 1) % s.numSubsets }) := by
  obtain ⟨kind, n, seed, supply, position, generator⟩ := s
  subst h
  simp only [draw, if_neg hinside]

/-- The first draw of a round permutes the list and reads the first entry of the permuted one. -/
theorem draw_first (h : s.supply = .rounds first order true) (hstart : s.position = 0) :
    s.draw = ((s.generator.shuffle order).1.getD 0 0, { s with
      supply := .rounds first (s.generator.shuffle order).1 true
      position := 1 % s.numSubsets
      generator := (s.generator.shuffle order).2 }) := by
  obtain ⟨kind, n, seed, supply, position, generator⟩ := s
  subst h
  subst hstart
  rfl

/-! ## A list that is never permuted -/

/-- A sampler that walks a fixed list moves only its place in it. -/
theorem after_fixed (h : s.supply = .rounds first order false) (hposition : s.position < s.numSubsets)
    (k : Nat) : s.after k = { s with position := (s.position + k) % s.numSubsets } := by
  induction k with
  | zero =>
    rw [Nat.add_zero, Nat.mod_eq_of_lt hposition]
    rfl
  | succ k ih =>
    have hstep := draw_inside (s := { s with position := (s.position + k) % s.numSubsets }) h (by simp)
    rw [after_succ, ih, hstep]
    simp only [Nat.mod_add_mod, Nat.add_assoc]

theorem drawn_fixed (h : s.supply = .rounds first order false) (hposition : s.position < s.numSubsets)
    (k : Nat) : s.drawn k = order.getD ((s.position + k) % s.numSubsets) 0 := by
  have hstep := draw_inside (s := { s with position := (s.position + k) % s.numSubsets }) h (by simp)
  rw [drawn, after_fixed h hposition, hstep]

/-- **As many draws as the list has entries show the list,** turned to the place where they begin. -/
theorem draws_fixed (h : s.supply = .rounds first order false) (hposition : s.position < s.numSubsets)
    (hsize : order.size = s.numSubsets) : (s.draws s.numSubsets).1 = order.toList.rotate s.position := by
  rw [draws_eq]
  refine List.ext_getElem (by simp [hsize]) fun k hk _ => ?_
  have hplace : (k + s.position) % s.numSubsets < s.numSubsets := Nat.mod_lt _ (by omega)
  rw [List.getElem_map, List.getElem_range, drawn_fixed h hposition, List.getElem_rotate]
  simp [Array.getD, hplace, hsize, Nat.add_comm]

/-- **From a sampler that has just been made of a list,** and from any place in a round, as many draws as the
    list has entries show the list, turned to that place. -/
theorem draws_after_of_fixed {kind : SamplingKind} {seed : UInt64} (h : ofOrder kind order false seed = .ok s)
    (k : Nat) : ((s.after k).draws order.size).1 = order.toList.rotate k := by
  obtain ⟨hpos, rfl⟩ := ofOrder_eq_ok_iff.mp h
  let turned : Sampler W := { fresh kind order.size seed (.rounds order order false) with
    position := k % order.size }
  have hround := draws_fixed (s := turned) rfl (Nat.mod_lt _ hpos) rfl
  rw [after_fixed rfl hpos]
  simp only [fresh, Nat.zero_add]
  exact hround.trans (List.rotate_mod order.toList k)

/-! ## A list that is permuted at the beginning of a round -/

/-- Within a round the list stays as it was permuted at its beginning. -/
theorem after_round (h : s.supply = .rounds first order true) (hstart : s.position = 0) {k : Nat}
    (hk : 0 < k) (hround : k ≤ s.numSubsets) : s.after k = { s with
      supply := .rounds first (s.generator.shuffle order).1 true
      position := k % s.numSubsets
      generator := (s.generator.shuffle order).2 } := by
  induction k with
  | zero => omega
  | succ k ih =>
    rw [after_succ]
    by_cases hfirst : k = 0
    · subst hfirst
      rw [after_zero, draw_first h hstart]
    · -- the place is `k`, which is neither the beginning nor beyond the end
      have hinside : k % s.numSubsets = k := Nat.mod_eq_of_lt (by omega)
      rw [ih (by omega) (by omega), draw_inside rfl (by simp [hinside, hfirst])]
      simp only [hinside]

theorem drawn_round (h : s.supply = .rounds first order true) (hstart : s.position = 0) {k : Nat}
    (hround : k < s.numSubsets) : s.drawn k = (s.generator.shuffle order).1.getD k 0 := by
  rw [drawn]
  by_cases hfirst : k = 0
  · subst hfirst
    rw [after_zero, draw_first h hstart]
  · have hinside : k % s.numSubsets = k := Nat.mod_eq_of_lt hround
    rw [after_round h hstart (by omega) (by omega), draw_inside rfl (by simp [hinside, hfirst])]
    simp only [hinside]

/-- **A round shows the permutation that is drawn at its beginning.** -/
theorem draws_round (h : s.supply = .rounds first order true) (hstart : s.position = 0)
    (hsize : order.size = s.numSubsets) :
    (s.draws s.numSubsets).1 = (s.generator.shuffle order).1.toList := by
  have hshuffled : (s.generator.shuffle order).1.size = s.numSubsets :=
    (Generator.shuffle_perm s.generator order).size_eq.trans hsize
  rw [draws_eq]
  refine List.ext_getElem (by simp [hshuffled]) fun k hk _ => ?_
  have hround : k < s.numSubsets := by simpa using hk
  rw [List.getElem_map, List.getElem_range, drawn_round h hstart hround]
  simp [Array.getD, hshuffled, hround]

/-! ## Draw after draw -/

/-- The sampler walks a list, which may be permuted by now, and is at a place within it. -/
structure Walks (s : Sampler W) (first : Array Nat) (reshuffled : Bool) : Prop where
  supply : ∃ current, s.supply = .rounds first current reshuffled ∧ current.Perm first
  numSubsets : s.numSubsets = first.size
  position : s.position < first.size

omit [Scalar W] in
/-- A sampler that has just been made is at the first place of its list. -/
theorem walks_of_ofOrder {kind : SamplingKind} {seed : UInt64}
    (h : ofOrder kind first reshuffled seed = .ok s) : s.Walks first reshuffled ∧ s.position = 0 := by
  obtain ⟨hpos, rfl⟩ := ofOrder_eq_ok_iff.mp h
  exact ⟨⟨⟨first, rfl, Array.Perm.refl first⟩, rfl, hpos⟩, rfl⟩

namespace Walks

/-- **A draw names an entry of the list,** moves on by one place, and begins again after the last. -/
theorem draw (h : s.Walks first reshuffled) : s.draw.1 ∈ first ∧ s.draw.2.Walks first reshuffled ∧
    s.draw.2.position = (s.position + 1) % first.size := by
  obtain ⟨current, hsupply, hperm⟩ := h.supply
  have hnext : (s.position + 1) % s.numSubsets < first.size := by
    rw [h.numSubsets]
    exact Nat.mod_lt _ (Nat.zero_lt_of_lt h.position)
  have hread : ∀ {order : Array Nat}, order.Perm first → order.getD s.position 0 ∈ first := by
    intro order hperm
    have hplace : s.position < order.size := hperm.size_eq.symm ▸ h.position
    rw [Array.getD_eq_getD_getElem?, Array.getElem?_eq_getElem hplace, Option.getD_some]
    exact hperm.mem_iff.mp (Array.getElem_mem hplace)
  by_cases hfirst : reshuffled = true ∧ s.position = 0
  · obtain ⟨rfl, hstart⟩ := hfirst
    have hshuffled := (Generator.shuffle_perm s.generator current).trans hperm
    rw [draw_first hsupply hstart]
    refine ⟨hstart ▸ hread hshuffled, ⟨⟨_, rfl, hshuffled⟩, h.numSubsets, ?_⟩, ?_⟩
    · rw [hstart] at hnext
      exact hnext
    · rw [hstart, ← h.numSubsets]
  · rw [draw_inside hsupply hfirst]
    exact ⟨hread hperm, ⟨⟨current, hsupply, hperm⟩, h.numSubsets, hnext⟩, by rw [← h.numSubsets]⟩

/-- **Draws keep a sampler walking,** and its place is their number, counted round by round. -/
theorem after (h : s.Walks first reshuffled) (k : Nat) :
    (s.after k).Walks first reshuffled ∧ (s.after k).position = (s.position + k) % first.size := by
  induction k with
  | zero => exact ⟨h, (Nat.mod_eq_of_lt h.position).symm⟩
  | succ k ih =>
    obtain ⟨-, hwalks, hposition⟩ := ih.1.draw
    refine ⟨hwalks, hposition.trans ?_⟩
    rw [ih.2, Nat.mod_add_mod, Nat.add_assoc]

/-- **A round of a list that is permuted afresh shows its entries,** in some order. -/
theorem draws_perm (h : s.Walks first true) (hstart : s.position = 0) :
    (s.draws first.size).1.Perm first.toList := by
  obtain ⟨current, hsupply, hperm⟩ := h.supply
  have hround := draws_round hsupply hstart (hperm.size_eq.trans h.numSubsets.symm)
  rw [h.numSubsets] at hround
  rw [hround]
  exact ((Generator.shuffle_perm s.generator current).trans hperm).toList

/-- From a beginning of a round, every later round shows the entries of the list. -/
theorem draws_perm_of_rounds (h : s.Walks first true) (hstart : s.position = 0) (b : Nat) :
    ((s.after (b * first.size)).draws first.size).1.Perm first.toList := by
  obtain ⟨hwalks, hposition⟩ := h.after (b * first.size)
  refine hwalks.draws_perm ?_
  rw [hposition, hstart, Nat.zero_add, Nat.mul_mod_left]

end Walks

end Sampler

variable {W : Type} [Scalar W]

open Sampler in
/-- **Sampling without replacement.** For any positive number of subsets and any seed, the sampler that
    permutes afresh shows every index once in each of its rounds, counted from its first draw, and does so
    from any generator, whose unread words may be any words whatever; the sampler with a fixed permutation
    shows one and the same permutation in each round; and that is the permutation which the other one draws
    for its first round. -/
theorem rounds_without_replacement {n : Nat} (hn : 0 < n) (seed : UInt64) :
    ∃ fresh fixed : Sampler W, randomWithoutReplacement n seed true = .ok fresh ∧
      randomWithoutReplacement n seed false = .ok fixed ∧
      (∀ generator b, ((after { fresh with generator := generator } (b * n)).draws n).1.Perm (List.range n)) ∧
      ∃ order : List Nat, order.Perm (List.range n) ∧ (∀ b, ((fixed.after (b * n)).draws n).1 = order) ∧
        (fresh.draws n).1 = order := by
  let permuted := ((Generator.ofSeed seed).shuffle (Array.range n)).1
  have hperm : permuted.Perm (Array.range n) := Generator.shuffle_perm _ _
  have hsize : permuted.size = n := size_of_perm_range hperm
  obtain ⟨s, hs⟩ : ∃ s : Sampler W, randomWithoutReplacement n seed true = .ok s :=
    ⟨_, ofOrder_eq_ok_iff.mpr ⟨by rwa [Array.size_range], rfl⟩⟩
  obtain ⟨t, ht⟩ : ∃ t : Sampler W, randomWithoutReplacement n seed false = .ok t :=
    ⟨_, ofOrder_eq_ok_iff.mpr ⟨by rwa [hsize], rfl⟩⟩
  refine ⟨s, t, hs, ht, ?_, permuted.toList, toList_perm_range hperm, ?_, ?_⟩
  · intro generator b
    obtain ⟨hwalks, hstart⟩ := walks_of_ofOrder hs
    -- a walk does not depend on the words that the generator still holds
    have hround := Walks.draws_perm_of_rounds (s := { s with generator := generator })
      ⟨hwalks.supply, hwalks.numSubsets, hwalks.position⟩ hstart b
    rwa [Array.size_range, Array.toList_range] at hround
  · intro b
    have hround := draws_after_of_fixed ht (b * n)
    have hwhole : permuted.toList.rotate (b * n) = permuted.toList := by
      rw [← List.rotate_mod, Array.length_toList, hsize, Nat.mul_mod_left, List.rotate_zero]
    rw [show ((Generator.ofSeed seed).shuffle (Array.range n)).1.size = n from hsize] at hround
    exact hround.trans hwhole
  · obtain ⟨-, rfl⟩ := ofOrder_eq_ok_iff.mp hs
    let s : Sampler W :=
      fresh .randomWithoutReplacement (Array.range n).size seed (.rounds (Array.range n) (Array.range n) true)
    have hround := draws_round (s := s) rfl rfl rfl
    rwa [show s.numSubsets = n from Array.size_range] at hround

/-- Three subsets: a permutation for each round, and one for all rounds. -/
theorem rounds_without_replacement_of_three :
    ∃ fresh fixed : Sampler Float, 0 < 3 ∧ Sampler.randomWithoutReplacement 3 5 true = .ok fresh ∧
      Sampler.randomWithoutReplacement 3 5 false = .ok fixed ∧
      ((fresh.after 6).draws 3).1.Perm [0, 1, 2] ∧
      ((fixed.after 6).draws 3).1 = (fresh.draws 3).1 := by
  obtain ⟨fresh, fixed, hfresh, hfixed, hrounds, order, -, hsame, hfirst⟩ :=
    rounds_without_replacement (W := Float) (n := 3) (by decide) 5
  exact ⟨fresh, fixed, by decide, hfresh, hfixed, hrounds fresh.generator 2, (hsame 2).trans hfirst.symm⟩

end Splitting
