import Splitting.Proofs.Exact.Reals
import Splitting.Proofs.Subsets.Orders

/-!
# `Splitting.Proofs.Subsets.Frequencies` — what is drawn has a positive frequency

A sampler reports how often each index comes up, and draws indices. The two are computed apart: the report from
the list as it was at first, or from the probabilities as they were given; the draw from the list as it is
permuted now, or from partial sums of the probabilities. In exact arithmetic an index with the frequency zero is
never drawn, wherever the sampler is in its sequence.

* `Sampler.Reached`, `Sampler.Overruns` — the states that samplers come to, and the one way of drawing an index
  that is not below the number of subsets;
* `Sampler.Feeds`, `Sampler.Reached.feeds` — what a sampler draws from, in all of its states;
* `Sampler.getElem?_visits` — what a histogram counts;
* `Weighted.exists_pos_at` — a cumulative search ends at a positive weight;
* `Sampler.Reached.lt_or_overruns`, `Sampler.Reached.exists_pos` — the index that is drawn next.
-/

namespace Splitting

/-! ## The states of a sampler -/

namespace Sampler

variable {W : Type} [Scalar W] {s : Sampler W}

/-- The states that draws lead to, from a sampler that some constructor gives. Previews and clones lead to no
    others. -/
def Reached (s : Sampler W) : Prop := ∃ made k, Made made ∧ s = made.after k

omit [Scalar W] in
/-- The sampler walks a custom order that has an entry beyond its own length. -/
def Overruns (s : Sampler W) : Prop :=
  s.kind = .customOrder ∧ ∃ first current reshuffled, s.supply = .rounds first current reshuffled ∧
    ∃ i ∈ first, first.size ≤ i

/-- What a sampler draws from: a list that has every index once, or any custom one; or probabilities that its
    constructor has checked. -/
inductive Feeds (s : Sampler W) : Prop where
  | walk {first : Array Nat} {reshuffled : Bool} : s.Walks first reshuffled →
      first.Perm (Array.range first.size) ∨ s.kind = .customOrder → Feeds s
  | independent {probabilities : List W} {prepared : Weighted W} :
      s.supply = .independent probabilities prepared → probabilities.length = s.numSubsets →
      ¬1e-6 < Scalar.abs (probabilities.tail.foldl (· + ·) (probabilities.headD 0) - 1) →
      Weighted.ofWeights? probabilities = some prepared → Feeds s

theorem Made.reached (h : Made s) (k : Nat) : (s.after k).Reached := ⟨s, k, h, rfl⟩

theorem Reached.draw (h : s.Reached) : s.draw.2.Reached := by
  obtain ⟨made, k, hmade, rfl⟩ := h
  exact ⟨made, k + 1, hmade, rfl⟩

theorem kind_draw (s : Sampler W) : s.draw.2.kind = s.kind := by
  obtain ⟨kind, n, seed, supply, position, generator⟩ := s
  cases supply <;> rfl

/-- A draw leaves the reported frequencies as they are. -/
theorem frequencies_draw (s : Sampler W) : s.draw.2.frequencies = s.frequencies := by
  obtain ⟨kind, n, seed, supply, position, generator⟩ := s
  cases supply <;> rfl

theorem frequencies_after (s : Sampler W) (k : Nat) : (s.after k).frequencies = s.frequencies := by
  induction k with
  | zero => rfl
  | succ k ih => rw [after_succ, frequencies_draw, ih]

theorem overruns_draw_iff : s.draw.2.Overruns ↔ s.Overruns := by
  obtain ⟨kind, n, seed, supply, position, generator⟩ := s
  cases supply with
  | rounds first current reshuffled => simp [Overruns, Sampler.draw]
  | independent probabilities prepared => simp [Overruns, Sampler.draw]

theorem overruns_after_iff (k : Nat) : (s.after k).Overruns ↔ s.Overruns := by
  induction k with
  | zero => rfl
  | succ k ih => rw [after_succ, overruns_draw_iff, ih]

/-- A list that has every index once feeds the sampler that is made of it. -/
theorem feeds_of_ofOrder {kind : SamplingKind} {order : Array Nat} {reshuffled : Bool} {seed : UInt64}
    {n : Nat} (hperm : order.Perm (Array.range n)) (h : ofOrder kind order reshuffled seed = .ok s) :
    s.Feeds := by
  refine .walk (walks_of_ofOrder h).1 (Or.inl ?_)
  rwa [size_of_perm_range hperm]

theorem Made.feeds (h : Made s) : s.Feeds := by
  cases h with
  | sequential h => exact feeds_of_ofOrder (Array.Perm.refl _) h
  | customOrder h =>
    refine .walk (walks_of_ofOrder h).1 (Or.inr ?_)
    obtain ⟨-, rfl⟩ := ofOrder_eq_ok_iff.mp h
    rfl
  | hermanMeyer h =>
    obtain ⟨order, horder, h⟩ := hermanMeyer_eq_ok h
    exact feeds_of_ofOrder (hermanMeyerOrder_perm horder) h
  | staggered h =>
    obtain ⟨-, hoffset, h⟩ := staggered_eq_ok h
    exact feeds_of_ofOrder (staggeredOrder_perm hoffset) h
  | randomWithReplacement h =>
    obtain ⟨ps, prepared, -, -, hlength, htotal, hprepared, rfl⟩ := randomWithReplacement_eq_ok h
    exact .independent rfl hlength htotal hprepared
  | @randomWithoutReplacement n seed reshuffled _ h =>
    rw [randomWithoutReplacement_eq] at h
    refine feeds_of_ofOrder (n := n) ?_ h
    cases reshuffled with
    | true => exact Array.Perm.refl _
    | false => exact Generator.shuffle_perm _ _

/-- **A draw leaves what is drawn from.** -/
theorem Feeds.draw (h : s.Feeds) : s.draw.2.Feeds := by
  cases h with
  | walk hwalks hfirst =>
    refine .walk hwalks.draw.2.1 ?_
    rwa [kind_draw]
  | independent hsupply hlength htotal hprepared =>
    obtain ⟨kind, n, seed, supply, position, generator⟩ := s
    subst hsupply
    exact .independent rfl hlength htotal hprepared

theorem Reached.feeds (h : s.Reached) : s.Feeds := by
  obtain ⟨made, k, hmade, rfl⟩ := h
  induction k with
  | zero => exact hmade.feeds
  | succ k ih => exact ih.draw

/-! ## The frequencies of a list -/

omit [Scalar W] in
/-- Counting the entries of a list adds to each count as often as its index comes up. -/
theorem getElem?_foldl_modify (l : List Nat) (counts : Array Nat) (i : Nat) :
    (l.foldl (fun counts j => counts.modify j (· + 1)) counts)[i]? = counts[i]?.map (· + l.count i) := by
  induction l generalizing counts with
  | nil => simp
  | cons j l ih =>
    rw [List.foldl_cons, ih, Array.getElem?_modify, List.count_cons]
    by_cases hj : j = i
    · subst hj
      simp [Nat.add_comm 1]
    · simp [hj]

omit [Scalar W] in
/-- **What a histogram counts:** for each index below its length, how often the index stands in the list. -/
theorem getElem?_visits (n : Nat) (order : Array Nat) (i : Nat) :
    (visits n order)[i]? = if i < n then some (order.toList.count i) else none := by
  rw [visits, ← Array.foldl_toList, getElem?_foldl_modify, Array.getElem?_replicate]
  by_cases hi : i < n
  · simp [hi]
  · simp [hi]

/-- The share of an index in the list that is walked, whatever permutation of it is walked now. -/
theorem Walks.getElem?_frequencies {first : Array Nat} {reshuffled : Bool} (h : s.Walks first reshuffled)
    {i : Nat} (hi : i < s.numSubsets) :
    s.frequencies[i]? = some ((first.toList.count i : W) / (first.size : W)) := by
  obtain ⟨current, hsupply, -⟩ := h.supply
  simp only [frequencies, hsupply, List.getElem?_map, Array.getElem?_toList, getElem?_visits, if_pos hi,
    Option.map_some]

end Sampler

/-! ## Cumulative search -/

namespace Generator

/-- A uniform number is at least zero and less than one. -/
theorem unit_mem (g : Generator) : 0 ≤ (g.unit (W := ℝ)).1 ∧ (g.unit (W := ℝ)).1 < 1 := by
  -- the grid is written as a numeral, since there are two powers of natural numbers
  have hbits : (g.next64.1 >>> 12).toNat < 4503599627370496 := by
    have hword : g.next64.1.toNat < 2 ^ 64 := g.next64.1.toNat_lt
    rw [UInt64.toNat_shiftRight, Nat.shiftRight_eq_div_pow, show UInt64.toNat 12 % 64 = 12 from rfl]
    omega
  have hunit : (g.unit (W := ℝ)).1 = ((g.next64.1 >>> 12).toNat : ℝ) / ((4503599627370496 : ℕ) : ℝ) := by
    unfold unit
    rfl
  have hgrid : (0 : ℝ) < ((4503599627370496 : ℕ) : ℝ) := by positivity
  rw [hunit, div_lt_one hgrid]
  exact ⟨div_nonneg (Nat.cast_nonneg _) hgrid.le, Nat.cast_lt.mpr hbits⟩

end Generator

namespace Weighted

section

variable {W : Type} [Scalar W]

theorem length_sums (a : W) (ws : List W) : (sums a ws).length = ws.length := by
  induction ws generalizing a with
  | nil => rfl
  | cons w ws ih => rw [sums, List.length_cons, ih, List.length_cons]

/-- In any arithmetic, an index that is drawn is one of a weight. -/
theorem draw_lt {ps : List W} {d : Weighted W} (h : ofWeights? ps = some d) (g : Generator) :
    (d.draw g).1 < ps.length := by
  cases ps with
  | nil => cases h
  | cons w ws =>
    rw [ofWeights?] at h
    split at h
    · cases h
      rw [List.length_cons, ← length_sums w ws]
      exact Nat.lt_succ_of_le List.countP_le_length
    · cases h

end

/-- The sums that a running sum of weights passes through are no less than the one it starts from. -/
theorem le_of_mem_sums {a c : ℝ} {ws : List ℝ} (hws : ∀ w ∈ ws, 0 ≤ w) (hc : c ∈ sums a ws) : a ≤ c := by
  induction ws generalizing a with
  | nil => cases hc
  | cons w ws ih =>
    rcases List.mem_cons.mp hc with rfl | hc
    · exact le_refl c
    · have hw : 0 ≤ w := hws w List.mem_cons_self
      have := ih (fun v hv => hws v (List.mem_cons_of_mem w hv)) hc
      linarith

/-- **A cumulative search ends at a positive weight.** `a` is the sum of the weights before these, of which `w`
    is the first, and `c` is at least `a` and less than the sum of all. -/
theorem exists_pos_of_countP {a c w : ℝ} {ws : List ℝ} (hws : ∀ v ∈ w :: ws, 0 ≤ v) (hac : a ≤ c)
    (hc : c < a + (w :: ws).sum) :
    ∃ v, (w :: ws)[(sums (a + w) ws).countP fun b => b ≤ c]? = some v ∧ 0 < v := by
  induction ws generalizing a w with
  | nil =>
    rw [List.sum_singleton] at hc
    exact ⟨w, rfl, by linarith⟩
  | cons v ws ih =>
    have hrest : ∀ u ∈ v :: ws, 0 ≤ u := fun u hu => hws u (List.mem_cons_of_mem w hu)
    rw [sums, List.countP_cons]
    by_cases hpast : a + w ≤ c
    · -- the point lies beyond the first weight: the search goes on behind it
      rw [List.sum_cons, ← add_assoc] at hc
      obtain ⟨u, hu, hpos⟩ := ih hrest hpast hc
      refine ⟨u, ?_, hpos⟩
      simpa [hpast] using hu
    · -- no later sum is less, so that the search ends at the first weight
      have hnone : (sums (a + w + v) ws).countP (fun b => b ≤ c) = 0 := by
        refine List.countP_eq_zero.mpr fun b hb => ?_
        have hle := le_of_mem_sums (fun u hu => hrest u (List.mem_cons_of_mem v hu)) hb
        have hv : 0 ≤ v := hrest v List.mem_cons_self
        simp only [decide_eq_true_eq, not_le]
        linarith
      refine ⟨w, by simp [hnone, hpast], ?_⟩
      linarith

/-- **An index that is drawn has a positive weight,** wherever weights that are zero stand. -/
theorem exists_pos_at {ps : List ℝ} {d : Weighted ℝ} (h : ofWeights? ps = some d)
    (htotal : 0 < ps.sum) (g : Generator) : ∃ p, ps[(d.draw g).1]? = some p ∧ 0 < p := by
  cases ps with
  | nil => cases h
  | cons w ws =>
    rw [ofWeights?] at h
    split at h
    · next hall =>
      cases h
      obtain ⟨hnonneg, hlt⟩ := g.unit_mem
      have hws : ∀ v ∈ w :: ws, 0 ≤ v := by simpa using hall
      have hsum : ws.foldl (· + ·) w = (w :: ws).sum := Vec.foldl_add_eq
      have hpoint : g.unit.1 * (ws.foldl (· + ·) w) < 0 + (w :: ws).sum := by
        rw [hsum, zero_add]
        exact mul_lt_of_lt_one_left htotal hlt
      have hpos := exists_pos_of_countP hws (a := 0) (mul_nonneg hnonneg (hsum ▸ htotal.le)) hpoint
      rwa [zero_add] at hpos
    · cases h

end Weighted

/-! ## What is drawn next -/

namespace Sampler

/-- A list that has every index once has none beyond its length. -/
theorem lt_of_mem_of_perm {first : Array Nat} (h : first.Perm (Array.range first.size)) {i : Nat}
    (hi : i ∈ first) : i < first.size := by
  have hmem := h.mem_iff.mp hi
  rwa [Array.mem_range] at hmem

theorem Walks.lt_or_overruns {W : Type} [Scalar W] {s : Sampler W} {first : Array Nat} {reshuffled : Bool}
    (h : s.Walks first reshuffled) (hfirst : first.Perm (Array.range first.size) ∨ s.kind = .customOrder) :
    s.draw.1 < s.numSubsets ∨ s.Overruns := by
  have hmem : s.draw.1 ∈ first := h.draw.1
  rw [h.numSubsets]
  by_cases hlt : s.draw.1 < first.size
  · exact Or.inl hlt
  · rcases hfirst with hperm | hkind
    · exact absurd (lt_of_mem_of_perm hperm hmem) hlt
    · obtain ⟨current, hsupply, -⟩ := h.supply
      exact Or.inr ⟨hkind, first, current, reshuffled, hsupply, _, hmem, Nat.le_of_not_lt hlt⟩

theorem Walks.exists_pos {s : Sampler ℝ} {first : Array Nat} {reshuffled : Bool}
    (h : s.Walks first reshuffled) (hlt : s.draw.1 < s.numSubsets) :
    ∃ p, s.frequencies[s.draw.1]? = some p ∧ 0 < p := by
  refine ⟨_, h.getElem?_frequencies hlt, ?_⟩
  have hcount : 0 < first.toList.count s.draw.1 := List.count_pos_iff.mpr (by simpa using h.draw.1)
  have hsize : 0 < first.size := Nat.zero_lt_of_lt h.position
  exact div_pos (Nat.cast_pos.mpr hcount) (Nat.cast_pos.mpr hsize)

/-- Probabilities with a total near one have a positive sum. -/
theorem sum_pos_of_total {ps : List ℝ}
    (h : ¬1e-6 < Scalar.abs (ps.tail.foldl (· + ·) (ps.headD 0) - 1)) : 0 < ps.sum := by
  rw [Vec.foldl_tail_eq_sum, scalar_abs, not_lt, abs_le] at h
  norm_num at h
  linarith [h.1]

namespace Reached

/-- **The index that is drawn next is below the number of subsets,** in any arithmetic, unless a custom order
    overruns. -/
theorem lt_or_overruns {W : Type} [Scalar W] {s : Sampler W} (h : s.Reached) :
    s.draw.1 < s.numSubsets ∨ s.Overruns := by
  cases h.feeds with
  | walk hwalks hfirst => exact hwalks.lt_or_overruns hfirst
  | independent hsupply hlength _ hprepared =>
    obtain ⟨kind, n, seed, supply, position, generator⟩ := s
    subst hsupply
    exact Or.inl (hlength ▸ Weighted.draw_lt hprepared generator)

/-- **The index that is drawn next has a positive frequency,** if it has one at all. -/
theorem exists_pos {s : Sampler ℝ} (h : s.Reached) (hlt : s.draw.1 < s.numSubsets) :
    ∃ p, s.frequencies[s.draw.1]? = some p ∧ 0 < p := by
  cases h.feeds with
  | walk hwalks _ => exact hwalks.exists_pos hlt
  | independent hsupply _ htotal hprepared =>
    obtain ⟨kind, n, seed, supply, position, generator⟩ := s
    subst hsupply
    exact Weighted.exists_pos_at hprepared (sum_pos_of_total htotal) generator

end Reached

end Sampler

end Splitting
