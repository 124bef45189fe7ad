import Mathlib
import Splitting.Outcome
import Splitting.Scalar.Binary
import Splitting.Subsets.Sampler

/-!
# `Splitting.Proofs.Subsets.Stream` — the sequence that a sampler reads

A sampler settles its whole sequence of indices when it is made. Drawing only moves along it, a preview goes
back to its beginning, and a clone keeps a place of its own. This module proves that no interleaving of these
uses can be told from counters that read the sequence.

* `Sampler.after`, `Sampler.drawn` — a sampler after some draws, and the index it draws then;
* `Sampler.Made` — the samplers that there are, by their constructors;
* `Sampler.restart_after`, `Sampler.Made.restart_eq` — a sampler goes back to the state it was made in;
* `Use`, `Reader`, `Reader.session` — the uses of a sampler and of its clones;
* `previews_and_draws_read_one_sequence` — the main statement.
-/

namespace Splitting

/-! ## Draws one after another -/

namespace Sampler

variable {W : Type} [Scalar W]

/-- The sampler after `k` draws. -/
def after (s : Sampler W) : Nat → Sampler W
  | 0 => s
  | k + 1 => (s.after k).draw.2

/-- The index that comes after `k` others. -/
def drawn (s : Sampler W) (k : Nat) : Nat := (s.after k).draw.1

@[simp] theorem after_zero (s : Sampler W) : s.after 0 = s := rfl

theorem after_succ (s : Sampler W) (k : Nat) : s.after (k + 1) = (s.after k).draw.2 := rfl

theorem after_after (s : Sampler W) (j k : Nat) : (s.after j).after k = s.after (j + k) := by
  induction k with
  | zero => rfl
  | succ k ih => rw [after_succ, ih, ← Nat.add_assoc, after_succ]

theorem drawn_after (s : Sampler W) (j k : Nat) : (s.after j).drawn k = s.drawn (j + k) := by
  rw [drawn, drawn, after_after]

theorem draws_succ (m : Nat) (s : Sampler W) :
    s.draws (m + 1) = (s.draw.1 :: (s.draw.2.draws m).1, (s.draw.2.draws m).2) := rfl

/-- **What `m` draws in one go give:** the first `m` indices one by one, and the sampler after them. -/
theorem draws_eq (m : Nat) (s : Sampler W) : s.draws m = ((List.range m).map s.drawn, s.after m) := by
  induction m generalizing s with
  | zero => rfl
  | succ m ih =>
    have hrest : s.draw.2.drawn = fun k => s.drawn (k + 1) := by
      funext k
      rw [Nat.add_comm]
      exact drawn_after s 1 k
    have hend : s.draw.2.after m = s.after (m + 1) := by
      rw [Nat.add_comm]
      exact after_after s 1 m
    rw [draws_succ, ih, hrest, hend, List.range_succ_eq_map, List.map_cons, List.map_map]
    rfl

/-! ## The samplers that there are -/

omit [Scalar W] in
/-- A list can be walked exactly when it is not empty. -/
theorem ofOrder_eq_ok_iff {kind : SamplingKind} {order : Array Nat} {reshuffled : Bool} {seed : UInt64}
    {s : Sampler W} : ofOrder kind order reshuffled seed = .ok s ↔
      0 < order.size ∧ s = fresh kind order.size seed (.rounds order order reshuffled) := by
  unfold ofOrder
  by_cases h : order.size = 0
  · simp [h]
  · simp only [if_neg h, Except.ok.injEq, Nat.pos_of_ne_zero h, true_and]
    exact eq_comm

/-- What there is to independent draws: one probability for each index, with a total near one, and none of
    them negative. -/
theorem randomWithReplacement_eq_ok {n : Nat} {probabilities : Option (List W)} {seed : UInt64}
    {s : Sampler W} (h : randomWithReplacement n probabilities seed = .ok s) :
    ∃ ps prepared, ps = probabilities.getD (List.replicate n (1 / (n : W))) ∧ 0 < n ∧ ps.length = n ∧
      ¬1e-6 < Scalar.abs (ps.tail.foldl (· + ·) (ps.headD 0) - 1) ∧
      Weighted.ofWeights? ps = some prepared ∧
      s = fresh .randomWithReplacement n seed (.independent ps prepared) := by
  unfold randomWithReplacement at h
  by_cases hn : n = 0
  · simp [hn] at h
  · rw [if_neg hn] at h
    dsimp only at h
    split at h
    · cases h
    · next hlength =>
      split at h
      · cases h
      · next htotal =>
        split at h
        · cases h
        · next prepared hprepared =>
          cases h
          exact ⟨_, prepared, rfl, Nat.pos_of_ne_zero hn, Decidable.not_not.mp hlength, htotal, hprepared,
            rfl⟩

/-- The samplers that some constructor gives. -/
inductive Made : Sampler W → Prop where
  | sequential {n : Nat} {s : Sampler W} : Sampler.sequential n = .ok s → Made s
  | customOrder {order : Array Nat} {s : Sampler W} : Sampler.customOrder order = .ok s → Made s
  | hermanMeyer {n : Nat} {s : Sampler W} : Sampler.hermanMeyer n = .ok s → Made s
  | staggered {n offset : Nat} {s : Sampler W} : Sampler.staggered n offset = .ok s → Made s
  | randomWithReplacement {n : Nat} {probabilities : Option (List W)} {seed : UInt64} {s : Sampler W} :
      Sampler.randomWithReplacement n probabilities seed = .ok s → Made s
  | randomWithoutReplacement {n : Nat} {seed : UInt64} {reshuffled : Bool} {s : Sampler W} :
      Sampler.randomWithoutReplacement n seed reshuffled = .ok s → Made s

omit [Scalar W] in
theorem hermanMeyer_eq_ok {n : Nat} {s : Sampler W} (h : hermanMeyer n = .ok s) :
    ∃ order, hermanMeyerOrder n = .ok order ∧ ofOrder .hermanMeyer order false 0 = .ok s :=
  Except.bind_eq_ok_iff.mp h

omit [Scalar W] in
theorem staggered_eq_ok {n offset : Nat} {s : Sampler W} (h : staggered n offset = .ok s) :
    offset < n ∧ 0 < offset ∧ ofOrder .staggered (staggeredOrder n offset) false 0 = .ok s := by
  unfold staggered at h
  split at h
  · cases h
  · next hn =>
    split at h
    · cases h
    · next hoffset => exact ⟨Nat.lt_of_not_le hn, Nat.pos_of_ne_zero hoffset, h⟩

omit [Scalar W] in
theorem randomWithoutReplacement_eq (n : Nat) (seed : UInt64) (reshuffled : Bool) :
    (randomWithoutReplacement n seed reshuffled : Except Error (Sampler W)) =
      ofOrder .randomWithoutReplacement
        (if reshuffled then Array.range n else ((Generator.ofSeed seed).shuffle (Array.range n)).1)
        reshuffled seed := by
  cases reshuffled <;> rfl

/-- **A sampler walks a list or draws independently,** and has drawn nothing when it is made. -/
theorem Made.cases_supply {s : Sampler W} (h : Made s) :
    (∃ kind order reshuffled seed, ofOrder kind order reshuffled seed = .ok s) ∨
      ∃ n probabilities seed, Sampler.randomWithReplacement n probabilities seed = .ok s := by
  cases h with
  | sequential h => exact Or.inl ⟨_, _, _, _, h⟩
  | customOrder h => exact Or.inl ⟨_, _, _, _, h⟩
  | hermanMeyer h =>
    obtain ⟨order, -, h⟩ := hermanMeyer_eq_ok h
    exact Or.inl ⟨_, _, _, _, h⟩
  | staggered h => exact Or.inl ⟨_, _, _, _, (staggered_eq_ok h).2.2⟩
  | randomWithReplacement h => exact Or.inr ⟨_, _, _, h⟩
  | randomWithoutReplacement h =>
    rw [randomWithoutReplacement_eq] at h
    exact Or.inl ⟨_, _, _, _, h⟩

/-! ## Going back to the beginning -/

/-- A draw moves nothing that a restart keeps: the kind, the size, the seed and the first list. -/
theorem restart_draw (s : Sampler W) : s.draw.2.restart = s.restart := by
  obtain ⟨kind, n, seed, supply, position, generator⟩ := s
  cases supply <;> rfl

/-- **A restart forgets every draw.** -/
theorem restart_after (s : Sampler W) (k : Nat) : (s.after k).restart = s.restart := by
  induction k with
  | zero => rfl
  | succ k ih => rw [after_succ, restart_draw, ih]

/-- **A sampler that has just been made is where a restart leads.** Also the permutation that is drawn when
    the sampler is made and then kept for ever is its first list, and the generator has been put back. -/
theorem Made.restart_eq {s : Sampler W} (h : Made s) : s.restart = s := by
  rcases h.cases_supply with ⟨kind, order, reshuffled, seed, h⟩ | ⟨n, probabilities, seed, h⟩
  · obtain ⟨-, rfl⟩ := ofOrder_eq_ok_iff.mp h
    rfl
  · obtain ⟨ps, prepared, -, -, -, -, -, rfl⟩ := randomWithReplacement_eq_ok h
    rfl

/-- A preview shows the indices from the beginning, whatever has been drawn. -/
theorem Made.preview_after {s : Sampler W} (h : Made s) (k m : Nat) :
    (s.after k).preview m = (List.range m).map s.drawn := by
  rw [preview, restart_after, h.restart_eq, draws_eq]

end Sampler

/-! ## Uses of a sampler and of its clones -/

/-- What is done to one of several samplers, which is named by its place among them. -/
inductive Use where
  /-- The next index is taken. -/
  | next (who : Nat)
  /-- The first `m` indices are looked at. -/
  | preview (who m : Nat)
  /-- A clone is made, at the end of the row. -/
  | clone (who : Nat)
deriving DecidableEq, Repr

/-- What a use shows. -/
inductive Reply where
  | index (i : Nat)
  | samples (is : List Nat)
  /-- The place of a clone. -/
  | place (who : Nat)
  /-- There is nobody at the place that was named. -/
  | nobody
deriving DecidableEq, Repr

/-- Something that can be read index by index and previewed; `ρ` is its state. -/
structure Reader (ρ : Type) where
  next : ρ → Nat × ρ
  preview : ρ → Nat → List Nat

namespace Reader

variable {ρ τ : Type}

/-- One use, of one of the readers in a row. -/
def use (r : Reader ρ) (row : List ρ) : Use → Reply × List ρ
  | .next who =>
    match row[who]? with
    | some s => (.index (r.next s).1, row.set who (r.next s).2)
    | none => (.nobody, row)
  | .preview who m =>
    match row[who]? with
    | some s => (.samples (r.preview s m), row)
    | none => (.nobody, row)
  | .clone who =>
    match row[who]? with
    | some s => (.place row.length, row ++ [s])
    | none => (.nobody, row)

/-- Uses one after another: all that they show, and the row after them. -/
def session (r : Reader ρ) (row : List ρ) : List Use → List Reply × List ρ
  | [] => ([], row)
  | u :: rest =>
    let (reply, row) := r.use row u
    let (replies, row) := r.session row rest
    (reply :: replies, row)

/-- The state `t` of one reader stands for the state `f t` of the other. -/
structure Simulates (q : Reader τ) (r : Reader ρ) (f : τ → ρ) : Prop where
  next : ∀ t, r.next (f t) = ((q.next t).1, f (q.next t).2)
  preview : ∀ t m, r.preview (f t) m = q.preview t m

namespace Simulates

variable {q : Reader τ} {r : Reader ρ} {f : τ → ρ}

/-- One use shows the same of both rows, and leaves rows that correspond. -/
theorem use_eq (h : Simulates q r f) (row : List τ) (u : Use) :
    r.use (row.map f) u = ((q.use row u).1, (q.use row u).2.map f) := by
  cases u with
  | next who =>
    cases hrow : row[who]? with
    | none => simp [use, hrow]
    | some t => simp [use, hrow, h.next, List.map_set]
  | preview who m =>
    cases hrow : row[who]? with
    | none => simp [use, hrow]
    | some t => simp [use, hrow, h.preview]
  | clone who =>
    cases hrow : row[who]? with
    | none => simp [use, hrow]
    | some t => simp [use, hrow]

/-- **No session tells the two readers apart.** -/
theorem session_eq (h : Simulates q r f) (row : List τ) (uses : List Use) :
    r.session (row.map f) uses = ((q.session row uses).1, (q.session row uses).2.map f) := by
  induction uses generalizing row with
  | nil => rfl
  | cons u rest ih =>
    simp only [session, h.use_eq, ih]

end Simulates

/-- A counter that reads a fixed sequence of indices: it shows the index whose number it has reached and goes
    on by one, and a preview shows the first indices of the sequence. -/
def counter (indices : Nat → Nat) : Reader Nat where
  next k := (indices k, k + 1)
  preview _ m := (List.range m).map indices

/-- A sampler as a reader. -/
def sampler (W : Type) [Scalar W] : Reader (Sampler W) where
  next := IndexSource.next
  preview := Sampler.preview

end Reader

variable {W : Type} [Scalar W]

/-- The number of draws so far stands for the state of a sampler. -/
theorem Sampler.Made.simulates {s : Sampler W} (h : s.Made) :
    Reader.Simulates (Reader.counter s.drawn) (Reader.sampler W) s.after where
  next _ := rfl
  preview := h.preview_after

/-- **Previews and draws read one sequence.** Begin with a sampler that some constructor gives, and draw from
    it, preview it, clone it, and do the same with the clones, in any order. All that is shown is what
    counters show that read the sequence of the indices which the first sampler draws; every sampler is the
    first one after some number of draws; and its preview of any length is what the first one draws. -/
theorem previews_and_draws_read_one_sequence {s : Sampler W} (h : s.Made) (uses : List Use) :
    ((Reader.sampler W).session [s] uses).1 = ((Reader.counter s.drawn).session [0] uses).1 ∧
      ((Reader.sampler W).session [s] uses).2 =
        ((Reader.counter s.drawn).session [0] uses).2.map s.after ∧
      (∀ t ∈ ((Reader.sampler W).session [s] uses).2, ∀ m, t.preview m = (s.draws m).1) ∧
      ∀ m, (s.draws m).1 = (List.range m).map s.drawn := by
  have hsession := h.simulates.session_eq [0] uses
  rw [List.map_singleton, Sampler.after_zero] at hsession
  rw [hsession]
  refine ⟨rfl, rfl, ?_, fun m => by rw [Sampler.draws_eq]⟩
  intro t ht m
  obtain ⟨k, -, rfl⟩ := List.mem_map.mp ht
  rw [h.preview_after, Sampler.draws_eq]

/-- Three subsets in a new order for each round: a clone that is made after the first draw, draws from both into
    the second round, and previews from both. -/
theorem previews_and_draws_read_one_sequence_reshuffled :
    ∃ s : Sampler Float, Sampler.randomWithoutReplacement 3 5 true = .ok s ∧
      ((Reader.sampler Float).session [s]
        [.next 0, .preview 0 5, .clone 0, .next 1, .next 1, .next 0, .next 1, .preview 1 2, .next 2]).1 =
      [.index 1, .samples [1, 2, 0, 2, 1], .place 1, .index 2, .index 0, .index 2, .index 2,
        .samples [1, 2], .nobody] := by
  obtain ⟨s, hs⟩ : ∃ s : Sampler Float, Sampler.randomWithoutReplacement 3 5 true = .ok s := ⟨_, rfl⟩
  refine ⟨s, hs, ?_⟩
  rw [(previews_and_draws_read_one_sequence (.randomWithoutReplacement hs) _).1]
  cases hs
  cbv

end Splitting
