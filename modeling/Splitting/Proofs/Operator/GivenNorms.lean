import Splitting.Outcome
import Splitting.Proofs.Operator.Norms

/-!
# `Splitting.Proofs.Operator.GivenNorms` — norms that are given and read in any order

A stack computes the norms of its operators when they are first read, and keeps them. Norms may be given before or
after that, as often as one likes, and a list that is refused leaves the stack as it was. What a stack answers is
always the list that was accepted last, or else what the operators say themselves.

* `OperatorStack.NormCall`, `OperatorStack.perform` — the two calls, and how each ends;
* `OperatorStack.Acceptable`, `OperatorStack.setNorms_of_acceptable`, `OperatorStack.setNorms_of_not_acceptable` — the
  lists that are accepted;
* `OperatorStack.answer_eq`, `OperatorStack.known_of_read` — what a stack answers, and that it answers the same again;
* `OperatorStack.Configured`, `OperatorStack.Configured.answer` — after any calls.
-/

namespace Splitting

variable {S W : Type}

namespace OperatorStack

/-! ## The two calls -/

/-- A call about the norms of a stack. -/
inductive NormCall (S : Type) where
  | give (norms : List S)
  | read

variable [Scalar S]

/-- The norms that a stack of `n` operators accepts: one for each, none of them negative or not a number. -/
def Acceptable (n : ℕ) (norms : List S) : Prop :=
  norms.length = n ∧ ∀ x ∈ norms, Scalar.isNaN x = false ∧ ¬x < 0

instance (n : ℕ) (norms : List S) : Decidable (Acceptable n norms) :=
  inferInstanceAs (Decidable (_ ∧ ∀ x ∈ norms, _))

/-- What is wrong with norms that are not accepted. -/
def refusal (n : ℕ) (norms : List S) : Error :=
  if norms.length = n then .invalidParameter .negativeNorm else .lengthMismatch .norms n norms.length

variable {k k' start : OperatorStack S} {norms ns : List S}

theorem any_eq_false_iff : (norms.any fun x => Scalar.isNaN x || decide (x < 0)) = false ↔
    ∀ x ∈ norms, Scalar.isNaN x = false ∧ ¬x < 0 := by
  simp only [List.any_eq_false, Bool.or_eq_true, decide_eq_true_eq, not_or, Bool.not_eq_true]

theorem setNorms_of_acceptable (h : Acceptable k.blocks.length norms) :
    ∃ k', k.setNorms norms = .ok k' ∧ k'.blocks = k.blocks ∧ k'.knownNorms = some norms := by
  unfold setNorms
  rw [dif_pos h.1, any_eq_false_iff.mpr h.2]
  exact ⟨_, rfl, rfl, rfl⟩

theorem setNorms_of_not_acceptable (h : ¬Acceptable k.blocks.length norms) :
    k.setNorms norms = .error (refusal k.blocks.length norms) := by
  unfold setNorms refusal
  by_cases hlength : norms.length = k.blocks.length
  · have hany : (norms.any fun x => Scalar.isNaN x || decide (x < 0)) = true := by
      refine Bool.eq_true_of_not_eq_false fun hnone => h ⟨hlength, any_eq_false_iff.mp hnone⟩
    rw [dif_pos hlength, if_pos hany, if_pos hlength]
  · rw [dif_neg hlength, if_neg hlength]

omit [Scalar S] in
/-- A stack that has just been made knows no norms. -/
theorem unknown_of_ofBlocks {ops : List (LinearOperator S)} (h : ofBlocks ops = .ok k) :
    k.blocks = ops ∧ k.knownNorms = none := by
  unfold ofBlocks at h
  split at h
  · cases h
  · split at h
    · cases h
    · cases h
      exact ⟨rfl, rfl⟩

variable [Scalar W] [Precision S W]

/-- How a call ends: a reading with the norms, or with none if an operator breaks off. Norms that are refused leave
    the stack as it was. -/
def perform (k : OperatorStack S) : NormCall S → Outcome (OperatorStack S) (Option (List S))
  | .give norms =>
    match k.setNorms norms with
    | .ok k' => .ok none k'
    | .error e => .error e k
  | .read =>
    match k.norms? with
    | some (ns, k') => .ok (some ns) k'
    | none => .mismatch

/-- A reading breaks off with an operator, if no norms are known; or it answers those that are known, or else those of
    the operators, and the stack knows what it has answered. -/
theorem read_cases (k : OperatorStack S) :
    (k.norms? = none ∧ k.knownNorms.or (LinearOperator.norms? k.blocks) = none) ∨
      ∃ ns k', k.norms? = some (ns, k') ∧ k.knownNorms.or (LinearOperator.norms? k.blocks) = some ns ∧
        k'.blocks = k.blocks ∧ k'.knownNorms = some ns := by
  cases hknown : k.knownNorms with
  | some ns => exact Or.inr ⟨ns, k, norms?_of_known hknown, rfl, rfl, hknown⟩
  | none =>
    cases hown : LinearOperator.norms? k.blocks with
    | none => exact Or.inl ⟨norms?_of_unknown hknown hown, rfl⟩
    | some own =>
      obtain ⟨k', hread, hblocks, hknown'⟩ := norms?_of_estimated hknown hown
      exact Or.inr ⟨own, k', hread, rfl, hblocks, hknown'⟩

/-- **What a stack answers:** the norms that it knows, or else those of its operators. -/
theorem answer_eq (k : OperatorStack S) :
    k.norms?.map Prod.fst = k.knownNorms.or (LinearOperator.norms? k.blocks) := by
  rcases read_cases k with ⟨hread, hanswer⟩ | ⟨ns, k', hread, hanswer, -⟩
  · rw [hread, hanswer]
    rfl
  · rw [hread, hanswer]
    rfl

/-- **It answers the same again.** -/
theorem known_of_read (h : k.norms? = some (ns, k')) : k'.blocks = k.blocks ∧ k'.knownNorms = some ns := by
  rcases read_cases k with ⟨hread, -⟩ | ⟨ns', k'', hread, -, hblocks, hknown⟩
  · rw [hread] at h
    cases h
  · rw [hread] at h
    cases h
    exact ⟨hblocks, hknown⟩

/-! ## After any calls -/

/-- The norms that a call gives, if they are accepted. -/
def NormCall.accepted? (n : ℕ) : NormCall S → Option (List S)
  | .give norms => if Acceptable n norms then some norms else none
  | .read => none

/-- A stack after some calls, of which the last stands first. -/
inductive Configured (start : OperatorStack S) : List (NormCall S) → OperatorStack S → Prop where
  | start : Configured start [] start
  | call {c : NormCall S} {calls : List (NormCall S)} {k k' : OperatorStack S} : Configured start calls k →
      (k.perform c).state? = some k' → Configured start (c :: calls) k'

/-- The list that was accepted last. -/
def lastAccepted? (n : ℕ) (calls : List (NormCall S)) : Option (List S) := calls.findSome? (NormCall.accepted? n)

/-- **What a stack answers after any calls,** when it knew no norms at first: the list that was accepted last, or else
    the norms of its operators. -/
theorem Configured.answer {calls : List (NormCall S)} (hstart : start.knownNorms = none)
    (h : Configured start calls k) : k.blocks = start.blocks ∧ k.norms?.map Prod.fst =
      (lastAccepted? start.blocks.length calls).or (LinearOperator.norms? start.blocks) := by
  induction h with
  | start =>
    refine ⟨rfl, ?_⟩
    rw [answer_eq, hstart]
    rfl
  | @call c calls k k' _ hc ih =>
    obtain ⟨hblocks, hanswer⟩ := ih
    cases c with
    | give norms =>
      by_cases haccept : Acceptable k.blocks.length norms
      · obtain ⟨k'', hset, hblocks', hknown⟩ := setNorms_of_acceptable haccept
        simp only [perform, hset, Outcome.state?, Option.some.injEq] at hc
        subst hc
        refine ⟨hblocks'.trans hblocks, ?_⟩
        rw [hblocks] at haccept
        rw [answer_eq, hknown, lastAccepted?, List.findSome?_cons, NormCall.accepted?, if_pos haccept]
        rfl
      · simp only [perform, setNorms_of_not_acceptable haccept, Outcome.state?, Option.some.injEq] at hc
        subst hc
        refine ⟨hblocks, hanswer.trans ?_⟩
        rw [hblocks] at haccept
        rw [lastAccepted?, lastAccepted?, List.findSome?_cons, NormCall.accepted?, if_neg haccept]
    | read =>
      cases hread : k.norms? with
      | none =>
        simp only [perform, hread, Outcome.state?, reduceCtorEq] at hc
      | some answer =>
        obtain ⟨ns, k''⟩ := answer
        simp only [perform, hread, Outcome.state?, Option.some.injEq] at hc
        subst hc
        obtain ⟨hblocks', hknown⟩ := known_of_read hread
        refine ⟨hblocks'.trans hblocks, ?_⟩
        rw [answer_eq, hknown]
        rw [hread] at hanswer
        exact hanswer

/-- A stack can be read if some list was accepted, or if the operators that do not know their norm respond. -/
theorem Configured.exists_answer {calls : List (NormCall S)} (hstart : start.knownNorms = none)
    (h : Configured start calls k)
    (hreadable : lastAccepted? start.blocks.length calls ≠ none ∨
      ∀ op ∈ start.blocks, op.knownNorm = none → op.Responds) : ∃ ns k', k.norms? = some (ns, k') := by
  obtain ⟨-, hanswer⟩ := h.answer hstart
  cases hread : k.norms? with
  | some answer => exact ⟨answer.1, answer.2, rfl⟩
  | none =>
    rw [hread, Option.map_none, eq_comm, Option.or_eq_none_iff] at hanswer
    rcases hreadable with haccepted | hresponds
    · exact absurd hanswer.1 haccepted
    · obtain ⟨own, hown⟩ := LinearOperator.exists_norms hresponds
      rw [hown] at hanswer
      cases hanswer.2

end OperatorStack

end Splitting
