import Splitting.Error

/-!
# `Splitting.Proofs.Checks` — which complaint comes first

A setup has many options, and building looks at them one after the other. So the errors have an order: what is
checked later is complained about only where everything before it is in order.

* `ChecksInOrder` — a computation that ends with the complaint about the first requirement that is not met;
* `ChecksInOrder.passed`, `ChecksInOrder.failed` — the first requirement, met or not;
* `ChecksInOrder.succeeds_iff`, `ChecksInOrder.eq_error_iff` — when it succeeds, and with which error it fails.
-/

namespace Splitting

variable {R ε α β : Type} {met : R → Prop} {complaint : R → ε}

/-- A computation that checks requirements in the order of a list: it ends with the complaint about the first
    one that is not met, and succeeds if all of them are. -/
def ChecksInOrder (met : R → Prop) (complaint : R → ε) : List R → Except ε α → Prop
  | [], c => ∃ a, c = .ok a
  | r :: rest, c => (met r → ChecksInOrder met complaint rest c) ∧ (¬ met r → c = .error (complaint r))

namespace ChecksInOrder

theorem passed {r : R} {rest : List R} {c : Except ε α} (hr : met r) (h : ChecksInOrder met complaint rest c) :
    ChecksInOrder met complaint (r :: rest) c :=
  ⟨fun _ => h, fun hnot => absurd hr hnot⟩

theorem failed {r : R} {rest : List R} {c : Except ε α} (hr : ¬ met r) (hc : c = .error (complaint r)) :
    ChecksInOrder met complaint (r :: rest) c :=
  ⟨fun h => absurd h hr, fun _ => hc⟩

/-- One computation after another checks what the first one does, and then what the second one does. -/
theorem bind {rs rs' : List R} {c : Except ε α} {f : α → Except ε β} (h : ChecksInOrder met complaint rs c)
    (hf : ∀ a, c = .ok a → ChecksInOrder met complaint rs' (f a)) :
    ChecksInOrder met complaint (rs ++ rs') (c >>= f) := by
  induction rs with
  | nil =>
    obtain ⟨a, rfl⟩ := h
    exact hf a rfl
  | cons r rest ih =>
    constructor
    · intro hr
      exact ih (h.1 hr)
    · intro hr
      rw [h.2 hr]
      rfl

/-- **The computation succeeds exactly when every requirement is met.** -/
theorem succeeds_iff {rs : List R} {c : Except ε α} (h : ChecksInOrder met complaint rs c) :
    (∃ a, c = .ok a) ↔ ∀ r ∈ rs, met r := by
  induction rs with
  | nil => exact iff_of_true h (by simp)
  | cons r rest ih =>
    rw [List.forall_mem_cons]
    by_cases hr : met r
    · rw [ih (h.1 hr)]
      exact (and_iff_right hr).symm
    · rw [h.2 hr]
      exact iff_of_false nofun fun hall => hr hall.1

/-- **The error is the complaint about the first requirement that is not met.** -/
theorem eq_error_iff {rs : List R} {c : Except ε α} (h : ChecksInOrder met complaint rs c) {e : ε} :
    c = .error e ↔ ∃ before r after, rs = before ++ r :: after ∧ (∀ q ∈ before, met q) ∧ ¬ met r ∧
      e = complaint r := by
  constructor
  · intro he
    induction rs with
    | nil =>
      obtain ⟨a, rfl⟩ := h
      cases he
    | cons r rest ih =>
      by_cases hr : met r
      · obtain ⟨before, r', after, rfl, hbefore, hr', rfl⟩ := ih (h.1 hr)
        exact ⟨r :: before, r', after, rfl, List.forall_mem_cons.mpr ⟨hr, hbefore⟩, hr', rfl⟩
      · rw [h.2 hr] at he
        cases he
        exact ⟨[], r, rest, rfl, by simp, hr, rfl⟩
  · rintro ⟨before, r, after, rfl, hbefore, hr, rfl⟩
    induction before with
    | nil => exact h.2 hr
    | cons q before ih =>
      obtain ⟨hq, hbefore⟩ := List.forall_mem_cons.mp hbefore
      exact ih (h.1 hq) hbefore

end ChecksInOrder

/-- A computation that only an error can stop checks the same when it is one that faults can stop. -/
theorem ChecksInOrder.lift {complaint : R → Error} {rs : List R} {c : Except Error α}
    (h : ChecksInOrder met complaint rs c) :
    ChecksInOrder met (fun r => .error (complaint r)) rs (Fault.lift c) := by
  induction rs with
  | nil =>
    obtain ⟨a, rfl⟩ := h
    exact ⟨a, rfl⟩
  | cons r rest ih =>
    refine ⟨fun hr => ih (h.1 hr), fun hr => ?_⟩
    rw [h.2 hr]
    rfl

end Splitting
