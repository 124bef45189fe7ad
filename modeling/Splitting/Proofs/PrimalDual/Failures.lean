import Splitting.Proofs.PrimalDual.Shape

/-!
# `Splitting.Proofs.PrimalDual.Failures` — where an error comes from

A call of the primal-dual method fails for one of three reasons: an operation of one of its terms fails, and the
error is passed on as it is; the source names an index without a block; or the steps that are asked for are
refused. No call has an error of another kind.

* `Functional.Raises`, `Error.AboutSteps` — the errors of a term, and the refusals of steps;
* `Spdhg.raises_of_recordObjective`, `Spdhg.cause_of_update_error` — a record and an iteration;
* `Spdhg.cause_of_perform_error` — any call.
-/

namespace Splitting

variable {S W σ : Type}

/-- Some operation of the function that the primal-dual method uses ends in the error. -/
def Functional.Raises (f : Functional S) (e : Error) : Prop :=
  (∃ point step out new, f.proximal point step out = .error e new) ∨
    (∃ point step out new, f.proximalConjugate point step out = .error e new) ∨
    ∃ y, f.conjugate y = .error (.error e)

/-- The error refuses a parameter, or a list of dual steps for its length. -/
def Error.AboutSteps (e : Error) : Prop :=
  (∃ fault, e = .invalidParameter fault) ∨ ∃ expected got, e = .lengthMismatch .dualSteps expected got

variable [Scalar S]

/-! ## The steps -/

namespace PrimalDual

theorem aboutSteps_of_requirePositive {which : PrimalDualStep} {value : S} {e : Error}
    (h : requirePositive which value = .error e) : e.AboutSteps := by
  unfold requirePositive at h
  split at h
  · cases h
  · cases h
    exact Or.inl ⟨_, rfl⟩

theorem aboutSteps_of_requireAllPositive {steps : List S} {e : Error}
    (h : requireAllPositive steps = .error e) : e.AboutSteps := by
  induction steps with
  | nil => cases h
  | cons s rest ih =>
    rw [requireAllPositive] at h
    split at h
    · next e' hs =>
      cases h
      exact aboutSteps_of_requirePositive hs
    · exact ih h

theorem aboutSteps_of_primalStep {gamma rho : S} {blocks : List (DualScale S)} {sigma : List S} {e : Error}
    (h : primalStep gamma rho blocks sigma = .error e) : e.AboutSteps := by
  unfold primalStep at h
  split at h
  · cases h
    exact Or.inl ⟨_, rfl⟩
  · cases h

theorem aboutSteps_of_dualSteps {blocks : List (DualScale S)} {sigma : Option (List S)} {tau : Option S}
    {e : Error} (h : dualSteps blocks sigma tau = .error e) : e.AboutSteps := by
  unfold dualSteps at h
  split at h
  · split at h
    · cases h
      exact Or.inr ⟨_, _, rfl⟩
    · split at h
      · next e' hall =>
        cases h
        exact aboutSteps_of_requireAllPositive hall
      · cases h
  · cases h
  · cases h

/-- **Steps are refused for what they are,** not for anything of the method's state. -/
theorem aboutSteps_of_resolveSteps {blocks : List (DualScale S)} {sigma : Option (List S)} {tau : Option S}
    {e : Error} (h : resolveSteps blocks sigma tau = .error e) : e.AboutSteps := by
  unfold resolveSteps at h
  cases tau with
  | some t =>
    rcases Except.bind_eq_error_iff.mp h with h | ⟨⟨⟩, -, h⟩
    · exact aboutSteps_of_requirePositive h
    · rcases Except.bind_eq_error_iff.mp h with h | ⟨s, -, h⟩
      · exact aboutSteps_of_dualSteps h
      · cases h
  | none =>
    rcases Except.bind_eq_error_iff.mp h with h | ⟨⟨⟩, -, h⟩
    · cases h
    · rcases Except.bind_eq_error_iff.mp h with h | ⟨s, -, h⟩
      · exact aboutSteps_of_dualSteps h
      · rcases Except.bind_eq_error_iff.mp h with h | ⟨t, -, h⟩
        · exact aboutSteps_of_primalStep h
        · cases h

theorem aboutSteps_of_stepsFromRatio {blocks : List (DualScale S)} {gamma rho : S} {e : Error}
    (h : stepsFromRatio blocks gamma rho = .error e) : e.AboutSteps := by
  unfold stepsFromRatio at h
  rcases Except.bind_eq_error_iff.mp h with h | ⟨⟨⟩, -, h⟩
  · exact aboutSteps_of_requirePositive h
  · rcases Except.bind_eq_error_iff.mp h with h | ⟨⟨⟩, -, h⟩
    · exact aboutSteps_of_requirePositive h
    · rcases Except.bind_eq_error_iff.mp h with h | ⟨t, -, h⟩
      · exact aboutSteps_of_primalStep h
      · cases h

end PrimalDual

/-! ## The terms -/

namespace Spdhg

/-- The terms of a method: that of the primal variable, and those of the blocks. -/
def terms (m : Spdhg S σ) : List (Functional S) := m.primalTerm :: m.blocks.map (·.term)

omit [Scalar S] in
theorem term_mem_terms {m : Spdhg S σ} {b : DualBlock S} (hb : b ∈ m.blocks) : b.term ∈ m.terms :=
  List.mem_cons_of_mem _ (List.mem_map_of_mem hb)

omit [Scalar S] in
/-- No call changes the terms. -/
theorem terms_of_data {m m' : Spdhg S σ} (hterm : m'.primalTerm = m.primalTerm)
    (hdata : m'.blocks.map DualBlock.data = m.blocks.map DualBlock.data) : m'.terms = m.terms := by
  have hterms := congrArg (List.map Prod.fst) hdata
  rw [List.map_map, List.map_map] at hterms
  rw [terms, terms, hterm]
  exact congrArg (m.primalTerm :: ·) hterms

/-- The blocks' objectives fail on the conjugate of one of the blocks' terms. -/
theorem raises_of_blockObjectives {x : Vec S} {primal dual : S} {bs bs' : List (DualBlock S)} {e : Error}
    (h : blockObjectives x primal dual bs = .error e bs') : ∃ b ∈ bs, b.term.Raises e := by
  induction bs generalizing primal dual bs' with
  | nil => cases h
  | cons b rest ih =>
    rw [blockObjectives] at h
    split at h
    · cases h
    · dsimp only at h
      split at h
      · cases h
      · cases h
      · next e' hconj =>
        cases h
        exact ⟨b, List.mem_cons_self, Or.inr (Or.inr ⟨b.dual, hconj⟩)⟩
      · obtain ⟨bs₁, hrest, -⟩ := Outcome.mapState_eq_error_iff.mp h
        obtain ⟨c, hc, hraises⟩ := ih hrest
        exact ⟨c, List.mem_cons_of_mem b hc, hraises⟩

/-- **A record fails on a conjugate.** -/
theorem raises_of_recordObjective {m m' : Spdhg S σ} {e : Error} (h : m.recordObjective = .error e m') :
    ∃ f ∈ m.terms, f.Raises e := by
  rcases recordObjective_eq_error h with
    ⟨g, blocks, hb, -⟩ | ⟨g, primal, dual, blocks, v, -, -, hconj, -⟩
  · obtain ⟨b, hmem, hraises⟩ := raises_of_blockObjectives hb
    exact ⟨b.term, term_mem_terms hmem, hraises⟩
  · exact ⟨m.primalTerm, List.mem_cons_self, Or.inr (Or.inr ⟨v, hconj⟩)⟩

variable [IndexSource σ W]

/-- **An iteration fails on a proximal map, or on an index without a block.** -/
theorem cause_of_update_error {m m' : Spdhg S σ} {e : Error} (h : m.update = .error e m') :
    (∃ f ∈ m.terms, f.Raises e) ∨
      m.blocks[m.nextIndex]? = none ∧ e = .subsetOutOfRange m.nextIndex m.blocks.length := by
  obtain ⟨point, x, -, h⟩ := update_eq_error_iff.mp h
  rcases h with ⟨hx, -⟩ | ⟨-, hnone, he, -⟩ | ⟨-, b, b', hb, hascend, -⟩
  · have hprox := (Functional.sameLength_eq_error_iff.mp hx).1
    exact Or.inl ⟨m.primalTerm, List.mem_cons_self, Or.inl ⟨_, _, _, _, hprox⟩⟩
  · exact Or.inr ⟨hnone, he⟩
  · obtain ⟨image, ascent, y, -, -, hy, -⟩ := DualBlock.ascend_eq_error_iff.mp hascend
    have hprox := (Functional.sameLength_eq_error_iff.mp hy).1
    exact Or.inl ⟨b.term, term_mem_terms (List.mem_of_getElem? hb), Or.inr (Or.inl ⟨_, _, _, _, hprox⟩)⟩

omit [Scalar S] [IndexSource σ W] in
theorem changeOrKeep_eq_error {m m' : Spdhg S σ} {c : Except Error (Spdhg S σ)} {e : Error}
    (h : m.changeOrKeep c = .error e m') : c = .error e := by
  cases c with
  | ok n => cases h
  | error e' =>
    cases h
    rfl

/-- **An error of a call comes from a term, from an index without a block, or from refused steps.** -/
theorem cause_of_perform_error {m m' : Spdhg S σ} {c : Call S} {e : Error} (h : m.perform c = .error e m') :
    (∃ f ∈ m.terms, f.Raises e) ∨
      (m.blocks[m.nextIndex]? = none ∧ e = .subsetOutOfRange m.nextIndex m.blocks.length) ∨
      e.AboutSteps := by
  cases c with
  | update =>
    rcases cause_of_update_error h with hterm | hindex
    · exact Or.inl hterm
    · exact Or.inr (Or.inl hindex)
  | recordObjective => exact Or.inl (raises_of_recordObjective h)
  | setStepSizes sigma tau =>
    have hsteps := Except.map_eq_error_iff.mp (changeOrKeep_eq_error h)
    exact Or.inr (Or.inr (PrimalDual.aboutSteps_of_resolveSteps hsteps))
  | setStepSizesFromRatio gamma rho =>
    have hsteps := Except.map_eq_error_iff.mp (changeOrKeep_eq_error h)
    exact Or.inr (Or.inr (PrimalDual.aboutSteps_of_stepsFromRatio hsteps))

end Spdhg

end Splitting
