import Splitting.Proofs.Iteration.Records

/-!
# `Splitting.Proofs.Iteration.Lockstep` — methods that run in step

Take two states of a method that are related, and let every iteration lead from related states to related states, or
fail in both. Then runs from the two go the same way, turn by turn: they have the same trace, and end in the same
way. Nothing is asked about records here, unless the runs make any. And where one run makes records that the other
does not, or that fail there, each still shows what the other shows, as far as both of them go.

* `Lockstep` — a relation of states that every iteration keeps;
* `RunsMatch`, `Lockstep.run_agree` — runs with the same records, or without any;
* `KeepsTurns`, `Unshaken`, `Lockstep.shown_comparable` — runs with whatever records on either side.
-/

namespace Splitting

variable {A κ κ' S : Type} [Iterative A S]

/-- A relation of states that every iteration keeps, ending in the same way from both, and that shows neither in a
    solution nor in a number of iterations. So does every record, if the interval is one at which runs make records. -/
structure Lockstep (interval : Nat) (R : A → A → Prop) : Prop where
  solution : ∀ {m n}, R m n → Iterative.solution m = Iterative.solution n
  iteration : ∀ {m n}, R m n → Iterative.iteration m = Iterative.iteration n
  update : ∀ {m n}, R m n → Outcome.Agree Eq R (Iterative.update m) (Iterative.update n)
  exchange : ∀ {m n}, R m n → R (Iterative.exchange m) (Iterative.exchange n)
  record : 0 < interval → ∀ {m n}, R m n →
    Outcome.Agree Eq R (Iterative.recordObjective m) (Iterative.recordObjective n)

/-- Runs of methods that are related, with the same memory of the watcher and the same trace. -/
structure RunsMatch (R : A → A → Prop) (r r' : Run A κ S) : Prop where
  method : R r.method r'.method
  memory : r.memory = r'.memory
  trace : r.trace = r'.trace

namespace Lockstep

variable {R : A → A → Prop} {m n : A} {interval budget : Nat} {watcher : Watcher κ S} {r r' : Run A κ S}

/-! ## The same records -/

theorem recordIfDue_agree (h : Lockstep interval R) (hr : RunsMatch R r r') :
    Outcome.Agree Eq (RunsMatch R) (r.recordIfDue interval) (r'.recordIfDue interval) := by
  obtain ⟨m, memory, trace⟩ := r
  obtain ⟨n, memory', trace'⟩ := r'
  obtain ⟨hmn, rfl, rfl⟩ := hr
  simp only [Run.recordIfDue, ← h.iteration hmn]
  split
  · next hdue => exact (h.record hdue.1 hmn).mapState fun _ _ hst => ⟨hst, rfl, rfl⟩
  · exact .ok rfl ⟨hmn, rfl, rfl⟩

theorem round_agree (h : Lockstep interval R) (hr : RunsMatch R r r') :
    Outcome.Agree Eq (RunsMatch R) (r.round interval) (r'.round interval) := by
  obtain ⟨m, memory, trace⟩ := r
  obtain ⟨n, memory', trace'⟩ := r'
  obtain ⟨hmn, rfl, rfl⟩ := hr
  have hupdates : Outcome.Agree Eq (RunsMatch R) (Run.update ⟨m, memory, trace⟩) (Run.update ⟨n, memory, trace⟩) :=
    (h.update hmn).mapState fun _ _ hst => ⟨hst, rfl, rfl⟩
  refine hupdates.bind (fun _ _ => id) fun _ _ s t _ hst => h.recordIfDue_agree ?_
  exact ⟨h.exchange hst.method, hst.memory, congrArg (·.push .exchange) hst.trace⟩

/-- The watcher is shown the same, and answers the same. -/
theorem watch_agree (h : Lockstep interval R) (hr : RunsMatch R r r') (watcher : Watcher κ S) (k : Nat) :
    (r.watch watcher k).1 = (r'.watch watcher k).1 ∧
      RunsMatch R (r.watch watcher k).2 (r'.watch watcher k).2 := by
  obtain ⟨m, memory, trace⟩ := r
  obtain ⟨n, memory', trace'⟩ := r'
  obtain ⟨hmn, rfl, rfl⟩ := hr
  simp only [Run.watch, ← h.solution hmn, true_and]
  exact ⟨hmn, rfl, rfl⟩

theorem iterate_agree (h : Lockstep interval R) (hr : RunsMatch R r r') :
    Outcome.Agree Eq (RunsMatch R) (r.iterate interval watcher budget) (r'.iterate interval watcher budget) := by
  induction budget generalizing r r' with
  | zero =>
    rw [Run.iterate, Run.iterate, h.iteration hr.method]
    exact .ok rfl hr
  | succ budget ih =>
    rw [Run.iterate_succ, Run.iterate_succ]
    refine (h.round_agree hr).bind (fun _ _ => id) fun _ _ s t _ hst => ?_
    rw [← h.iteration hst.method]
    obtain ⟨hreply, hwatched⟩ := h.watch_agree hst watcher (Iterative.iteration s.method)
    rw [← hreply, ← h.iteration hwatched.method]
    split
    · exact .ok rfl hwatched
    · exact ih hwatched

/-- **Runs end the same,** with the same trace. -/
theorem run_agree (h : Lockstep interval R) (hmn : R m n) (budget : Nat) (watcher : Watcher κ S) (memory : κ) :
    Outcome.Agree Eq (RunsMatch R) (run m budget interval watcher memory) (run n budget interval watcher memory) := by
  have hr : RunsMatch R (⟨m, memory, #[]⟩ : Run A κ S) ⟨n, memory, #[]⟩ := ⟨hmn, rfl, rfl⟩
  by_cases hm : Iterative.iteration m = 0
  · rw [RunInvariant.run_of_start hm, RunInvariant.run_of_start ((h.iteration hmn).symm.trans hm)]
    refine (h.recordIfDue_agree hr).bind (fun _ _ => id) fun _ _ s t _ hst => ?_
    obtain ⟨hreply, hwatched⟩ := h.watch_agree hst watcher 0
    rw [← hreply]
    split
    · exact .ok rfl hwatched
    · exact h.iterate_agree hwatched
  · rw [run_eq_iterate hm, run_eq_iterate fun hn => hm ((h.iteration hmn).trans hn)]
    exact h.iterate_agree hr

end Lockstep

/-! ## Different records -/

/-- Turns that both sides come to lead from related states to related states. -/
def KeepsTurns (interval interval' : Nat) (R : A → A → Prop) : Prop :=
  ∀ ⦃k m n m' n'⦄, R m n → comesTo interval k m = .ok () m' → comesTo interval' k n = .ok () n' → R m' n'

/-- A record on either side, made or failed, leaves states related. -/
structure Unshaken (R : A → A → Prop) : Prop where
  left : ∀ {m n m'}, R m n → (Iterative.recordObjective m).state? = some m' → R m' n
  right : ∀ {m n n'}, R m n → (Iterative.recordObjective n).state? = some n' → R m n'

namespace Lockstep

variable {R : A → A → Prop} {m m' n n' : A} {k first interval interval' : Nat} {turns turns' : List A}

theorem of_advance (h : Lockstep 0 R) (hmn : R m n) (hm : advance k m = .ok () m') (hn : advance k n = .ok () n') :
    R m' n' := by
  have hagree := advance_agree h.update h.exchange hmn k
  rw [hm, hn] at hagree
  obtain ⟨⟨⟩, t, ht, -, hmt⟩ := hagree.of_ok
  cases ht
  exact hmt

/-- Records on the two sides may be due at different turns if they leave states related. -/
theorem keepsTurns (h : Lockstep 0 R) (hrecords : Unshaken R) : KeepsTurns interval interval' R := by
  intro k m n m' n' hmn hm hn
  obtain ⟨⟨⟩, s, hs, hm⟩ := Outcome.bind_eq_ok_iff.mp hm
  obtain ⟨⟨⟩, t, ht, hn⟩ := Outcome.bind_eq_ok_iff.mp hn
  have hst := h.of_advance hmn hs ht
  -- each side has made its record, or none was due
  have hleft : R m' t := by
    split at hm
    · exact hrecords.left hst (congrArg Outcome.state? hm)
    · cases hm
      exact hst
  split at hn
  · exact hrecords.right hleft (congrArg Outcome.state? hn)
  · cases hn
    exact hleft

/-- Or they are due at the same turns, and records that both sides make lead to related states. -/
theorem keepsTurns_of_records (h : Lockstep 0 R) (hrecords : ∀ {m n m' n'}, R m n →
      Iterative.recordObjective m = .ok () m' → Iterative.recordObjective n = .ok () n' → R m' n') :
    KeepsTurns interval interval R := by
  intro k m n m' n' hmn hm hn
  obtain ⟨⟨⟩, s, hs, hm⟩ := Outcome.bind_eq_ok_iff.mp hm
  obtain ⟨⟨⟩, t, ht, hn⟩ := Outcome.bind_eq_ok_iff.mp hn
  have hst := h.of_advance hmn hs ht
  by_cases hdue : Due interval k
  · rw [if_pos hdue] at hm hn
    exact hrecords hst hm hn
  · rw [if_neg hdue] at hm hn
    cases hm
    cases hn
    exact hst

/-- Of turns that related states lead through, those that the one watcher is told of begin with those that the other
    is told of. -/
theorem told_comparable (h : Lockstep 0 R) (hturns : KeepsTurns interval interval' R) (hmn : R m n)
    (hm : Leads interval m first turns) (hn : Leads interval' n first turns') :
    told first turns <+: told first turns' ∨ told first turns' <+: told first turns := by
  induction turns generalizing m n first turns' with
  | nil => exact Or.inl List.nil_prefix
  | cons m₁ turns ih =>
    cases turns' with
    | nil => exact Or.inr List.nil_prefix
    | cons n₁ turns' =>
      have hnext := hturns hmn hm.1 hn.1
      have hsolution : Iterative.solution m₁ = Iterative.solution n₁ := h.solution hnext
      show (Iterative.solution m₁, first) :: told (first + 1) turns <+: (Iterative.solution n₁, first) :: _ ∨
        (Iterative.solution n₁, first) :: told (first + 1) turns' <+: (Iterative.solution m₁, first) :: _
      rw [hsolution, List.prefix_cons_inj, List.prefix_cons_inj]
      exact ih hnext hm.2 hn.2

/-- **Runs show the same solutions, as far as both of them go,** whatever their budgets and watchers. -/
theorem shown_comparable (h : Lockstep 0 R) (hturns : KeepsTurns interval interval' R)
    (hcounts : CountsIterations A) (hmn : R m n) {budget budget' : Nat} {watcher : Watcher κ S}
    {watcher' : Watcher κ' S} {memory : κ} {memory' : κ'} {r : Run A κ S} {r' : Run A κ' S}
    (hm : (run m budget interval watcher memory).state? = some r)
    (hn : (run n budget' interval' watcher' memory').state? = some r') :
    r.shown <+: r'.shown ∨ r'.shown <+: r.shown := by
  obtain ⟨turns, hleads, hends⟩ := run_chronicled hcounts m budget interval watcher memory
  obtain ⟨turns', hleads', hends'⟩ := run_chronicled hcounts n budget' interval' watcher' memory'
  obtain ⟨_, rest, htells, hquiet, -⟩ := hends.tells hm
  obtain ⟨_, rest', htells', hquiet', -⟩ := hends'.tells hn
  rw [← h.iteration hmn] at htells' hleads'
  rw [htells.shown hquiet rfl, htells'.shown hquiet' rfl]
  exact h.told_comparable hturns hmn hleads hleads'

end Lockstep

end Splitting
