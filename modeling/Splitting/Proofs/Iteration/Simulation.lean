import Splitting.Proofs.Iteration.Lockstep

/-!
# `Splitting.Proofs.Iteration.Simulation` — states that no use of a method tells apart

Two states of a method may differ in what no later call depends on. If every call keeps them so, and nobody sees the
difference, then no session and no run shows in which of the two states it began. This module says what that takes of
a method, and which states a method can be in at all.

* `Used` — a method that calls lead to; `Used.run`, `Used.shown`: what a run leaves and shows is one;
* `Indistinguishable` — a relation of states that every call keeps and that shows nothing;
* `Indistinguishable.answers_eq` — sessions answer the same;
* `Indistinguishable.run_agree` — runs end the same;
* `Unnoticed`, `Indistinguishable.unnoticed` — a call that might as well not have been made;
* `Unnoticed.run_ok` — a run that completes before it completes after it.
-/

namespace Splitting

variable {A B C κ S : Type}

/-- A sequence leaves the state in which its first step failed, or what its second step leaves. -/
theorem Outcome.state?_bind_eq_some_iff {σ α β : Type} {o : Outcome σ α} {next : α → σ → Outcome σ β} {t : σ} :
    (o.bind next).state? = some t ↔ (∃ e, o = .error e t) ∨ ∃ a s, o = .ok a s ∧ (next a s).state? = some t := by
  cases o with
  | ok a s =>
    constructor
    · intro h
      exact Or.inr ⟨a, s, rfl, h⟩
    · rintro (⟨e, h⟩ | ⟨_, _, h, hnext⟩)
      · cases h
      · cases h
        exact hnext
  | error e s => simp [state?]
  | mismatch => simp [state?]

theorem Outcome.Agree.map {α β γ δ σ τ : Type} {V : α → β → Prop} {U : γ → δ → Prop} {R : σ → τ → Prop}
    {o : Outcome σ α} {o' : Outcome τ β} {f : α → γ} {g : β → δ} (h : Agree V R o o')
    (hfg : ∀ a b, V a b → U (f a) (g b)) : Agree U R (o.map f) (o'.map g) := by
  cases h with
  | ok hv hr => exact .ok (hfg _ _ hv) hr
  | error hr => exact .error hr
  | mismatch => exact .mismatch

variable [Iterative A S]

/-! ## The states that calls lead to -/

/-- A method that calls lead to, completed or failed. -/
inductive Used (change : A → C → Outcome A Unit) (start : A) : A → Prop where
  | start : Used change start start
  | call {m m' : A} {c : UserCall C} : Used change start m → (c.perform change m).state? = some m' →
      Used change start m'

namespace Used

variable {change : A → C → Outcome A Unit} {start m m' : A}

theorem update (h : Used change start m) (hu : (Iterative.update m).state? = some m') : Used change start m' :=
  .call (c := .update) h hu

theorem exchange (h : Used change start m) : Used change start (Iterative.exchange m) :=
  .call (c := .exchange) h rfl

theorem recordObjective (h : Used change start m) (ho : (Iterative.recordObjective m).state? = some m') :
    Used change start m' :=
  .call (c := .recordObjective) h ho

variable {interval budget : Nat} {watcher : Watcher κ S} {r r' : Run A κ S}

/-- A record that is due is a call. -/
theorem recordIfDue (h : Used change start r.method) (hr : (r.recordIfDue interval).state? = some r') :
    Used change start r'.method := by
  unfold Run.recordIfDue at hr
  split at hr
  · obtain ⟨method, memory, trace⟩ := r
    rw [Run.recordObjective, Outcome.state?_mapState, Option.map_eq_some_iff] at hr
    obtain ⟨m, hm, rfl⟩ := hr
    exact h.recordObjective hm
  · cases hr
    exact h

/-- A round is a few calls. -/
theorem round (h : Used change start r.method) (hr : (r.round interval).state? = some r') :
    Used change start r'.method := by
  obtain ⟨method, memory, trace⟩ := r
  rcases Outcome.state?_bind_eq_some_iff.mp hr with ⟨e, hu⟩ | ⟨⟨⟩, r₁, hu, hr⟩
  · obtain ⟨m, hm, rfl⟩ := Outcome.mapState_eq_error_iff.mp hu
    exact h.update (by rw [hm]; rfl)
  · obtain ⟨m, hm, rfl⟩ := Outcome.mapState_eq_ok_iff.mp hu
    exact recordIfDue (h.update (by rw [hm]; rfl)).exchange hr

/-- The watcher makes no call. -/
theorem watch (h : Used change start r.method) (watcher : Watcher κ S) (k : Nat) :
    Used change start (r.watch watcher k).2.method := by
  rw [(r.watch_shown watcher k).1]
  exact h

theorem iterate (h : Used change start r.method) (hr : (r.iterate interval watcher budget).state? = some r') :
    Used change start r'.method := by
  induction budget generalizing r with
  | zero =>
    cases hr
    exact h
  | succ budget ih =>
    rw [Run.iterate_succ] at hr
    rcases Outcome.state?_bind_eq_some_iff.mp hr with ⟨e, hround⟩ | ⟨⟨⟩, r₁, hround, hr⟩
    · exact h.round (by rw [hround]; rfl)
    · have hused : Used change start r₁.method := h.round (by rw [hround]; rfl)
      split at hr
      · cases hr
        exact hused.watch watcher _
      · exact ih (hused.watch watcher _) hr

/-- **What a run leaves is a method that calls lead to,** whether the run ended or failed. -/
theorem run {memory : κ} (h : Used change start m)
    (hr : (Splitting.run m budget interval watcher memory).state? = some r') : Used change start r'.method := by
  by_cases hm : Iterative.iteration m = 0
  · rw [RunInvariant.run_of_start hm] at hr
    rcases Outcome.state?_bind_eq_some_iff.mp hr with ⟨e, hrecord⟩ | ⟨⟨⟩, r₁, hrecord, hr⟩
    · exact recordIfDue (r := ⟨m, memory, #[]⟩) h (by rw [hrecord]; rfl)
    · have hused : Used change start r₁.method := recordIfDue (r := ⟨m, memory, #[]⟩) h (by rw [hrecord]; rfl)
      split at hr
      · cases hr
        exact hused.watch watcher 0
      · exact (hused.watch watcher 0).iterate hr
  · rw [run_eq_iterate hm] at hr
    exact iterate (r := ⟨m, memory, #[]⟩) h hr

/-- To be a method that calls lead to is an invariant of runs. -/
theorem runInvariant (hcounts : CountsIterations A)
    (hrecords : ∀ {m m' : A} {e : Error}, Iterative.recordObjective m ≠ .error e m') :
    RunInvariant (fun k m => Iterative.iteration m = k ∧ Used change start m) fun _ m => Used change start m where
  iteration h := h.1
  completed h hu := by
    refine ⟨(hcounts.exchange _).trans ?_, (h.2.update (congrArg Outcome.state? hu)).exchange⟩
    rw [hcounts.update hu, h.1]
  failed h hu := h.2.update (congrArg Outcome.state? hu)
  recorded h ho := ⟨(hcounts.record (congrArg Outcome.state? ho)).trans h.1,
    h.2.recordObjective (congrArg Outcome.state? ho)⟩
  records _ := hrecords

/-- **What a run shows** are the solutions of methods that calls lead to. -/
theorem shown {memory : κ} (h : Used change start m) (hcounts : CountsIterations A)
    (hrecords : ∀ {m m' : A} {e : Error}, Iterative.recordObjective m ≠ .error e m')
    (hr : (Splitting.run m budget interval watcher memory).state? = some r') :
    ∀ q ∈ r'.shown, ∃ m', Used change start m' ∧ q.1 = Iterative.solution m' := by
  obtain ⟨n, hends⟩ := (runInvariant hcounts hrecords).run ⟨rfl, h⟩ hr
  intro q hq
  obtain ⟨m', hm', hsolution⟩ := hends.iterates q hq
  exact ⟨m', hm'.2, hsolution⟩

end Used

/-! ## States that nothing tells apart -/

/-- A relation of states that every call keeps, ending in the same way from both, and that neither shows in what is
    seen of a method nor in what a run looks at. -/
structure Indistinguishable (view : A → B) (change : A → C → Outcome A Unit) (R : A → A → Prop) : Prop where
  view : ∀ {m n}, R m n → view m = view n
  solution : ∀ {m n}, R m n → Iterative.solution m = Iterative.solution n
  iteration : ∀ {m n}, R m n → Iterative.iteration m = Iterative.iteration n
  update : ∀ {m n}, R m n → Outcome.Agree Eq R (Iterative.update m) (Iterative.update n)
  exchange : ∀ {m n}, R m n → R (Iterative.exchange m) (Iterative.exchange n)
  record : ∀ {m n}, R m n → Outcome.Agree Eq R (Iterative.recordObjective m) (Iterative.recordObjective n)
  change : ∀ {m n c}, R m n → Outcome.Agree Eq R (change m c) (change n c)

namespace Indistinguishable

variable {view : A → B} {change : A → C → Outcome A Unit} {R : A → A → Prop} {m n : A}

theorem perform (h : Indistinguishable view change R) (hmn : R m n) (c : UserCall C) :
    Outcome.Agree Eq R (c.perform change m) (c.perform change n) := by
  cases c with
  | update => exact h.update hmn
  | exchange => exact .ok rfl (h.exchange hmn)
  | recordObjective => exact h.record hmn
  | change c => exact h.change hmn

/-- **Sessions answer the same.** -/
theorem answers_eq (h : Indistinguishable view change R) (hmn : R m n) (calls : List (UserCall C)) :
    answers view change m (calls.map .call) = answers view change n (calls.map .call) := by
  induction calls generalizing m n with
  | nil => rfl
  | cons c rest ih =>
    have hagree := h.perform hmn c
    show _ :: _ = _ :: _
    rw [hagree.mapState_eq fun _ _ => h.view]
    -- the session goes on from related methods, or it has broken off in both
    rcases hagree.state? with ⟨m', n', hm', hn', hmn'⟩ | ⟨hm', hn'⟩
    · rw [hm', hn', Option.elim_some, Option.elim_some, ih hmn']
    · rw [hm', hn']

/-- Every call is kept, so iterations and records are. -/
theorem lockstep (h : Indistinguishable view change R) (interval : Nat) : Lockstep interval R :=
  ⟨h.solution, h.iteration, h.update, h.exchange, fun _ => h.record⟩

/-- **Runs end the same,** with the same trace. -/
theorem run_agree (h : Indistinguishable view change R) (hmn : R m n) (budget interval : Nat)
    (watcher : Watcher κ S) (memory : κ) :
    Outcome.Agree Eq (RunsMatch R) (run m budget interval watcher memory) (run n budget interval watcher memory) :=
  (h.lockstep interval).run_agree hmn budget watcher memory

end Indistinguishable

/-- Nobody notices the call that led from `m` to `m'`: a method looks the same after it, every session goes on as if
    it had not been made, and so does every run. -/
structure Unnoticed (view : A → B) (change : A → C → Outcome A Unit) (m m' : A) : Prop where
  looks : view m' = view m
  session : ∀ calls : List (UserCall C),
    answers view change m' (calls.map .call) = answers view change m (calls.map .call)
  run : ∀ {κ : Type} (budget interval : Nat) (watcher : Watcher κ S) (memory : κ),
    (Splitting.run m' budget interval watcher memory).mapState (fun r => (view r.method, r.memory, r.trace)) =
      (Splitting.run m budget interval watcher memory).mapState (fun r => (view r.method, r.memory, r.trace))

/-- **A call is not noticed** if it leads to a state that nothing tells apart from the one before it. -/
theorem Indistinguishable.unnoticed {view : A → B} {change : A → C → Outcome A Unit} {R : A → A → Prop} {m m' : A}
    (h : Indistinguishable view change R) (hm : R m' m) : Unnoticed view change m m' where
  looks := h.view hm
  session := h.answers_eq hm
  run budget interval watcher memory := by
    refine (h.run_agree hm budget interval watcher memory).mapState_eq fun r r' hr => ?_
    rw [h.view hr.method, hr.memory, hr.trace]

/-- A run that one of the two methods completes, the other completes as well, and they look the same at its end. -/
theorem Unnoticed.run_ok {view : A → B} {change : A → C → Outcome A Unit} {m m' : A} (h : Unnoticed view change m m')
    {κ : Type} {budget interval k : Nat} {watcher : Watcher κ S} {memory : κ} {r : Run A κ S}
    (hr : Splitting.run m budget interval watcher memory = .ok k r) :
    ∃ r', Splitting.run m' budget interval watcher memory = .ok k r' ∧ view r'.method = view r.method := by
  have hrun := h.run budget interval watcher memory
  rw [hr, Outcome.mapState_ok] at hrun
  obtain ⟨r', hr', hsame⟩ := Outcome.mapState_eq_ok_iff.mp hrun
  exact ⟨r', hr', congrArg Prod.fst hsame⟩

end Splitting
