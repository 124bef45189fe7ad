import Splitting.Iteration

/-!
# `Splitting.Proofs.Iteration` — what holds along a run

A run updates a method, exchanges its iterates, records objectives and shows iterates to a watcher. Whatever
an update and an exchange together preserve therefore holds between any two iterations of a run, and of
every method whose iterate the watcher sees; and the watcher sees each iterate once, in order.

* `Run.shown` — what the watcher was shown;
* `RunInvariant` — a property of methods that one iteration preserves, and what is left of it when one fails;
* `RunInvariant.iterate`, `RunInvariant.run` — the loop and the whole run preserve it;
* `Productive`, `Productive.run_ok` — a run in which nothing fails, and how many iterations it completes;
* `Resumed`, `Productive.resumed_run_ok` — a method that was run before, any number of times, and its next run.
-/

namespace Splitting

variable {A κ S : Type}

/-! ## What the watcher was shown -/

/-- What an event shows to the watcher. -/
def Event.shown? : Event S → Option (Vec S × Nat)
  | .watch x k => some (x, k)
  | _ => none

/-- Only the watcher's events show anything. -/
theorem shown?_push {trace : Array (Event S)} {e : Event S} (h : e.shown? = none) :
    (trace.push e).toList.filterMap Event.shown? = trace.toList.filterMap Event.shown? := by
  rw [Array.toList_push, List.filterMap_append, List.filterMap_cons, h, List.filterMap_nil, List.append_nil]

namespace Run

/-- The solutions that the watcher was shown, each with the number of its iteration. -/
def shown (r : Run A κ S) : List (Vec S × Nat) := r.trace.toList.filterMap Event.shown?

variable [Iterative A S]

/-- The watcher is shown the current solution of the method, which stays as it is. -/
theorem watch_shown (watcher : Watcher κ S) (number : Nat) (r : Run A κ S) :
    (r.watch watcher number).2.method = r.method ∧
      (r.watch watcher number).2.shown = r.shown ++ [(Iterative.solution r.method, number)] := by
  obtain ⟨method, memory, trace⟩ := r
  refine ⟨rfl, ?_⟩
  simp only [watch, shown, Array.toList_push, List.filterMap_append, List.filterMap_cons, Event.shown?,
    List.filterMap_nil]

/-- An update, an exchange and a record if one is due: a round of the loop before the watcher's turn. -/
def round (interval : Nat) (r : Run A κ S) : Outcome (Run A κ S) Unit :=
  r.update.bind fun _ r => r.exchange.recordIfDue interval

theorem round_of_update {method m : A} {memory : κ} {trace : Array (Event S)}
    (h : Iterative.update method = .ok () m) (interval : Nat) :
    (⟨method, memory, trace⟩ : Run A κ S).round interval =
      recordIfDue interval ⟨Iterative.exchange m, memory, (trace.push .update).push .exchange⟩ := by
  rw [round, update, h]
  rfl

theorem iterate_succ (interval : Nat) (watcher : Watcher κ S) (budget : Nat) (r : Run A κ S) :
    r.iterate interval watcher (budget + 1) = (r.round interval).bind fun _ r =>
      if (r.watch watcher (Iterative.iteration r.method)).1 then
        .ok (Iterative.iteration (r.watch watcher (Iterative.iteration r.method)).2.method)
          (r.watch watcher (Iterative.iteration r.method)).2
      else (r.watch watcher (Iterative.iteration r.method)).2.iterate interval watcher budget := by
  rw [iterate, round, Outcome.bind_assoc]

end Run

/-- The watcher lets every run go on. -/
def Watcher.NeverStops (watcher : Watcher κ S) : Prop := ∀ memory x j, (watcher memory x j).1 = false

/-! ## Invariants -/

/-- `Holds k` is a property of methods with `k` completed iterations that survives one more, and `Broken k`
    what is left of it when that one fails. A record of the objective does not fail. -/
structure RunInvariant [Iterative A S] (Holds Broken : Nat → A → Prop) : Prop where
  iteration : ∀ {k m}, Holds k m → Iterative.iteration m = k
  completed : ∀ {k m m'}, Holds k m → Iterative.update m = .ok () m' → Holds (k + 1) (Iterative.exchange m')
  failed : ∀ {k m m' e}, Holds k m → Iterative.update m = .error e m' → Broken k m'
  recorded : ∀ {k m m'}, Holds k m → Iterative.recordObjective m = .ok () m' → Holds k m'
  records : ∀ {k m m' e}, Holds k m → Iterative.recordObjective m ≠ .error e m'

namespace RunInvariant

variable [Iterative A S] {Holds Broken : Nat → A → Prop} {k interval budget : Nat} {watcher : Watcher κ S}
  {r r' : Run A κ S}

/-- A record, if one is due, keeps the invariant and shows nothing. -/
theorem recordIfDue (h : RunInvariant Holds Broken) (interval : Nat) (hr : Holds k r.method) :
    r.recordIfDue interval = .mismatch ∨
      ∃ r', r.recordIfDue interval = .ok () r' ∧ Holds k r'.method ∧ r'.shown = r.shown := by
  unfold Run.recordIfDue
  by_cases hdue : 0 < interval ∧ Iterative.iteration r.method % interval = 0
  · rw [if_pos hdue]
    obtain ⟨method, memory, trace⟩ := r
    rw [Run.recordObjective]
    cases ho : Iterative.recordObjective method with
    | ok _ m => exact Or.inr ⟨⟨m, memory, trace.push .objective⟩, rfl, h.recorded hr ho, shown?_push rfl⟩
    | error e m => exact absurd ho (h.records hr)
    | mismatch => exact Or.inl rfl
  · rw [if_neg hdue]
    exact Or.inr ⟨r, rfl, hr, rfl⟩

/-- A round completes an iteration or fails in one, and shows nothing. -/
theorem round (h : RunInvariant Holds Broken) (hr : Holds k r.method) (hi : r.round interval ≠ .mismatch) :
    ∃ r', r'.shown = r.shown ∧ ((r.round interval = .ok () r' ∧ Holds (k + 1) r'.method) ∨
      (∃ e, r.round interval = .error e r') ∧ Broken k r'.method) := by
  obtain ⟨method, memory, trace⟩ := r
  cases hu : Iterative.update method with
  | mismatch =>
    refine absurd ?_ hi
    rw [Run.round, Run.update, hu]
    rfl
  | error e m =>
    refine ⟨⟨m, memory, trace.push .update⟩, shown?_push rfl, Or.inr ⟨⟨e, ?_⟩, h.failed hr hu⟩⟩
    rw [Run.round, Run.update, hu]
    rfl
  | ok _ m =>
    rw [Run.round_of_update hu] at hi ⊢
    have hnext : Holds (k + 1) (Iterative.exchange m) := h.completed hr hu
    have hrecord := h.recordIfDue (r := ⟨_, memory, (trace.push .update).push .exchange⟩) interval hnext
    rcases hrecord with hnone | ⟨r₁, hok, hr₁, hs₁⟩
    · exact absurd hnone hi
    · refine ⟨r₁, ?_, Or.inl ⟨hok, hr₁⟩⟩
      rw [hs₁]
      show ((trace.push .update).push .exchange).toList.filterMap Event.shown? =
        trace.toList.filterMap Event.shown?
      rw [shown?_push rfl, shown?_push rfl]

/-- How a run goes on after `k` iterations: `n` more are completed, the watcher is shown each of them, and the
    invariant holds at the end unless an iteration has failed. -/
structure Continues (Holds Broken : Nat → A → Prop) (k : Nat) (r : Run A κ S) (o : Outcome (Run A κ S) Nat)
    (r' : Run A κ S) (n : Nat) (later : List (Vec S × Nat)) : Prop where
  shown : r'.shown = r.shown ++ later
  numbers : later.map Prod.snd = List.range' (k + 1) n
  iterates : ∀ p ∈ later, ∃ m, Holds p.2 m ∧ p.1 = Iterative.solution m
  ends : (o = .ok (k + n) r' ∧ Holds (k + n) r'.method) ∨ (∃ e, o = .error e r') ∧ Broken (k + n) r'.method

/-- **The loop keeps the invariant.** -/
theorem iterate (h : RunInvariant Holds Broken) (hr : Holds k r.method)
    (hi : (r.iterate interval watcher budget).state? = some r') :
    ∃ n later, Continues Holds Broken k r (r.iterate interval watcher budget) r' n later := by
  -- the induction is on the budget; each round hands the invariant on with one more iteration completed
  induction budget generalizing k r with
  | zero =>
    cases hi
    refine ⟨0, [], (List.append_nil _).symm, rfl, nofun, Or.inl ⟨?_, hr⟩⟩
    rw [Run.iterate, h.iteration hr]
    rfl
  | succ budget ih =>
    rw [Run.iterate_succ] at hi ⊢
    have hround : r.round interval ≠ .mismatch := by
      intro hnone
      rw [hnone] at hi
      cases hi
    obtain ⟨r₁, hs₁, ⟨hok, hr₁⟩ | ⟨⟨e, herror⟩, hbroken⟩⟩ := h.round hr hround
    · rw [hok, Outcome.bind_ok, h.iteration hr₁] at hi ⊢
      obtain ⟨hm₂, hs₂⟩ := r₁.watch_shown watcher (k + 1)
      have hr₂ : Holds (k + 1) (r₁.watch watcher (k + 1)).2.method := hm₂ ▸ hr₁
      by_cases hstop : (r₁.watch watcher (k + 1)).1 = true
      · rw [if_pos hstop] at hi ⊢
        cases hi
        refine ⟨1, [(Iterative.solution r₁.method, k + 1)], ?_, rfl, ?_, Or.inl ⟨?_, hr₂⟩⟩
        · rw [hs₂, hs₁]
        · intro p hp
          rw [List.mem_singleton.mp hp]
          exact ⟨r₁.method, hr₁, rfl⟩
        · rw [h.iteration hr₂]
      · rw [if_neg hstop] at hi ⊢
        obtain ⟨n, later, hlater⟩ := ih hr₂ hi
        refine ⟨n + 1, (Iterative.solution r₁.method, k + 1) :: later, ?_, ?_, ?_, ?_⟩
        · rw [hlater.shown, hs₂, hs₁, List.append_assoc, List.singleton_append]
        · rw [List.map_cons, hlater.numbers, List.range'_succ]
        · intro p hp
          rcases List.mem_cons.mp hp with rfl | hp
          · exact ⟨r₁.method, hr₁, rfl⟩
          · exact hlater.iterates p hp
        · rw [Nat.add_comm n 1, ← Nat.add_assoc]
          exact hlater.ends
    · rw [herror] at hi ⊢
      cases hi
      exact ⟨0, [], hs₁.trans (List.append_nil _).symm, rfl, nofun, Or.inr ⟨⟨e, rfl⟩, hbroken⟩⟩

/-- The number of the first iteration that a run shows to its watcher, after `k` iterations: the starting point
    of a method that has not moved yet, and else the next iterate. -/
def firstShown (k : Nat) : Nat := if k = 0 then 0 else k + 1

/-- How a run ends that begins after `k` iterations: `n` more are completed, the watcher has been shown each
    iterate once, and the invariant holds at the end unless an iteration has failed. -/
structure Ends (Holds Broken : Nat → A → Prop) (k : Nat) (o : Outcome (Run A κ S) Nat) (r : Run A κ S)
    (n : Nat) : Prop where
  numbers : r.shown.map Prod.snd = List.range' (firstShown k) (k + n + 1 - firstShown k)
  iterates : ∀ p ∈ r.shown, ∃ m, Holds p.2 m ∧ p.1 = Iterative.solution m
  ends : (o = .ok (k + n) r ∧ Holds (k + n) r.method) ∨ (∃ e, o = .error e r) ∧ Broken (k + n) r.method

/-- A run of a method that has not moved yet records its objective, as after any other iteration, and shows the
    starting point before the loop. -/
theorem run_of_start {m : A} {memory : κ} (hm : Iterative.iteration m = 0) :
    Splitting.run m budget interval watcher memory =
      (Run.recordIfDue interval ⟨m, memory, #[]⟩).bind fun _ r =>
        if (r.watch watcher 0).1 then .ok 0 (r.watch watcher 0).2
        else (r.watch watcher 0).2.iterate interval watcher budget := by
  have hstart : Run.recordIfDue interval ⟨m, memory, #[]⟩ =
      if 0 < interval then (⟨m, memory, #[]⟩ : Run A κ S).recordObjective else .ok () ⟨m, memory, #[]⟩ := by
    simp only [Run.recordIfDue, hm, Nat.zero_mod, and_true]
  simp only [Splitting.run, if_pos hm, hstart]

theorem run_from_start (h : RunInvariant Holds Broken) {m : A} {memory : κ} (hm : Holds 0 m)
    (hi : (Splitting.run m budget interval watcher memory).state? = some r') :
    ∃ n, Ends Holds Broken 0 (Splitting.run m budget interval watcher memory) r' n := by
  rw [run_of_start (h.iteration hm)] at hi ⊢
  rcases h.recordIfDue (r := ⟨m, memory, #[]⟩) interval hm with hnone | ⟨r₁, hok, hr₁, hs₁⟩
  · rw [hnone] at hi
    cases hi
  · rw [hok, Outcome.bind_ok] at hi ⊢
    obtain ⟨hm₂, hs₂⟩ := r₁.watch_shown watcher 0
    have hr₂ : Holds 0 (r₁.watch watcher 0).2.method := hm₂ ▸ hr₁
    have hfirst : (r₁.watch watcher 0).2.shown = [(Iterative.solution r₁.method, 0)] := by
      rw [hs₂, hs₁]
      rfl
    by_cases hstop : (r₁.watch watcher 0).1 = true
    · rw [if_pos hstop] at hi ⊢
      cases hi
      refine ⟨0, ?_, ?_, Or.inl ⟨rfl, hr₂⟩⟩
      · rw [hfirst]
        rfl
      · intro p hp
        rw [hfirst] at hp
        rw [List.mem_singleton.mp hp]
        exact ⟨r₁.method, hr₁, rfl⟩
    · rw [if_neg hstop] at hi ⊢
      obtain ⟨n, later, hlater⟩ := h.iterate hr₂ hi
      refine ⟨n, ?_, ?_, hlater.ends⟩
      · have hcount : 0 + n + 1 - firstShown 0 = n + 1 := by
          show 0 + n + 1 - 0 = n + 1
          omega
        rw [hlater.shown, hfirst, List.singleton_append, List.map_cons, hlater.numbers, hcount,
          List.range'_succ]
        rfl
      · intro p hp
        rw [hlater.shown, hfirst, List.singleton_append] at hp
        rcases List.mem_cons.mp hp with rfl | hp
        · exact ⟨r₁.method, hr₁, rfl⟩
        · exact hlater.iterates p hp

/-- **The run keeps the invariant,** and its watcher is shown the iterates one by one. -/
theorem run (h : RunInvariant Holds Broken) {m : A} {memory : κ} (hm : Holds k m)
    (hi : (run m budget interval watcher memory).state? = some r') :
    ∃ n, Ends Holds Broken k (Splitting.run m budget interval watcher memory) r' n := by
  by_cases hk : k = 0
  · subst hk
    exact h.run_from_start hm hi
  · -- a method that has moved goes straight on with the loop
    unfold Splitting.run at hi ⊢
    simp only [h.iteration hm, if_neg hk] at hi ⊢
    obtain ⟨n, later, hlater⟩ := h.iterate (r := ⟨m, memory, #[]⟩) hm hi
    have hshown : r'.shown = later := hlater.shown
    have hcount : k + n + 1 - firstShown k = n := by
      rw [firstShown, if_neg hk]
      omega
    refine ⟨n, ?_, ?_, hlater.ends⟩
    · rw [hshown, hlater.numbers, hcount, firstShown, if_neg hk]
    · rw [hshown]
      exact hlater.iterates

end RunInvariant

/-! ## Runs in which nothing fails -/

/-- `Holds k` is a property of methods with `k` completed iterations: every update and every record succeeds,
    and keeps it. -/
structure Productive [Iterative A S] (Holds : Nat → A → Prop) : Prop where
  iteration : ∀ {k m}, Holds k m → Iterative.iteration m = k
  update : ∀ {k m}, Holds k m → ∃ m', Iterative.update m = .ok () m' ∧ Holds (k + 1) (Iterative.exchange m')
  record : ∀ {k m}, Holds k m → ∃ m', Iterative.recordObjective m = .ok () m' ∧ Holds k m'

namespace Productive

variable [Iterative A S] {Holds : Nat → A → Prop} {k : Nat} {watcher : Watcher κ S} {r : Run A κ S}

/-- Such a property is an invariant, of which nothing is left only because nothing fails. -/
theorem runInvariant (h : Productive Holds) : RunInvariant Holds fun _ _ => False where
  iteration := h.iteration
  completed := by
    intro k m m' hm hu
    obtain ⟨m₁, hu₁, h₁⟩ := h.update hm
    obtain rfl : m₁ = m' := (Outcome.ok.inj (hu₁.symm.trans hu)).2
    exact h₁
  failed := by
    intro k m m' e hm hu
    obtain ⟨m₁, hu₁, -⟩ := h.update hm
    cases hu₁.symm.trans hu
  recorded := by
    intro k m m' hm ho
    obtain ⟨m₁, ho₁, h₁⟩ := h.record hm
    obtain rfl : m₁ = m' := (Outcome.ok.inj (ho₁.symm.trans ho)).2
    exact h₁
  records := by
    intro k m m' e hm ho
    obtain ⟨m₁, ho₁, -⟩ := h.record hm
    cases ho₁.symm.trans ho

/-- A record, if one is due, succeeds. -/
theorem recordIfDue_ok (h : Productive Holds) (interval : Nat) (hr : Holds k r.method) :
    ∃ r', r.recordIfDue interval = .ok () r' ∧ Holds k r'.method := by
  unfold Run.recordIfDue
  by_cases hdue : 0 < interval ∧ Iterative.iteration r.method % interval = 0
  · rw [if_pos hdue]
    obtain ⟨m, ho, hm⟩ := h.record hr
    refine ⟨⟨m, r.memory, r.trace.push .objective⟩, ?_, hm⟩
    rw [Run.recordObjective, ho]
    rfl
  · rw [if_neg hdue]
    exact ⟨r, rfl, hr⟩

/-- A round succeeds. -/
theorem round_ok (h : Productive Holds) (interval : Nat) (hr : Holds k r.method) :
    ∃ r', r.round interval = .ok () r' ∧ Holds (k + 1) r'.method := by
  obtain ⟨method, memory, trace⟩ := r
  obtain ⟨m, hu, hm⟩ := h.update hr
  rw [Run.round_of_update hu]
  exact h.recordIfDue_ok interval hm

/-- The loop succeeds, and uses its budget up unless the watcher stops it. -/
theorem iterate_ok (h : Productive Holds) (budget interval : Nat) (hr : Holds k r.method) :
    ∃ n r', r.iterate interval watcher budget = .ok (k + n) r' ∧ (watcher.NeverStops → n = budget) := by
  induction budget generalizing k r with
  | zero =>
    refine ⟨0, r, ?_, fun _ => rfl⟩
    rw [Run.iterate, h.iteration hr]
    rfl
  | succ budget ih =>
    obtain ⟨r₁, hround, hr₁⟩ := h.round_ok interval hr
    rw [Run.iterate_succ, hround, Outcome.bind_ok, h.iteration hr₁]
    have hm₂ : (r₁.watch watcher (k + 1)).2.method = r₁.method := (r₁.watch_shown watcher (k + 1)).1
    have hr₂ : Holds (k + 1) (r₁.watch watcher (k + 1)).2.method := hm₂ ▸ hr₁
    by_cases hstop : (r₁.watch watcher (k + 1)).1 = true
    · rw [if_pos hstop]
      refine ⟨1, _, by rw [h.iteration hr₂], fun hnever => ?_⟩
      exact absurd ((hnever _ _ _).symm.trans hstop) Bool.false_ne_true
    · rw [if_neg hstop]
      obtain ⟨n, r', hok, hn⟩ := ih hr₂
      refine ⟨n + 1, r', ?_, fun hnever => congrArg (· + 1) (hn hnever)⟩
      rw [hok, Nat.add_assoc, Nat.add_comm 1 n]

/-- **A run succeeds:** it keeps the property, also of what the watcher is shown, and uses its budget up unless
    the watcher stops it. -/
theorem run_ok (h : Productive Holds) {m : A} (hm : Holds k m) (budget interval : Nat) (watcher : Watcher κ S)
    (memory : κ) : ∃ n r', run m budget interval watcher memory = .ok (k + n) r' ∧ Holds (k + n) r'.method ∧
      (∀ p ∈ r'.shown, ∃ m, Holds p.2 m ∧ p.1 = Iterative.solution m) ∧ (watcher.NeverStops → n = budget) := by
  have hok : ∃ n r', run m budget interval watcher memory = .ok (k + n) r' ∧
      (watcher.NeverStops → n = budget) := by
    by_cases hk : k = 0
    · subst hk
      obtain ⟨r₁, hrecord, hr₁⟩ := h.recordIfDue_ok (r := ⟨m, memory, #[]⟩) interval hm
      rw [RunInvariant.run_of_start (h.iteration hm), hrecord, Outcome.bind_ok]
      have hr₂ : Holds 0 (r₁.watch watcher 0).2.method := (r₁.watch_shown watcher 0).1 ▸ hr₁
      by_cases hstop : (r₁.watch watcher 0).1 = true
      · rw [if_pos hstop]
        refine ⟨0, _, rfl, fun hnever => ?_⟩
        exact absurd ((hnever _ _ _).symm.trans hstop) Bool.false_ne_true
      · rw [if_neg hstop]
        exact h.iterate_ok budget interval hr₂
    · unfold run
      simp only [h.iteration hm, if_neg hk]
      exact h.iterate_ok (r := ⟨m, memory, #[]⟩) budget interval hm
  obtain ⟨n, r', hrun, hn⟩ := hok
  have hstate : (run m budget interval watcher memory).state? = some r' := by
    rw [hrun]
    rfl
  obtain ⟨n', hends⟩ := h.runInvariant.run hm hstate
  obtain ⟨hsame, hholds⟩ := hends.ends.resolve_right fun hbroken => hbroken.2
  obtain rfl : n' = n := by
    rw [hrun, Outcome.ok.injEq] at hsame
    omega
  exact ⟨n', r', hrun, hholds, hends.iterates, hn⟩

end Productive

/-! ## Several runs -/

/-- A method that was run before, any number of times, and never failed. -/
inductive Resumed [Iterative A S] (start : A) : A → Prop where
  | start : Resumed start start
  | run {κ : Type} {m : A} {budget interval n : Nat} {watcher : Watcher κ S} {memory : κ} {r : Run A κ S} :
      Resumed start m → run m budget interval watcher memory = .ok n r → Resumed start r.method

/-- A method that was run before is as one run left it. -/
theorem Resumed.holds [Iterative A S] {Holds Broken : Nat → A → Prop} {start m : A} (hr : Resumed start m)
    (h : RunInvariant Holds Broken) (hstart : Holds 0 start) : ∃ k, Holds k m := by
  induction hr with
  | start => exact ⟨0, hstart⟩
  | run _ hrun ih =>
    obtain ⟨k, hk⟩ := ih
    obtain ⟨n, -, -, ⟨-, hholds⟩ | ⟨⟨e, herror⟩, -⟩⟩ := h.run hk (by rw [hrun]; rfl)
    · exact ⟨k + n, hholds⟩
    · rw [hrun] at herror
      cases herror

/-- **A method that was run before completes every run,** if nothing fails of the method that it was at the start. -/
theorem Productive.resumed_run_ok [Iterative A S] {Holds : Nat → A → Prop} (h : Productive Holds) {start m : A}
    (hm : Resumed start m) (hstart : Holds 0 start) (budget interval : Nat) (watcher : Watcher κ S) (memory : κ) :
    Holds (Iterative.iteration m) m ∧ ∃ k r, run m budget interval watcher memory = .ok k r ∧ Holds k r.method ∧
      (∀ p ∈ r.shown, ∃ m', Holds p.2 m' ∧ p.1 = Iterative.solution m') ∧
      (watcher.NeverStops → k = Iterative.iteration m + budget) := by
  obtain ⟨k, hk⟩ := hm.holds h.runInvariant hstart
  obtain rfl : Iterative.iteration m = k := h.iteration hk
  obtain ⟨n, r, hrun, hlast, hiterates, hnever⟩ := h.run_ok hk budget interval watcher memory
  exact ⟨hk, _, r, hrun, hlast, hiterates, fun hw => congrArg (_ + ·) (hnever hw)⟩

end Splitting
