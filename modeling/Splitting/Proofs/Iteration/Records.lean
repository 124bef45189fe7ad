import Splitting.Proofs.Iteration.Chronicle

/-!
# `Splitting.Proofs.Iteration.Records` — records that nothing depends on

A record of the objective may write into buffers that other calls use, and may fail halfway. Nobody notices if
every other call overwrites what it reads of them. This module says what that takes of a method, and what follows
for all sequences of calls and for all runs; the three methods are another matter.

* `Outcome.bind_mapState` — a change of the state commutes with a sequence;
* `Outcome.Agree`, `advance_agree` — two steps that end in the same way, in related states, and the way to a turn;
* `UserCall`, `Entry`, `answers` — a session with records put in between its calls, and what the calls answer;
* `Unobtrusive` — methods that differ in what a record leaves behind, and that every call keeps so;
* `Unobtrusive.answers_plain` — records in between change no answer;
* `Unobtrusive.run_agree` — the interval of a run changes nothing as long as no record fails;
* `RecordsUnseen`, `Unobtrusive.recordsUnseen` — both together, for one method.
-/

namespace Splitting

variable {A B C κ S : Type}

/-! ## A change of the state -/

namespace Outcome

variable {σ τ υ α β : Type}

theorem mapState_mapState (o : Outcome σ α) (f : σ → τ) (g : τ → υ) :
    (o.mapState f).mapState g = o.mapState fun s => g (f s) := by
  cases o <;> rfl

/-- A sequence commutes with a change of the state if its first step does, but for a change of its value, and the
    second step does from wherever it starts. -/
theorem bind_map_mapState {α' : Type} {o : Outcome σ α} {v : α → α'} {f : σ → τ} {next : α → σ → Outcome σ β}
    {next' : α' → τ → Outcome τ β} (h : ∀ a s, o = .ok a s → next' (v a) (f s) = (next a s).mapState f) :
    ((o.map v).mapState f).bind next' = (o.bind next).mapState f := by
  cases o with
  | ok a s => exact h a s rfl
  | error e s => rfl
  | mismatch => rfl

/-- The value may be the same. -/
theorem bind_mapState {o : Outcome σ α} {f : σ → τ} {next : α → σ → Outcome σ β} {next' : α → τ → Outcome τ β}
    (h : ∀ a s, o = .ok a s → next' a (f s) = (next a s).mapState f) :
    (o.mapState f).bind next' = (o.bind next).mapState f := by
  cases o with
  | ok a s => exact h a s rfl
  | error e s => rfl
  | mismatch => rfl

end Outcome

/-! ## Outcomes that agree -/

/-- Both steps succeed with related values, or both fail for the same cause, and the states that they leave are
    related; or both break off. -/
inductive Outcome.Agree {α β σ τ : Type} (V : α → β → Prop) (R : σ → τ → Prop) :
    Outcome σ α → Outcome τ β → Prop where
  | ok {a : α} {b : β} {s : σ} {t : τ} : V a b → R s t → Agree V R (.ok a s) (.ok b t)
  | error {e : Error} {s : σ} {t : τ} : R s t → Agree V R (.error e s) (.error e t)
  | mismatch : Agree V R .mismatch .mismatch

namespace Outcome.Agree

variable {α β γ δ σ τ σ' τ' : Type} {V : α → β → Prop} {U : γ → δ → Prop} {R : σ → τ → Prop}
  {Q : σ' → τ' → Prop} {o : Outcome σ α} {o' : Outcome τ β}

/-- Steps that agree, and after which the next steps agree. -/
theorem bind {Q : σ → τ → Prop} {f : α → σ → Outcome σ γ} {g : β → τ → Outcome τ δ} (h : Agree V R o o')
    (herror : ∀ s t, R s t → Q s t) (hnext : ∀ a b s t, V a b → R s t → Agree U Q (f a s) (g b t)) :
    Agree U Q (o.bind f) (o'.bind g) := by
  cases h with
  | ok hv hr => exact hnext _ _ _ _ hv hr
  | error hr => exact .error (herror _ _ hr)
  | mismatch => exact .mismatch

theorem mapState {f : σ → σ'} {g : τ → τ'} (h : Agree V R o o') (hfg : ∀ s t, R s t → Q (f s) (g t)) :
    Agree V Q (o.mapState f) (o'.mapState g) := by
  cases h with
  | ok hv hr => exact .ok hv (hfg _ _ hr)
  | error hr => exact .error (hfg _ _ hr)
  | mismatch => exact .mismatch

/-- Steps that agree are equal in all that the relation of their states shows. -/
theorem mapState_eq {o' : Outcome τ α} {f : σ → γ} {g : τ → γ} (h : Agree Eq R o o')
    (hfg : ∀ s t, R s t → f s = g t) : o.mapState f = o'.mapState g := by
  cases h with
  | ok hv hr => rw [hv, mapState_ok, mapState_ok, hfg _ _ hr]
  | error hr => rw [mapState_error, mapState_error, hfg _ _ hr]
  | mismatch => rfl

/-- Steps that are equal in what `f` shows agree in it. -/
theorem of_mapState_eq {o' : Outcome σ α} {f : σ → γ} (h : o.mapState f = o'.mapState f) :
    Agree Eq (fun s t => f s = f t) o o' := by
  cases o with
  | ok a s =>
    obtain ⟨t, rfl, hf⟩ := mapState_eq_ok_iff.mp h.symm
    exact .ok rfl hf.symm
  | error e s =>
    obtain ⟨t, rfl, hf⟩ := mapState_eq_error_iff.mp h.symm
    exact .error hf.symm
  | mismatch =>
    rw [mapState_eq_mismatch_iff.mp h.symm]
    exact .mismatch

/-- A step agrees with its copy under a change of the state. -/
theorem of_mapState {f : σ → τ} (h : ∀ s, o.state? = some s → R s (f s)) : Agree Eq R o (o.mapState f) := by
  cases o with
  | ok a s => exact .ok rfl (h s rfl)
  | error e s => exact .error (h s rfl)
  | mismatch => exact .mismatch

theorem refl (o : Outcome σ α) : Agree Eq Eq o o := by
  cases o with
  | ok a s => exact .ok rfl rfl
  | error e s => exact .error rfl
  | mismatch => exact .mismatch

/-- The states that the steps leave may be related in another way as well. -/
theorem imp {Q : σ → τ → Prop} (h : Agree V R o o')
    (himp : ∀ s t, o.state? = some s → o'.state? = some t → R s t → Q s t) : Agree V Q o o' := by
  cases h with
  | ok hv hr => exact .ok hv (himp _ _ rfl rfl hr)
  | error hr => exact .error (himp _ _ rfl rfl hr)
  | mismatch => exact .mismatch

/-- What holds of all states that the first step leaves can be added to the relation. -/
theorem and_left {P : σ → Prop} (h : Agree V R o o') (hp : ∀ s, o.state? = some s → P s) :
    Agree V (fun s t => R s t ∧ P s) o o' :=
  h.imp fun s _ hs _ hr => ⟨hr, hp s hs⟩

theorem of_ok {a : α} {s : σ} (h : Agree V R (.ok a s) o') : ∃ b t, o' = .ok b t ∧ V a b ∧ R s t := by
  cases h with
  | ok hv hr => exact ⟨_, _, rfl, hv, hr⟩

theorem of_error {e : Error} {s : σ} (h : Agree V R (.error e s) o') : ∃ t, o' = .error e t ∧ R s t := by
  cases h with
  | error hr => exact ⟨_, rfl, hr⟩

theorem of_mismatch (h : Agree V R .mismatch o') : o' = .mismatch := by
  cases h with
  | mismatch => rfl

/-- What agrees with the copy of a step agrees with the step. -/
theorem of_mapState_left {f : σ → τ} {o' : Outcome σ' β} {Q : τ → σ' → Prop} (h : Agree V Q (o.mapState f) o') :
    Agree V (fun s t => Q (f s) t) o o' := by
  cases o with
  | ok a s =>
    obtain ⟨b, t, rfl, hv, hq⟩ := h.of_ok
    exact .ok hv hq
  | error e s =>
    obtain ⟨t, rfl, hq⟩ := h.of_error
    exact .error hq
  | mismatch =>
    rw [h.of_mismatch]
    exact .mismatch

/-- Steps that agree leave related states, or none. -/
theorem state? (h : Agree V R o o') : (∃ s t, o.state? = some s ∧ o'.state? = some t ∧ R s t) ∨
    o.state? = none ∧ o'.state? = none := by
  cases h with
  | ok hv hr => exact Or.inl ⟨_, _, rfl, rfl, hr⟩
  | error hr => exact Or.inl ⟨_, _, rfl, rfl, hr⟩
  | mismatch => exact Or.inr ⟨rfl, rfl⟩

end Outcome.Agree

/-! ## Sessions -/

/-- A call by which a user moves a method. `C` are the changes that the method offers besides. -/
inductive UserCall (C : Type) where
  | update
  | exchange
  | recordObjective
  | change (c : C)

/-- An entry of a session: one of its calls, or a record that is put in between. -/
inductive Entry (C : Type) where
  | call (c : UserCall C)
  | extra

/-- The call that an entry is, unless it was put in between. -/
def Entry.call? : Entry C → Option (UserCall C)
  | .call c => some c
  | .extra => none

section

variable [Iterative A S]

/-- How a call ends. -/
def UserCall.perform (change : A → C → Outcome A Unit) (m : A) : UserCall C → Outcome A Unit
  | .update => Iterative.update m
  | .exchange => .ok () (Iterative.exchange m)
  | .recordObjective => Iterative.recordObjective m
  | .change c => change m c

/-- How the calls of a session end, one after another, with what is seen of the states that they leave. A call
    that breaks off ends the session. -/
def answers (view : A → B) (change : A → C → Outcome A Unit) : A → List (Entry C) → List (Outcome B Unit)
  | _, [] => []
  | m, .extra :: rest => (Iterative.recordObjective m).state?.elim [] fun m => answers view change m rest
  | m, .call c :: rest => (c.perform change m).mapState view ::
      (c.perform change m).state?.elim [] fun m => answers view change m rest

/-- Every record that is put in between succeeds or fails, but does not break off. -/
def RecordsLeave (change : A → C → Outcome A Unit) : A → List (Entry C) → Prop
  | _, [] => True
  | m, .extra :: rest => ∃ m', (Iterative.recordObjective m).state? = some m' ∧ RecordsLeave change m' rest
  | m, .call c :: rest => ∀ m', (c.perform change m).state? = some m' → RecordsLeave change m' rest

/-- Methods are alike that differ in what records leave behind only: nobody sees it, no call depends on it, and a
    record that is put in between adds no other difference. -/
structure Unobtrusive (view : A → B) (change : A → C → Outcome A Unit) (Alike : A → A → Prop) : Prop where
  view : ∀ {m n}, Alike m n → view m = view n
  solution : ∀ {m n}, Alike m n → Iterative.solution m = Iterative.solution n
  iteration : ∀ {m n}, Alike m n → Iterative.iteration m = Iterative.iteration n
  update : ∀ {m n}, Alike m n → Outcome.Agree Eq Alike (Iterative.update m) (Iterative.update n)
  exchange : ∀ {m n}, Alike m n → Alike (Iterative.exchange m) (Iterative.exchange n)
  record : ∀ {m n}, Alike m n → Outcome.Agree Eq Alike (Iterative.recordObjective m) (Iterative.recordObjective n)
  change : ∀ {m n c}, Alike m n → Outcome.Agree Eq Alike (change m c) (change n c)
  extra : ∀ {m n m'}, Alike m n → (Iterative.recordObjective m).state? = some m' → Alike m' n

end

/-- A method that offers no changes. -/
def unchangeable (_ : A) (c : Empty) : Outcome A Unit := nomatch c

namespace Unobtrusive

variable [Iterative A S] {view : A → B} {change : A → C → Outcome A Unit} {Alike : A → A → Prop} {m n : A}

/-- It is enough that a record can be forgotten before a call as well as after it. -/
theorem of_forget {forget : A → A} (hsolution : ∀ m, Iterative.solution (forget m) = Iterative.solution m)
    (hiteration : ∀ m, Iterative.iteration (forget m) = Iterative.iteration m)
    (hupdate : ∀ m, (Iterative.update m).mapState forget = Iterative.update (forget m))
    (hexchange : ∀ m, forget (Iterative.exchange m) = Iterative.exchange (forget m))
    (hrecord : ∀ m, (Iterative.recordObjective m).mapState forget =
      (Iterative.recordObjective (forget m)).mapState forget)
    (hextra : ∀ m m', (Iterative.recordObjective m).state? = some m' → forget m' = forget m) :
    Unobtrusive forget unchangeable fun m n => forget m = forget n where
  view h := h
  solution {m n} h := by rw [← hsolution m, h, hsolution]
  iteration {m n} h := by rw [← hiteration m, h, hiteration]
  update {m n} h := .of_mapState_eq (by rw [hupdate, hupdate, h])
  exchange {m n} h := by rw [hexchange, hexchange, h]
  record {m n} h := .of_mapState_eq (by rw [hrecord m, h, ← hrecord n])
  change {_ _ c} _ := nomatch c
  extra {m n m'} h hm' := (hextra m m' hm').trans h

/-- A call of methods that are alike ends in the same way, and leaves them alike. -/
theorem perform (h : Unobtrusive view change Alike) (hmn : Alike m n) (c : UserCall C) :
    Outcome.Agree Eq Alike (c.perform change m) (c.perform change n) := by
  cases c with
  | update => exact h.update hmn
  | exchange => exact .ok rfl (h.exchange hmn)
  | recordObjective => exact h.record hmn
  | change c => exact h.change hmn

/-- **Records in between change no answer.** -/
theorem answers_plain (h : Unobtrusive view change Alike) {entries : List (Entry C)} (hmn : Alike m n)
    (hleave : RecordsLeave change m entries) :
    answers view change m entries = answers view change n ((entries.filterMap Entry.call?).map .call) := by
  induction entries generalizing m n with
  | nil => rfl
  | cons entry rest ih =>
    cases entry with
    | extra =>
      obtain ⟨m', hm', hrest⟩ := hleave
      rw [answers, hm', Option.elim_some]
      exact ih (h.extra hmn hm') hrest
    | call c =>
      have hagree := h.perform hmn c
      show _ :: _ = _ :: _
      rw [hagree.mapState_eq fun _ _ => h.view]
      -- the session goes on from methods that are alike, or it has broken off in both
      rcases hagree.state? with ⟨m', n', hm', hn', hmn'⟩ | ⟨hm', hn'⟩
      · rw [hm', hn', Option.elim_some, Option.elim_some, ih hmn' (hleave m' hm')]
      · rw [hm', hn', Option.elim_none, Option.elim_none]

end Unobtrusive

/-! ## Runs -/

variable [Iterative A S]

/-- Every record that a run comes to succeeds, in turns from `first` to `limit`. -/
def RecordsSucceed (interval : Nat) (watcher : Watcher κ S) (limit : Nat) (m : A) (first : Nat) (memory : κ) :
    Prop :=
  ∀ turns next, Leads interval m first turns → first + turns.length ≤ limit →
    watcher.replies memory (told first turns) = List.replicate turns.length false →
    advance (first + turns.length) (turns.getLastD m) = .ok () next → Due interval (first + turns.length) →
    ∃ m', Iterative.recordObjective next = .ok () m'

/-- Runs of methods that are alike, with the same memory of the watcher, who has been shown the same. -/
structure RunsAlike (Alike : A → A → Prop) (r r' : Run A κ S) : Prop where
  method : Alike r.method r'.method
  memory : r.memory = r'.memory
  shown : r.shown = r'.shown

omit [Iterative A S] in
/-- Events that show nothing keep runs alike. -/
theorem RunsAlike.adds {Alike : A → A → Prop} {m n : A} {rest rest' : List (Event S)} {r r' r₁ r₁' : Run A κ S}
    (hr : RunsAlike Alike r r') (h₁ : r.Adds rest m r₁) (h₁' : r'.Adds rest' n r₁') (hmn : Alike m n)
    (hrest : rest.filterMap Event.shown? = []) (hrest' : rest'.filterMap Event.shown? = []) :
    RunsAlike Alike r₁ r₁' := by
  refine ⟨?_, by rw [h₁.memory, h₁'.memory, hr.memory], ?_⟩
  · rw [h₁.method, h₁'.method]
    exact hmn
  · have hshown : r.trace.toList.filterMap Event.shown? = r'.trace.toList.filterMap Event.shown? := hr.shown
    rw [Run.shown, Run.shown, h₁.trace, h₁'.trace, List.filterMap_append, List.filterMap_append, hrest, hrest',
      hshown]

namespace RecordsSucceed

variable {interval limit first k : Nat} {watcher : Watcher κ S} {memory : κ} {m m' next : A}

/-- The first record succeeds. -/
theorem record (h : RecordsSucceed interval watcher limit m k memory) (hk : k ≤ limit)
    (hadvance : advance k m = .ok () next) (hdue : Due interval k) :
    ∃ m', Iterative.recordObjective next = .ok () m' :=
  h [] next trivial hk rfl hadvance hdue

/-- So do those after the first turn. -/
theorem tail (h : RecordsSucceed interval watcher limit m k memory) (hturn : comesTo interval k m = .ok () m')
    (hreply : (watcher memory (Iterative.solution m') k).1 = false) :
    RecordsSucceed interval watcher limit m' (k + 1) (watcher memory (Iterative.solution m') k).2 := by
  intro turns next hleads hlimit hsays hadvance hdue
  have hcount : k + (m' :: turns).length = k + 1 + turns.length := by
    rw [List.length_cons]
    omega
  refine h (m' :: turns) next ⟨hturn, hleads⟩ (hcount ▸ hlimit) ?_ ?_ (hcount ▸ hdue)
  · show _ :: _ = _ :: _
    rw [hreply]
    exact congrArg (false :: ·) hsays
  · rw [hcount, List.getLastD_cons]
    exact hadvance

end RecordsSucceed

/-- Methods come to a turn in related states if iterations and exchanges keep them so. -/
theorem advance_agree {R : A → A → Prop} {m n : A}
    (hupdate : ∀ {m n}, R m n → Outcome.Agree Eq R (Iterative.update m) (Iterative.update n))
    (hexchange : ∀ {m n}, R m n → R (Iterative.exchange m) (Iterative.exchange n)) (hmn : R m n) (k : Nat) :
    Outcome.Agree Eq R (advance k m) (advance k n) := by
  unfold advance
  by_cases hk : k = 0
  · rw [if_pos hk, if_pos hk]
    exact .ok rfl hmn
  · rw [if_neg hk, if_neg hk]
    exact (hupdate hmn).bind (fun _ _ => id) fun _ _ _ _ _ hst => .ok rfl (hexchange hst)

namespace Unobtrusive

variable {view : A → B} {change : A → C → Outcome A Unit} {Alike : A → A → Prop} {m n : A}
  {interval limit k budget : Nat} {watcher : Watcher κ S} {r r' : Run A κ S}

/-- A turn comes to methods that are alike, with a record that succeeds or without one. -/
theorem comesTo_agree (h : Unobtrusive view change Alike) (interval : Nat) {next next' : A}
    (hnext : Alike next next') (hadvance : advance k m = .ok () next)
    (hrecord : Due interval k → ∃ m', Iterative.recordObjective next = .ok () m') :
    ∃ m', comesTo interval k m = .ok () m' ∧ Alike m' next' := by
  rw [comesTo, hadvance, Outcome.bind_ok]
  by_cases hdue : Due interval k
  · obtain ⟨m', hm'⟩ := hrecord hdue
    rw [if_pos hdue]
    exact ⟨m', hm', h.extra hnext (by rw [hm']; rfl)⟩
  · rw [if_neg hdue]
    exact ⟨next, rfl, hnext⟩

/-- The watcher sees the same in runs that are alike, and leaves them alike. -/
theorem watch_agree (h : Unobtrusive view change Alike) (hr : RunsAlike Alike r r') (watcher : Watcher κ S)
    (k : Nat) : (r.watch watcher k).1 = (r'.watch watcher k).1 ∧
      RunsAlike Alike (r.watch watcher k).2 (r'.watch watcher k).2 := by
  obtain ⟨hmethod, hshown⟩ := r.watch_shown watcher k
  obtain ⟨hmethod', hshown'⟩ := r'.watch_shown watcher k
  obtain ⟨method, memory, trace⟩ := r
  obtain ⟨method', memory', trace'⟩ := r'
  obtain ⟨halike, rfl, hsame⟩ := hr
  have hsolution := h.solution halike
  dsimp only at hsolution
  refine ⟨?_, halike, ?_, ?_⟩
  · simp only [Run.watch, hsolution]
  · simp only [Run.watch, hsolution]
  · rw [hshown, hshown', hsame, hsolution]

/-- **A turn with its record, and without.** If the record succeeds, the runs go on from methods that are alike. -/
theorem agree_of_turn (h : Unobtrusive view change Alike) (hcounts : CountsIterations A)
    (hr : RunsAlike Alike r r') (hk : Iterative.iteration r.method = k - 1) (hlimit : k ≤ limit)
    (hsucceed : RecordsSucceed interval watcher limit r.method k r.memory)
    {next next' : Run A κ S → Outcome (Run A κ S) Nat}
    (hnext : ∀ r₂ r₂', RunsAlike Alike r₂ r₂' → Iterative.iteration r₂.method = k →
      RecordsSucceed interval watcher limit r₂.method (k + 1) r₂.memory →
      Outcome.Agree Eq (RunsAlike Alike) (next r₂) (next' r₂')) :
    Outcome.Agree Eq (RunsAlike Alike) ((r.turn interval k).bind fun _ r => r.goOn watcher k next)
      ((r'.turn 0 k).bind fun _ r => r.goOn watcher k next') := by
  have hk' : Iterative.iteration r'.method = k - 1 := (h.iteration hr.method).symm.trans hk
  have hadvances := advance_agree h.update h.exchange hr.method k
  cases hadvance : advance k r.method with
  | mismatch =>
    rw [hadvance] at hadvances
    obtain ⟨hzero, hu⟩ := advance_eq_mismatch_iff.mp hadvance
    obtain ⟨-, hu'⟩ := advance_eq_mismatch_iff.mp hadvances.of_mismatch
    rw [Run.turn_of_update_mismatch hzero hu, Run.turn_of_update_mismatch hzero hu']
    exact .mismatch
  | error e m =>
    rw [hadvance] at hadvances
    obtain ⟨m', hadvance', hmm'⟩ := hadvances.of_error
    obtain ⟨hzero, hu⟩ := advance_eq_error_iff.mp hadvance
    obtain ⟨-, hu'⟩ := advance_eq_error_iff.mp hadvance'
    rw [Run.turn_of_update_error hzero hu, Run.turn_of_update_error hzero hu']
    exact .error (hr.adds (r.adds_append _ m) (r'.adds_append _ m') hmm' rfl rfl)
  | ok _ n =>
    rw [hadvance] at hadvances
    obtain ⟨⟨⟩, n', hadvance', -, hnn'⟩ := hadvances.of_ok
    obtain ⟨m, hm, hmn'⟩ := h.comesTo_agree interval hnn' hadvance fun hdue =>
      hsucceed.record hlimit hadvance hdue
    have hnone : comesTo 0 k r'.method = .ok () n' := by
      rw [comesTo, hadvance', Outcome.bind_ok, if_neg fun hdue => absurd hdue.1 (Nat.lt_irrefl 0)]
    rw [Run.turn_of_advance hadvance (hcounts.advance hk hadvance), hm,
      Run.turn_of_advance hadvance' (hcounts.advance hk' hadvance'), hnone]
    -- the watcher comes next, in both runs
    have hturns := hr.adds (r.adds_append _ m) (r'.adds_append _ n') hmn' (filterMap_calls_records interval k)
      (filterMap_calls_records 0 k)
    obtain ⟨hreply, hwatched⟩ := h.watch_agree hturns watcher k
    rw [Outcome.mapState_ok, Outcome.mapState_ok, Outcome.bind_ok, Outcome.bind_ok, Run.goOn, Run.goOn, ← hreply]
    split
    · exact .ok rfl hwatched
    · next hgoes =>
      refine hnext _ _ hwatched (hcounts.comesTo hk hm) ?_
      exact hsucceed.tail hm (Bool.not_eq_true _ ▸ hgoes)

/-- The loop comes to the same, with records that succeed and without any. -/
theorem iterate_agree (h : Unobtrusive view change Alike) (hcounts : CountsIterations A)
    (hr : RunsAlike Alike r r') (hk : Iterative.iteration r.method = k)
    (hsucceed : RecordsSucceed interval watcher (k + budget) r.method (k + 1) r.memory) :
    Outcome.Agree Eq (RunsAlike Alike) (r.iterate interval watcher budget) (r'.iterate 0 watcher budget) := by
  have hk' : Iterative.iteration r'.method = k := (h.iteration hr.method).symm.trans hk
  induction budget generalizing r r' k with
  | zero =>
    rw [Run.iterate, Run.iterate, hk, hk']
    exact .ok rfl hr
  | succ budget ih =>
    rw [Run.iterate_eq_turn hcounts hk, Run.iterate_eq_turn hcounts hk']
    rw [← Nat.add_assoc, Nat.add_right_comm] at hsucceed
    refine h.agree_of_turn (k := k + 1) hcounts hr hk (by omega) hsucceed fun r₂ r₂' hr₂ hcount hrest => ?_
    exact ih hr₂ hcount hrest ((h.iteration hr₂.method).symm.trans hcount)

/-- **The interval of a run changes nothing as long as no record fails.** -/
theorem run_agree (h : Unobtrusive view change Alike) (hcounts : CountsIterations A) (hm : Alike m m)
    {memory : κ} (hsucceed : RecordsSucceed interval watcher (Iterative.iteration m + budget) m
      (RunInvariant.firstShown (Iterative.iteration m)) memory) :
    Outcome.Agree Eq (RunsAlike Alike) (run m budget interval watcher memory) (run m budget 0 watcher memory) := by
  have hr : RunsAlike Alike (⟨m, memory, #[]⟩ : Run A κ S) ⟨m, memory, #[]⟩ := ⟨hm, rfl, rfl⟩
  by_cases hzero : Iterative.iteration m = 0
  · rw [run_eq_turn hzero, run_eq_turn hzero]
    rw [hzero] at hsucceed
    exact h.agree_of_turn hcounts hr hzero (Nat.zero_le _) hsucceed fun r₂ r₂' hr₂ hcount hrest =>
      h.iterate_agree hcounts hr₂ hcount hrest
  · rw [run_eq_iterate hzero, run_eq_iterate hzero]
    rw [RunInvariant.firstShown, if_neg hzero] at hsucceed
    exact h.iterate_agree hcounts hr rfl hsucceed

end Unobtrusive

/-! ## Both together -/

/-- What a run ends with: what is seen of the method, what the watcher remembers, and what it was shown. -/
def Run.seen (view : A → B) (r : Run A κ S) : B × κ × List (Vec S × Nat) := (view r.method, r.memory, r.shown)

theorem Unobtrusive.seen_eq {view : A → B} {change : A → C → Outcome A Unit} {Alike : A → A → Prop}
    {r r' : Run A κ S} (h : Unobtrusive view change Alike) (hr : RunsAlike Alike r r') :
    r.seen view = r'.seen view := by
  rw [Run.seen, Run.seen, h.view hr.method, hr.memory, hr.shown]

/-- Nobody sees whether the objective of this method is recorded: a record, made or failed, leaves what is seen
    as it was; sessions with the same calls have the same answers, whatever records are put in between; and runs
    with different intervals end alike, as long as no record fails. -/
structure RecordsUnseen (view : A → B) (change : A → C → Outcome A Unit) (m : A) : Prop where
  record : ∀ m', (Iterative.recordObjective m).state? = some m' → view m' = view m
  session : ∀ entries entries' : List (Entry C),
    entries.filterMap Entry.call? = entries'.filterMap Entry.call? → RecordsLeave change m entries →
    RecordsLeave change m entries' → answers view change m entries = answers view change m entries'
  run : ∀ {κ : Type} (budget interval interval' : Nat) (watcher : Watcher κ S) (memory : κ),
    RecordsSucceed interval watcher (Iterative.iteration m + budget) m
      (RunInvariant.firstShown (Iterative.iteration m)) memory →
    RecordsSucceed interval' watcher (Iterative.iteration m + budget) m
      (RunInvariant.firstShown (Iterative.iteration m)) memory →
    (Splitting.run m budget interval watcher memory).mapState (Run.seen view) =
      (Splitting.run m budget interval' watcher memory).mapState (Run.seen view)

theorem Unobtrusive.recordsUnseen {view : A → B} {change : A → C → Outcome A Unit} {Alike : A → A → Prop} {m : A}
    (h : Unobtrusive view change Alike) (hcounts : CountsIterations A) (hm : Alike m m) :
    RecordsUnseen view change m where
  record m' hm' := h.view (h.extra hm hm')
  session entries entries' hsame hleave hleave' := by
    rw [h.answers_plain hm hleave, h.answers_plain hm hleave', hsame]
  run budget interval interval' watcher memory hsucceed hsucceed' := by
    rw [(h.run_agree hcounts hm hsucceed).mapState_eq fun _ _ => h.seen_eq,
      (h.run_agree hcounts hm hsucceed').mapState_eq fun _ _ => h.seen_eq]

end Splitting
