import Splitting.Proofs.Iteration

/-!
# `Splitting.Proofs.Iteration.Chronicle` — the calls of a run, one by one

A run takes turns. For turn `k` it updates the method and exchanges the iterates, unless `k` is zero; then it
records the objective if the interval divides `k`; and then it shows the solution to the watcher. So what a run
does is told by the methods that it shows, the first of which belongs to turn 0 or to the turn after the last
iteration of an earlier run.

* `CountsIterations` — all that is asked of a method: an update that succeeds counts, and nothing else does;
* `calls`, `Due`, `comesTo` — the calls before a turn, whether it has a record, and the method that they leave;
* `Leads`, `told`, `story` — a sequence of turns, what the watcher is told in them, and all that happens;
* `Watcher.replies`, `Watcher.recalls` — what the watcher says to that, and what it remembers of it;
* `Ending` — the four ways in which a run ends after its turns;
* `Ending.cons`, `iterate_chronicled`, `run_chronicled` — one turn more, the loop, and the whole run;
* `filterMap_story`, `countP_story` — what the turns show, and how many records they have;
* `run_eq_ok` — the numbers that a run shows which succeeds.
-/

namespace Splitting

variable {A κ S : Type}

/-- Updates that succeed raise the number of completed iterations by one, and no other call changes it. -/
structure CountsIterations (A : Type) {S : Type} [Iterative A S] : Prop where
  update : ∀ {m m' : A}, Iterative.update m = .ok () m' → Iterative.iteration m' = Iterative.iteration m + 1
  failed : ∀ {m m' : A} {e : Error}, Iterative.update m = .error e m' →
    Iterative.iteration m' = Iterative.iteration m
  exchange : ∀ m : A, Iterative.iteration (Iterative.exchange m) = Iterative.iteration m
  record : ∀ {m m' : A}, (Iterative.recordObjective m).state? = some m' →
    Iterative.iteration m' = Iterative.iteration m

/-! ## Turns -/

/-- The turns with a record: those that a positive interval divides. -/
def Due (interval k : Nat) : Prop := 0 < interval ∧ k % interval = 0

instance (interval k : Nat) : Decidable (Due interval k) := inferInstanceAs (Decidable (_ ∧ _))

/-- The calls that bring a method to a turn: an update and an exchange, but none to the starting point. -/
def calls (k : Nat) : List (Event S) := if k = 0 then [] else [.update, .exchange]

/-- The record of a turn, if it has one. -/
def records (interval k : Nat) : List (Event S) := if Due interval k then [.objective] else []

section

variable [Iterative A S]

/-- The method after the calls that bring it to a turn. -/
def advance (k : Nat) (m : A) : Outcome A Unit :=
  if k = 0 then .ok () m else (Iterative.update m).bind fun _ m => .ok () (Iterative.exchange m)

/-- The method that a turn shows: after an update and an exchange, and a record if the turn has one. -/
def comesTo (interval k : Nat) (m : A) : Outcome A Unit :=
  (advance k m).bind fun _ m => if Due interval k then Iterative.recordObjective m else .ok () m

/-- All that happens in a turn that shows the method `m`. -/
def turnEvents (interval k : Nat) (m : A) : List (Event S) :=
  calls k ++ records interval k ++ [.watch (Iterative.solution m) k]

/-- All that happens in turns of which the first is `first`. -/
def story (interval : Nat) : Nat → List A → List (Event S)
  | _, [] => []
  | first, m :: turns => turnEvents interval first m ++ story interval (first + 1) turns

/-- What the watcher is told in these turns: each solution with the number of its turn. -/
def told (first : Nat) (turns : List A) : List (Vec S × Nat) := (turns.map Iterative.solution).zipIdx first

/-- The method `m` comes to these turns, one after another. -/
def Leads (interval : Nat) : A → Nat → List A → Prop
  | _, _, [] => True
  | m, first, next :: turns => comesTo interval first m = .ok () next ∧ Leads interval next (first + 1) turns

/-- The way to turn `k` fails: in the update, or in the record after it. The events are those since the last
    turn, with the call that failed as the last of them. -/
inductive FailsWith (interval k : Nat) (m : A) (e : Error) : A → List (Event S) → Prop where
  | update {m' : A} : k ≠ 0 → Iterative.update m = .error e m' → FailsWith interval k m e m' [.update]
  | record {next m' : A} : Due interval k → advance k m = .ok () next →
      Iterative.recordObjective next = .error e m' → FailsWith interval k m e m' (calls k ++ [.objective])

end

/-! ## The watcher -/

namespace Watcher

/-- What the watcher says to a sequence of iterates, one after another. -/
def replies (watcher : Watcher κ S) (memory : κ) : List (Vec S × Nat) → List Bool
  | [] => []
  | p :: rest => (watcher memory p.1 p.2).1 :: watcher.replies (watcher memory p.1 p.2).2 rest

/-- What the watcher remembers after a sequence of iterates. -/
def recalls (watcher : Watcher κ S) (memory : κ) : List (Vec S × Nat) → κ
  | [] => memory
  | p :: rest => watcher.recalls (watcher memory p.1 p.2).2 rest

end Watcher

/-! ## How a run ends -/

variable [Iterative A S]

/-- A run that has gone from `r` through these turns, and then through the events `rest` to the method `m`. -/
structure Tells (interval : Nat) (watcher : Watcher κ S) (first : Nat) (r : Run A κ S) (turns : List A)
    (rest : List (Event S)) (m : A) (r' : Run A κ S) : Prop where
  method : r'.method = m
  memory : r'.memory = watcher.recalls r.memory (told first turns)
  trace : r'.trace.toList = r.trace.toList ++ story interval first turns ++ rest

/-- How a run ends whose turns would go from `first` to `limit`: the watcher stops it; or it has taken all its
    turns; or the way to the next turn fails, or breaks off on lengths that do not fit. -/
inductive Ending (interval : Nat) (watcher : Watcher κ S) (first limit : Nat) (r : Run A κ S) (turns : List A) :
    Outcome (Run A κ S) Nat → Prop where
  | stopped {earlier : List A} {last : A} {r' : Run A κ S} : turns = earlier ++ [last] →
      first + earlier.length ≤ limit →
      watcher.replies r.memory (told first turns) = List.replicate earlier.length false ++ [true] →
      Tells interval watcher first r turns [] last r' →
      Ending interval watcher first limit r turns (.ok (first + earlier.length) r')
  | spent {r' : Run A κ S} : first + turns.length = limit + 1 →
      watcher.replies r.memory (told first turns) = List.replicate turns.length false →
      Tells interval watcher first r turns [] (turns.getLastD r.method) r' →
      Ending interval watcher first limit r turns (.ok limit r')
  | failed {e : Error} {m : A} {rest : List (Event S)} {r' : Run A κ S} : first + turns.length ≤ limit →
      watcher.replies r.memory (told first turns) = List.replicate turns.length false →
      FailsWith interval (first + turns.length) (turns.getLastD r.method) e m rest →
      Tells interval watcher first r turns rest m r' →
      Ending interval watcher first limit r turns (.error e r')
  | brokenOff : first + turns.length ≤ limit →
      watcher.replies r.memory (told first turns) = List.replicate turns.length false →
      comesTo interval (first + turns.length) (turns.getLastD r.method) = .mismatch →
      Ending interval watcher first limit r turns .mismatch

variable {interval k limit first budget : Nat} {watcher : Watcher κ S} {r r₁ r' : Run A κ S} {m m' : A}
  {turns : List A} {rest : List (Event S)} {o : Outcome (Run A κ S) Nat}

theorem Tells.cons (h₁ : Tells interval watcher k r [m] [] m r₁)
    (h : Tells interval watcher (k + 1) r₁ turns rest m' r') :
    Tells interval watcher k r (m :: turns) rest m' r' := by
  refine ⟨h.method, ?_, ?_⟩
  · rw [h.memory, h₁.memory]
    rfl
  · rw [h.trace, h₁.trace]
    simp only [story, List.append_nil, List.append_assoc]

/-- **One turn more.** A run that goes on after its first turn ends as it does from there. -/
theorem Ending.cons (hreply : (watcher r.memory (Iterative.solution m) k).1 = false)
    (h₁ : Tells interval watcher k r [m] [] m r₁) (h : Ending interval watcher (k + 1) limit r₁ turns o) :
    Ending interval watcher k limit r (m :: turns) o := by
  have hmemory : r₁.memory = (watcher r.memory (Iterative.solution m) k).2 := h₁.memory
  have hreplies : watcher.replies r.memory (told k (m :: turns)) =
      false :: watcher.replies r₁.memory (told (k + 1) turns) := by
    rw [hmemory, ← hreply]
    rfl
  have hcount : ∀ {l : List A}, k + (m :: l).length = k + 1 + l.length := by
    intro l
    rw [List.length_cons]
    omega
  cases h with
  | @stopped earlier last r' hturns hlimit hsays htells =>
    rw [← hcount (l := earlier)] at hlimit ⊢
    refine .stopped (by rw [hturns, List.cons_append]) hlimit ?_ (h₁.cons htells)
    rw [hreplies, hsays]
    rfl
  | spent hlimit hsays htells =>
    refine .spent (hcount.trans hlimit) ?_ ?_
    · rw [hreplies, hsays]
      rfl
    · rw [h₁.method] at htells
      rw [List.getLastD_cons]
      exact h₁.cons htells
  | failed hlimit hsays hfails htells =>
    rw [← hcount, h₁.method] at hfails
    refine .failed (Nat.le_trans (Nat.le_of_eq hcount) hlimit) ?_ ?_ (h₁.cons htells)
    · rw [hreplies, hsays]
      rfl
    · rw [List.getLastD_cons]
      exact hfails
  | brokenOff hlimit hsays hbreaks =>
    rw [← hcount, h₁.method] at hbreaks
    refine .brokenOff (Nat.le_trans (Nat.le_of_eq hcount) hlimit) ?_ ?_
    · rw [hreplies, hsays]
      rfl
    · rw [List.getLastD_cons]
      exact hbreaks

/-! ## The loop -/

namespace Run

/-- The part of a turn before the watcher's: a round of the loop, or for the starting point a record only. -/
def turn (interval k : Nat) (r : Run A κ S) : Outcome (Run A κ S) Unit :=
  if k = 0 then r.recordIfDue interval else r.round interval

/-- After the calls of a turn, its record remains. -/
theorem turn_of_advance (h : advance k r.method = .ok () m) (hm : Iterative.iteration m = k) :
    r.turn interval k = (comesTo interval k r.method).mapState fun m =>
      ⟨m, r.memory, r.trace ++ (calls k ++ records interval k).toArray⟩ := by
  have hrecord : r.turn interval k = recordIfDue interval ⟨m, r.memory, r.trace ++ (calls k).toArray⟩ := by
    unfold advance at h
    by_cases hk : k = 0
    · rw [if_pos hk] at h
      cases h
      simp only [turn, if_pos hk, calls, Array.append_empty]
    · rw [if_neg hk] at h
      obtain ⟨⟨⟩, n, hu, h⟩ := Outcome.bind_eq_ok_iff.mp h
      cases h
      obtain ⟨method, memory, trace⟩ := r
      rw [turn, if_neg hk, round_of_update hu, Array.push_eq_append, Array.push_eq_append, Array.append_assoc]
      simp only [calls, if_neg hk]
      rfl
  rw [hrecord, recordIfDue, comesTo, h, Outcome.bind_ok]
  simp only [hm]
  by_cases hdue : Due interval k
  · have htrace : (r.trace ++ (calls k).toArray).push .objective =
        r.trace ++ (calls k ++ [Event.objective]).toArray := by simp
    rw [if_pos hdue, if_pos (show 0 < interval ∧ k % interval = 0 from hdue), recordObjective, htrace, records,
      if_pos hdue]
  · rw [if_neg hdue, if_neg (show ¬(0 < interval ∧ k % interval = 0) from hdue), records, if_neg hdue,
      List.append_nil]
    rfl

/-- A turn that fails before its record fails in the update. -/
theorem turn_of_update_error {e : Error} (hk : k ≠ 0) (h : Iterative.update r.method = .error e m) :
    r.turn interval k = .error e ⟨m, r.memory, r.trace ++ [Event.update].toArray⟩ := by
  obtain ⟨method, memory, trace⟩ := r
  rw [turn, if_neg hk, round, update, h, Outcome.mapState_error, Outcome.bind_error, Array.push_eq_append]

theorem turn_of_update_mismatch (hk : k ≠ 0) (h : Iterative.update r.method = .mismatch) :
    r.turn interval k = .mismatch := by
  obtain ⟨method, memory, trace⟩ := r
  rw [turn, if_neg hk, round, update, h]
  rfl

/-- A run that has gone on from `r` by these events, to the method `m`. -/
structure Adds (r : Run A κ S) (rest : List (Event S)) (m : A) (r' : Run A κ S) : Prop where
  method : r'.method = m
  memory : r'.memory = r.memory
  trace : r'.trace.toList = r.trace.toList ++ rest

omit [Iterative A S] in
theorem adds_append (r : Run A κ S) (rest : List (Event S)) (m : A) :
    r.Adds rest m ⟨m, r.memory, r.trace ++ rest.toArray⟩ :=
  ⟨rfl, rfl, by simp⟩

/-- The watcher sees the method that a turn has come to. -/
theorem Adds.watch (watcher : Watcher κ S) (h : r.Adds (calls k ++ records interval k) m r₁) :
    Tells interval watcher k r [m] [] m (r₁.watch watcher k).2 ∧
      (r₁.watch watcher k).1 = (watcher r.memory (Iterative.solution m) k).1 := by
  obtain ⟨method, memory, trace⟩ := r₁
  obtain ⟨rfl, rfl, htrace⟩ := h
  refine ⟨⟨rfl, rfl, ?_⟩, rfl⟩
  dsimp only at htrace
  simp only [Run.watch, Array.toList_push, htrace, story, turnEvents, List.append_assoc, List.append_nil]

end Run

/-- The calls before a turn fail in the update. -/
theorem advance_eq_error_iff {e : Error} :
    advance k m = .error e m' ↔ k ≠ 0 ∧ Iterative.update m = .error e m' := by
  unfold advance
  by_cases hk : k = 0
  · simp [hk]
  · simp [hk, Outcome.bind_eq_error_iff]

theorem advance_eq_mismatch_iff : advance k m = .mismatch ↔ k ≠ 0 ∧ Iterative.update m = .mismatch := by
  unfold advance
  by_cases hk : k = 0
  · simp [hk]
  · rw [if_neg hk]
    cases Iterative.update m <;> simp [hk]

/-- A method that counts has completed `k` iterations in turn `k`. -/
theorem CountsIterations.advance (h : CountsIterations A) (hm : Iterative.iteration m = k - 1)
    (hadvance : Splitting.advance k m = .ok () m') : Iterative.iteration m' = k := by
  unfold Splitting.advance at hadvance
  by_cases hk : k = 0
  · rw [if_pos hk] at hadvance
    cases hadvance
    omega
  · rw [if_neg hk] at hadvance
    obtain ⟨⟨⟩, n, hu, hexchange⟩ := Outcome.bind_eq_ok_iff.mp hadvance
    cases hexchange
    rw [h.exchange, h.update hu]
    omega

theorem CountsIterations.comesTo (h : CountsIterations A) (hm : Iterative.iteration m = k - 1)
    (hturn : Splitting.comesTo interval k m = .ok () m') : Iterative.iteration m' = k := by
  obtain ⟨⟨⟩, n, hadvance, hrecord⟩ := Outcome.bind_eq_ok_iff.mp hturn
  have hn := h.advance hm hadvance
  by_cases hdue : Due interval k
  · rw [if_pos hdue] at hrecord
    exact (h.record (Outcome.state?_eq_some_iff.mpr (Or.inl ⟨(), hrecord⟩))).trans hn
  · rw [if_neg hdue] at hrecord
    cases hrecord
    exact hn

namespace Run

/-- The turn of a run is a turn of its method: it comes to a method with `k` completed iterations, or the way to it
    fails or breaks off. -/
theorem turn_cases (h : CountsIterations A) (hr : Iterative.iteration r.method = k - 1) :
    (∃ m r₁, comesTo interval k r.method = .ok () m ∧ Iterative.iteration m = k ∧ r.turn interval k = .ok () r₁ ∧
      r.Adds (calls k ++ records interval k) m r₁) ∨
    (∃ e m rest r₁, FailsWith interval k r.method e m rest ∧ r.turn interval k = .error e r₁ ∧ r.Adds rest m r₁) ∨
    comesTo interval k r.method = .mismatch ∧ r.turn interval k = .mismatch := by
  cases hadvance : advance k r.method with
  | error e m =>
    obtain ⟨hk, hu⟩ := advance_eq_error_iff.mp hadvance
    exact Or.inr (Or.inl ⟨e, m, _, _, .update hk hu, turn_of_update_error hk hu, r.adds_append _ m⟩)
  | mismatch =>
    obtain ⟨hk, hu⟩ := advance_eq_mismatch_iff.mp hadvance
    exact Or.inr (Or.inr ⟨by rw [comesTo, hadvance]; rfl, turn_of_update_mismatch hk hu⟩)
  | ok _ n =>
    rw [turn_of_advance hadvance (h.advance hr hadvance)]
    cases hturn : comesTo interval k r.method with
    | ok _ m => exact Or.inl ⟨m, _, rfl, h.comesTo hr hturn, rfl, r.adds_append _ m⟩
    | mismatch => exact Or.inr (Or.inr ⟨rfl, rfl⟩)
    | error e m =>
      -- what has failed after the calls of the turn is its record
      rw [comesTo, hadvance, Outcome.bind_ok] at hturn
      by_cases hdue : Due interval k
      · rw [if_pos hdue] at hturn
        refine Or.inr (Or.inl ⟨e, m, _, _, .record hdue hadvance hturn, rfl, ?_⟩)
        rw [records, if_pos hdue]
        exact r.adds_append _ m
      · rw [if_neg hdue] at hturn
        cases hturn

/-- The watcher's part of turn `k`, and the rest of the run if it lets the run go on. -/
def goOn (watcher : Watcher κ S) (k : Nat) (rest : Run A κ S → Outcome (Run A κ S) Nat) (r : Run A κ S) :
    Outcome (Run A κ S) Nat :=
  if (r.watch watcher k).1 then .ok k (r.watch watcher k).2 else rest (r.watch watcher k).2

/-- In its turn a run shows a method that has completed as many iterations as the number of the turn says. -/
theorem iteration_of_turn (h : CountsIterations A) (hr : Iterative.iteration r.method = k - 1)
    (hturn : r.turn interval k = .ok () r₁) : Iterative.iteration r₁.method = k := by
  rcases turn_cases h hr with
    ⟨m, r₂, -, hcount, hok, hadds⟩ | ⟨e, m, rest, r₂, -, herror, -⟩ | ⟨-, hnone⟩
  · rw [hok] at hturn
    cases hturn
    rw [hadds.method]
    exact hcount
  · rw [herror] at hturn
    cases hturn
  · rw [hnone] at hturn
    cases hturn

/-- The loop goes on turn by turn. -/
theorem iterate_eq_turn (h : CountsIterations A) (hr : Iterative.iteration r.method = k) :
    r.iterate interval watcher (budget + 1) =
      (r.turn interval (k + 1)).bind fun _ r => r.goOn watcher (k + 1) (iterate interval watcher budget) := by
  have hround : r.round interval = r.turn interval (k + 1) := rfl
  rw [iterate_succ, hround]
  cases hturn : r.turn interval (k + 1) with
  | error e r₁ => rfl
  | mismatch => rfl
  | ok _ r₁ =>
    have hcount : Iterative.iteration r₁.method = k + 1 := iteration_of_turn h hr hturn
    have hmethod := (r₁.watch_shown watcher (k + 1)).1
    rw [Outcome.bind_ok, Outcome.bind_ok, goOn, hcount, hmethod, hcount]

end Run

/-- A run of a method that has not moved yet begins with turn 0. -/
theorem run_eq_turn {memory : κ} (hm : Iterative.iteration m = 0) : run m budget interval watcher memory =
    (Run.turn interval 0 ⟨m, memory, #[]⟩).bind fun _ r =>
      r.goOn watcher 0 (Run.iterate interval watcher budget) :=
  RunInvariant.run_of_start hm

/-- A run of a method that has moved is the loop. -/
theorem run_eq_iterate {memory : κ} (hm : Iterative.iteration m ≠ 0) : run m budget interval watcher memory =
    Run.iterate interval watcher budget ⟨m, memory, #[]⟩ := by
  rw [run, if_neg hm]

/-- A run from `r` goes through turns, from `first` up to `limit`, and then ends. -/
def Chronicled (interval : Nat) (watcher : Watcher κ S) (first limit : Nat) (r : Run A κ S)
    (o : Outcome (Run A κ S) Nat) : Prop :=
  ∃ turns, Leads interval r.method first turns ∧ Ending interval watcher first limit r turns o

/-- **A turn, and what comes after it.** -/
theorem Chronicled.of_turn (h : CountsIterations A) (hr : Iterative.iteration r.method = k - 1) (hk : k ≤ limit)
    {next : Run A κ S → Outcome (Run A κ S) Nat}
    (hnext : ∀ r₂, Iterative.iteration r₂.method = k → Chronicled interval watcher (k + 1) limit r₂ (next r₂)) :
    Chronicled interval watcher k limit r ((r.turn interval k).bind fun _ r => r.goOn watcher k next) := by
  rcases Run.turn_cases h hr with
    ⟨m, r₁, hm, hcount, hturn, hadds⟩ | ⟨e, m, rest, r₁, hfails, hturn, hadds⟩ | ⟨hm, hturn⟩
  · rw [hturn, Outcome.bind_ok, Run.goOn]
    obtain ⟨htells, hreply⟩ := hadds.watch watcher
    by_cases hstop : (r₁.watch watcher k).1 = true
    · rw [if_pos hstop]
      refine ⟨[m], ⟨hm, trivial⟩, .stopped (List.nil_append [m]).symm hk ?_ htells⟩
      rw [hstop] at hreply
      exact congrArg (fun reply => [reply]) hreply.symm
    · rw [if_neg hstop]
      rw [Bool.not_eq_true] at hstop
      obtain ⟨turns, hleads, hends⟩ := hnext (r₁.watch watcher k).2 (by rw [htells.method]; exact hcount)
      rw [htells.method] at hleads
      exact ⟨m :: turns, ⟨hm, hleads⟩, hends.cons (hreply.symm.trans hstop) htells⟩
  · rw [hturn, Outcome.bind_error]
    exact ⟨[], trivial, .failed hk rfl hfails ⟨hadds.method, hadds.memory, by simpa [story] using hadds.trace⟩⟩
  · rw [hturn, Outcome.bind_mismatch]
    exact ⟨[], trivial, .brokenOff hk rfl hm⟩

/-- **The loop goes through turns,** as many as its budget allows. -/
theorem iterate_chronicled (h : CountsIterations A) (hr : Iterative.iteration r.method = k) :
    Chronicled interval watcher (k + 1) (k + budget) r (r.iterate interval watcher budget) := by
  induction budget generalizing r k with
  | zero =>
    rw [Run.iterate, hr]
    exact ⟨[], trivial, .spent rfl rfl ⟨rfl, rfl, by simp [story]⟩⟩
  | succ budget ih =>
    rw [Run.iterate_eq_turn h hr, ← Nat.add_assoc, Nat.add_right_comm]
    exact .of_turn h hr (by omega) fun r₂ hcount => ih hcount

/-- **A run goes through turns.** The first of them shows the starting point, if the method has not moved yet. -/
theorem run_chronicled (h : CountsIterations A) (m : A) (budget interval : Nat) (watcher : Watcher κ S)
    (memory : κ) :
    Chronicled interval watcher (RunInvariant.firstShown (Iterative.iteration m)) (Iterative.iteration m + budget)
      ⟨m, memory, #[]⟩ (run m budget interval watcher memory) := by
  by_cases hm : Iterative.iteration m = 0
  · rw [run_eq_turn hm, hm]
    exact .of_turn h hm (Nat.zero_le _) fun r₂ hcount => iterate_chronicled h hcount
  · rw [run_eq_iterate hm, RunInvariant.firstShown, if_neg hm]
    exact iterate_chronicled h rfl

/-! ## What the turns add up to -/

/-- Whether an event is a record of the objective. -/
def Event.isObjective : Event S → Bool
  | .objective => true
  | _ => false

/-- The records that a run has made, or tried to make. -/
def Run.recordCount (r : Run A κ S) : Nat := r.trace.toList.countP Event.isObjective

omit [Iterative A S] in
theorem countP_calls (k : Nat) : (calls k : List (Event S)).countP Event.isObjective = 0 := by
  unfold calls
  by_cases hk : k = 0 <;> simp [hk, Event.isObjective]

/-- A turn has one record if it is due, and none if it is not. -/
theorem countP_turnEvents : (turnEvents interval k m).countP Event.isObjective =
    if Due interval k then 1 else 0 := by
  rw [turnEvents, List.countP_append, List.countP_append, countP_calls, records]
  by_cases hdue : Due interval k <;> simp [hdue, Event.isObjective]

/-- Without an interval there is no record. -/
theorem countP_story_zero : (story 0 first turns).countP Event.isObjective = 0 := by
  induction turns generalizing first with
  | nil => rfl
  | cons m turns ih => simp [story, List.countP_append, countP_turnEvents, Due, ih]

/-- The turns after turn `k` have one record for each multiple of the interval. -/
theorem countP_story_succ (turns : List A) (hinterval : 0 < interval) :
    (story interval (k + 1) turns).countP Event.isObjective + k / interval = (k + turns.length) / interval := by
  induction turns generalizing k with
  | nil => simp [story]
  | cons m turns ih =>
    have hdue : (if Due interval (k + 1) then 1 else 0) = if interval ∣ k + 1 then 1 else 0 := by
      simp only [Due, hinterval, true_and, Nat.dvd_iff_mod_eq_zero]
    calc (story interval (k + 1) (m :: turns)).countP Event.isObjective + k / interval
        = (story interval (k + 1 + 1) turns).countP Event.isObjective + (k + 1) / interval := by
          rw [story, List.countP_append, countP_turnEvents, hdue, Nat.succ_div]
          omega
      _ = (k + (m :: turns).length) / interval := by
          rw [ih, List.length_cons]
          congr 1
          omega

/-- The calls of a turn before the watcher's show nothing. -/
theorem filterMap_calls_records (interval k : Nat) :
    (calls k ++ records interval k : List (Event S)).filterMap Event.shown? = [] := by
  unfold calls records
  by_cases hk : k = 0 <;> by_cases hdue : Due interval k <;> simp [hk, hdue, Event.shown?]

/-- The watcher is told of the turns, and of nothing else. -/
theorem filterMap_story : (story interval first turns).filterMap Event.shown? = told first turns := by
  induction turns generalizing first with
  | nil => rfl
  | cons m turns ih =>
    rw [story, turnEvents, List.filterMap_append, List.filterMap_append, filterMap_calls_records, ih]
    rfl

theorem map_snd_told : (told first turns).map Prod.snd = List.range' first turns.length := by
  rw [told, List.zipIdx_map_snd, List.length_map]

/-- What has happened on the way to a turn that fails shows nothing, and has no record without an interval. -/
theorem FailsWith.quiet {e : Error} (h : FailsWith interval k m e m' rest) :
    rest.filterMap Event.shown? = [] ∧ (interval = 0 → rest.countP Event.isObjective = 0) := by
  cases h with
  | update hk hu => exact ⟨rfl, fun _ => rfl⟩
  | record hdue hadvance hrecord =>
    have hquiet := filterMap_calls_records (S := S) interval k
    rw [records, if_pos hdue] at hquiet
    exact ⟨hquiet, fun hzero => absurd hdue.1 (by omega)⟩

theorem Tells.shown (h : Tells interval watcher first r turns rest m r')
    (hrest : rest.filterMap Event.shown? = []) (hr : r.shown = []) : r'.shown = told first turns := by
  rw [Run.shown, h.trace, List.filterMap_append, List.filterMap_append, filterMap_story, hrest,
    List.append_nil]
  exact congrArg (· ++ told first turns) hr

/-- A run that leaves a state has told the watcher of its turns. -/
theorem Ending.tells (h : Ending interval watcher first limit r turns o) (hr : o.state? = some r') :
    ∃ m rest, Tells interval watcher first r turns rest m r' ∧ rest.filterMap Event.shown? = [] ∧
      (interval = 0 → rest.countP Event.isObjective = 0) := by
  cases h with
  | stopped _ _ _ htells =>
    cases hr
    exact ⟨_, [], htells, rfl, fun _ => rfl⟩
  | spent _ _ htells =>
    cases hr
    exact ⟨_, [], htells, rfl, fun _ => rfl⟩
  | failed _ _ hfails htells =>
    cases hr
    exact ⟨_, _, htells, hfails.quiet⟩
  | brokenOff => cases hr

/-- A run that succeeds ends with the number of its last turn. -/
theorem Ending.value {e : Nat} (h : Ending interval watcher first limit r turns (.ok e r')) :
    e + 1 = first + turns.length ∧ Tells interval watcher first r turns [] (turns.getLastD r.method) r' := by
  cases h with
  | @stopped earlier last _ hturns _ _ htells =>
    subst hturns
    refine ⟨?_, by rw [List.getLastD_concat]; exact htells⟩
    rw [List.length_append, List.length_singleton]
    omega
  | spent hlimit _ htells => exact ⟨hlimit.symm, htells⟩

/-- The last turn shows a method that has completed as many iterations as the number of the turn says. -/
theorem Leads.iteration (h : CountsIterations A) (hm : Iterative.iteration m = first - 1)
    (hleads : Leads interval m first turns) :
    Iterative.iteration (turns.getLastD m) = first + turns.length - 1 := by
  induction turns generalizing m first with
  | nil => exact hm
  | cons next turns ih =>
    have hnext : Iterative.iteration next = first + 1 - 1 := h.comesTo hm hleads.1
    rw [List.getLastD_cons, ih hnext hleads.2, List.length_cons]
    omega

/-- The first turn of a run is turn 0 or the turn after the last iteration. -/
theorem iteration_eq_firstShown_sub_one (k : Nat) :
    k = RunInvariant.firstShown k - 1 ∧ RunInvariant.firstShown k ≤ k + 1 := by
  unfold RunInvariant.firstShown
  split <;> omega

/-- **The numbers that a run shows.** They are consecutive, and the last is the value of the run, which is then the
    number of completed iterations. -/
theorem run_eq_ok (h : CountsIterations A) {memory : κ} {e : Nat}
    (hrun : run m budget interval watcher memory = .ok e r) : Iterative.iteration r.method = e ∧
      ∃ n, e + 1 = RunInvariant.firstShown (Iterative.iteration m) + n ∧
        r.shown.map Prod.snd = List.range' (RunInvariant.firstShown (Iterative.iteration m)) n := by
  obtain ⟨turns, hleads, hends⟩ := run_chronicled h m budget interval watcher memory
  rw [hrun] at hends
  obtain ⟨hlength, htells⟩ := hends.value
  refine ⟨?_, turns.length, hlength, ?_⟩
  · have hfirst := (iteration_eq_firstShown_sub_one (Iterative.iteration m)).1
    rw [htells.method, hleads.iteration h hfirst]
    omega
  · rw [htells.shown rfl rfl, map_snd_told]

/-- The records of a run of `n` turns after `s` iterations. -/
theorem countP_story {s e : Nat} (hinterval : 0 < interval)
    (hlength : e + 1 = RunInvariant.firstShown s + turns.length) :
    (story interval (RunInvariant.firstShown s) turns).countP Event.isObjective =
      e / interval - s / interval + if s = 0 then 1 else 0 := by
  by_cases hs : s = 0
  · subst hs
    have hfirst : RunInvariant.firstShown 0 = 0 := rfl
    rw [hfirst] at hlength ⊢
    cases turns with
    | nil => simp at hlength
    | cons m turns =>
      -- turn zero has a record; the others are those after it
      have hrest := countP_story_succ (k := 0) turns hinterval
      have hzero : Due interval 0 := ⟨hinterval, Nat.zero_mod _⟩
      rw [List.length_cons] at hlength
      have he : e = 0 + turns.length := by omega
      rw [story, List.countP_append, countP_turnEvents, if_pos hzero, he, ← hrest, if_pos rfl]
      omega
  · rw [RunInvariant.firstShown, if_neg hs] at hlength ⊢
    have hall := countP_story_succ (k := s) turns hinterval
    have he : e = s + turns.length := by omega
    rw [if_neg hs, he, ← hall]
    omega

end Splitting
