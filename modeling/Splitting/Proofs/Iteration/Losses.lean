import Splitting.Proofs.Iteration.Records

/-!
# `Splitting.Proofs.Iteration.Losses` — what runs record

A record adds one loss to the method, and no other call adds any. So a run adds one loss for each turn with a record,
in the order of the turns. Whether the starting point has a turn is asked of the method alone, which has moved or has
not: the runs of one method show it once for every run that begins before the first iteration.

* `KeepsLosses`, `Logs` — methods with a list of losses, and what is known of each loss;
* `dueLosses` — the losses of turns;
* `Logs.run`, `Logs.runsEvery` — the losses of a run, and of runs with one interval after one another;
* `filter_due_range'` — the turns with a record are the multiples of the interval;
* `orbit?`, `LossHistory`, `Unobtrusive.lossHistory` — the losses of a method that does not notice its records.
-/

namespace Splitting

variable {A B C L κ S : Type} [Iterative A S]

/-! ## Methods with losses -/

/-- A record that succeeds adds a loss to the list. No other call changes the list. -/
structure KeepsLosses (losses : A → List L) : Prop where
  update : ∀ {m m' : A}, (Iterative.update m).state? = some m' → losses m' = losses m
  exchange : ∀ m : A, losses (Iterative.exchange m) = losses m
  recorded : ∀ {m m' : A}, Iterative.recordObjective m = .ok () m' → ∃ v, losses m' = losses m ++ [v]
  failed : ∀ {m m' : A} {e : Error}, Iterative.recordObjective m = .error e m' → losses m' = losses m

/-- `At k` holds of the method in turn `k`, and a record adds `loss? k` there. -/
structure Logs (losses : A → List L) (At : Nat → A → Prop) (loss? : Nat → Option L) : Prop where
  keeps : KeepsLosses losses
  moved : ∀ {k : Nat} {m m' : A}, At k m → Iterative.update m = .ok () m' → At (k + 1) (Iterative.exchange m')
  recorded : ∀ {k : Nat} {m m' : A}, At k m → Iterative.recordObjective m = .ok () m' →
    At k m' ∧ ∃ v, loss? k = some v ∧ losses m' = losses m ++ [v]

/-- The losses of those of these turns that have a record. -/
def dueLosses (interval : Nat) (loss? : Nat → Option L) (numbers : List Nat) : List (Option L) :=
  (numbers.filter fun k => Due interval k).map loss?

theorem dueLosses_append (interval : Nat) (loss? : Nat → Option L) (before after : List Nat) :
    dueLosses interval loss? (before ++ after) =
      dueLosses interval loss? before ++ dueLosses interval loss? after := by
  rw [dueLosses, List.filter_append, List.map_append]
  rfl

/-- Of each method that counts its iterations it is known how many losses it has. -/
theorem KeepsLosses.logs {losses : A → List L} (h : KeepsLosses losses) (hcounts : CountsIterations A) :
    Logs (fun m => (losses m).map fun _ => ()) (fun k m => Iterative.iteration m = k) fun _ => some () where
  keeps := {
    update := fun hm => congrArg _ (h.update hm)
    exchange := fun m => congrArg _ (h.exchange m)
    recorded := fun hm => by
      obtain ⟨v, hv⟩ := h.recorded hm
      exact ⟨(), by rw [hv, List.map_append]; rfl⟩
    failed := fun hm => congrArg _ (h.failed hm) }
  moved := by
    intro k m m' hk hu
    rw [hcounts.exchange, hcounts.update hu, hk]
  recorded := by
    intro k m m' hk ho
    obtain ⟨v, hv⟩ := h.recorded ho
    refine ⟨(hcounts.record (by rw [ho]; rfl)).trans hk, (), rfl, ?_⟩
    rw [hv, List.map_append]
    rfl

/-! ## The losses of a run -/

namespace Logs

variable {losses : A → List L} {At : Nat → A → Prop} {loss? : Nat → Option L} {interval first k : Nat} {m m' : A}
  {turns : List A}

theorem advance (h : Logs losses At loss?) (hm : At (k - 1) m) (hadvance : Splitting.advance k m = .ok () m') :
    At k m' ∧ losses m' = losses m := by
  unfold Splitting.advance at hadvance
  by_cases hk : k = 0
  · rw [if_pos hk] at hadvance
    cases hadvance
    subst hk
    exact ⟨hm, rfl⟩
  · rw [if_neg hk] at hadvance
    obtain ⟨⟨⟩, n, hu, hexchange⟩ := Outcome.bind_eq_ok_iff.mp hadvance
    cases hexchange
    have hcount : k - 1 + 1 = k := by omega
    refine ⟨hcount ▸ h.moved hm hu, ?_⟩
    rw [h.keeps.exchange, h.keeps.update (by rw [hu]; rfl)]

/-- A turn adds its loss, if it has a record. -/
theorem comesTo (h : Logs losses At loss?) (hm : At (k - 1) m)
    (hturn : Splitting.comesTo interval k m = .ok () m') : At k m' ∧
      (losses m').map some = (losses m).map some ++ dueLosses interval loss? [k] := by
  obtain ⟨⟨⟩, n, hadvance, hrecord⟩ := Outcome.bind_eq_ok_iff.mp hturn
  obtain ⟨hn, hsame⟩ := h.advance hm hadvance
  by_cases hdue : Due interval k
  · rw [if_pos hdue] at hrecord
    obtain ⟨hm', v, hv, hlosses⟩ := h.recorded hn hrecord
    refine ⟨hm', ?_⟩
    simp [dueLosses, hdue, hv, hlosses, hsame]
  · rw [if_neg hdue] at hrecord
    cases hrecord
    refine ⟨hn, ?_⟩
    simp [dueLosses, hdue, hsame]

/-- **Turns add their losses in order.** -/
theorem leads (h : Logs losses At loss?) (hm : At (first - 1) m) (hleads : Leads interval m first turns) :
    At (first + turns.length - 1) (turns.getLastD m) ∧
      (losses (turns.getLastD m)).map some =
        (losses m).map some ++ dueLosses interval loss? (List.range' first turns.length) ∧
      ∀ p ∈ told first turns, ∃ n, At p.2 n ∧ p.1 = Iterative.solution n := by
  induction turns generalizing m first with
  | nil => exact ⟨hm, (List.append_nil _).symm, nofun⟩
  | cons next turns ih =>
    obtain ⟨hnext, hlosses⟩ := h.comesTo hm hleads.1
    have hbefore : At (first + 1 - 1) next := hnext
    obtain ⟨hlast, hrest, hshown⟩ := ih hbefore hleads.2
    have hcount : first + (next :: turns).length - 1 = first + 1 + turns.length - 1 := by
      rw [List.length_cons]
      omega
    refine ⟨?_, ?_, ?_⟩
    · rw [List.getLastD_cons, hcount]
      exact hlast
    · rw [List.getLastD_cons, hrest, hlosses, List.length_cons, List.range'_succ, List.append_assoc,
        ← dueLosses_append, List.singleton_append]
    · intro p hp
      rcases List.mem_cons.mp hp with rfl | hp
      · exact ⟨next, hnext, rfl⟩
      · exact hshown p hp

/-- The way to a turn that fails adds none. -/
theorem failsWith (h : Logs losses At loss?) {e : Error} {rest : List (Event S)} (hm : At (k - 1) m)
    (hfails : FailsWith interval k m e m' rest) : losses m' = losses m := by
  cases hfails with
  | update hk hu => exact h.keeps.update (by rw [hu]; rfl)
  | record hdue hadvance hrecord => exact (h.keeps.failed hrecord).trans (h.advance hm hadvance).2

/-- **A run adds the losses of its turns,** those that its watcher was shown. -/
theorem run (h : Logs losses At loss?) (hcounts : CountsIterations A) (hm : At (Iterative.iteration m) m)
    {budget : Nat} {watcher : Watcher κ S} {memory : κ} {r : Run A κ S}
    (hr : (Splitting.run m budget interval watcher memory).state? = some r) :
    (losses r.method).map some = (losses m).map some ++ dueLosses interval loss? (r.shown.map Prod.snd) ∧
      (∀ p ∈ r.shown, ∃ n, At p.2 n ∧ p.1 = Iterative.solution n) ∧
      ∀ e, Splitting.run m budget interval watcher memory = .ok e r → At e r.method := by
  obtain ⟨turns, hleads, hends⟩ := run_chronicled hcounts m budget interval watcher memory
  have hfirst := (iteration_eq_firstShown_sub_one (Iterative.iteration m)).1
  obtain ⟨hlast, hlosses, hshows⟩ := h.leads (hfirst ▸ hm) hleads
  obtain ⟨m', rest, htells, hquiet, -⟩ := hends.tells hr
  have hshown := htells.shown hquiet rfl
  rw [hshown, map_snd_told, ← hlosses]
  refine ⟨?_, hshows, ?_⟩
  · -- after its last turn the run adds nothing, also if it goes on to a failure
    generalize Splitting.run m budget interval watcher memory = o at hends hr
    cases hends with
    | stopped hturns _ _ htells =>
      cases hr
      rw [htells.method, hturns, List.getLastD_concat]
    | spent _ _ htells =>
      cases hr
      rw [htells.method]
    | failed _ _ hfails htells =>
      cases hr
      rw [htells.method, h.failsWith hlast hfails]
    | brokenOff => cases hr
  · intro e he
    rw [he] at hends
    obtain ⟨hlength, htells⟩ := hends.value
    rw [← hlength, Nat.add_sub_cancel] at hlast
    rw [htells.method]
    exact hlast

end Logs

/-! ## Runs with one interval -/

/-- Runs of one method with one interval, one after another and none of them failing: the solutions that their
    watchers were shown, and the method after them. -/
inductive RunsEvery (interval : Nat) (start : A) : List (Vec S × Nat) → A → Prop where
  | none : RunsEvery interval start [] start
  | run {κ : Type} {shown : List (Vec S × Nat)} {m : A} {budget e : Nat} {watcher : Watcher κ S} {memory : κ}
      {r : Run A κ S} : RunsEvery interval start shown m →
      run m budget interval watcher memory = .ok e r → RunsEvery interval start (shown ++ r.shown) r.method

/-- How often the watchers were shown the starting point. -/
def looks (shown : List (Vec S × Nat)) : Nat := (shown.map Prod.snd).count 0

theorem range'_one_append {k e : Nat} (hk : k ≤ e) :
    List.range' 1 k ++ List.range' (k + 1) (e - k) = List.range' 1 e := by
  rw [Nat.add_comm k 1, List.range'_append_1, Nat.add_sub_cancel' hk]

theorem count_zero_range' {first n : Nat} (hfirst : 0 < first) : (List.range' first n).count 0 = 0 := by
  refine List.count_eq_zero.mpr fun hmem => ?_
  obtain ⟨i, -, hzero⟩ := List.mem_range'.mp hmem
  omega

/-- A run that begins before the first iteration shows the starting point, and then each iterate. -/
theorem shown_of_start (hcounts : CountsIterations A) {m : A} {budget interval e : Nat} {watcher : Watcher κ S}
    {memory : κ} {r : Run A κ S} (hm : Iterative.iteration m = 0)
    (hrun : run m budget interval watcher memory = .ok e r) : r.shown.map Prod.snd = 0 :: List.range' 1 e := by
  obtain ⟨-, n, hlength, hnumbers⟩ := run_eq_ok hcounts hrun
  rw [hm] at hlength hnumbers
  obtain rfl : n = e + 1 := (hlength.trans (Nat.zero_add n)).symm
  exact hnumbers.trans List.range'_succ

/-- The runs show the starting point any number of times, and after that each iterate once. -/
theorem RunsEvery.numbers (hcounts : CountsIterations A) {interval : Nat} {start m : A}
    {shown : List (Vec S × Nat)} (hstart : Iterative.iteration start = 0)
    (hruns : RunsEvery interval start shown m) :
    shown.map Prod.snd = List.replicate (looks shown) 0 ++ List.range' 1 (Iterative.iteration m) := by
  induction hruns with
  | none => rw [hstart]; rfl
  | @run κ shown m budget e watcher memory r _ hrun ih =>
    obtain ⟨hcount, n, hlength, hnumbers⟩ := run_eq_ok hcounts hrun
    rw [looks, List.map_append, List.count_append, ← looks, hcount, ih]
    by_cases hm : Iterative.iteration m = 0
    · -- the method had not moved, and the starting point is shown once more
      rw [hm, shown_of_start hcounts hm hrun, List.count_cons_self, count_zero_range' Nat.one_pos,
        List.replicate_succ', List.range'_zero, List.append_nil, List.append_assoc, List.singleton_append]
    · rw [RunInvariant.firstShown, if_neg hm] at hlength hnumbers
      have hn : n = e - Iterative.iteration m := by omega
      have hgrows : Iterative.iteration m ≤ e := by omega
      rw [hnumbers, hn, count_zero_range' (Nat.succ_pos _), Nat.add_zero (looks shown), List.append_assoc,
        range'_one_append hgrows]

/-- Of several runs the first shows the starting point. -/
theorem RunsEvery.looks_pos (hcounts : CountsIterations A) {interval : Nat} {start m : A}
    {shown : List (Vec S × Nat)} (hstart : Iterative.iteration start = 0)
    (hruns : RunsEvery interval start shown m) (hshown : shown ≠ []) : 0 < looks shown := by
  induction hruns with
  | none => exact absurd rfl hshown
  | @run κ shown m budget e watcher memory r hruns hrun ih =>
    rw [looks, List.map_append, List.count_append, ← looks]
    by_cases hfirst : shown = []
    · subst hfirst
      have hm : Iterative.iteration m = 0 := by
        have hnone := congrArg List.length (hruns.numbers hcounts hstart)
        rw [List.length_append, List.length_range'] at hnone
        simp only [List.map_nil, List.length_nil] at hnone
        omega
      rw [shown_of_start hcounts hm hrun, List.count_cons_self]
      omega
    · exact Nat.lt_of_lt_of_le (ih hfirst) (Nat.le_add_right _ _)

/-- **The turns with a record** after the start are the multiples of the interval. -/
theorem filter_due_range' {interval : Nat} (hinterval : 0 < interval) (e : Nat) :
    ((List.range' 1 e).filter fun k => Due interval k) =
      (List.range (e / interval)).map fun j => (j + 1) * interval := by
  induction e with
  | zero => simp
  | succ e ih =>
    have hdue : Due interval (1 + e) ↔ interval ∣ e + 1 := by
      rw [Due, Nat.dvd_iff_mod_eq_zero, Nat.add_comm 1 e]
      exact and_iff_right hinterval
    rw [List.range'_concat, List.filter_append, ih, Nat.one_mul, Nat.succ_div]
    by_cases hdvd : interval ∣ e + 1
    · have hlast : (e / interval + 1) * interval = 1 + e := by
        have hquotient : e / interval + 1 = (e + 1) / interval := by
          rw [Nat.succ_div, if_pos hdvd]
        rw [hquotient, Nat.div_mul_cancel hdvd, Nat.add_comm]
      rw [if_pos hdvd, List.range_succ, List.map_append]
      simp [hdue.mpr hdvd, hlast]
    · have hskip : ¬Due interval (1 + e) := fun h => hdvd (hdue.mp h)
      rw [if_neg hdvd]
      simp [hskip]

/-- The losses of runs that have shown the starting point `n` times and have then completed `e` iterations. -/
theorem dueLosses_numbers {interval : Nat} (hinterval : 0 < interval) (loss? : Nat → Option L) (n e : Nat) :
    dueLosses interval loss? (List.replicate n 0 ++ List.range' 1 e) =
      List.replicate n (loss? 0) ++ (List.range (e / interval)).map fun j => loss? ((j + 1) * interval) := by
  have hstart : Due interval 0 := ⟨hinterval, Nat.zero_mod _⟩
  have hzeros : ((List.replicate n 0).filter fun k => Due interval k) = List.replicate n 0 :=
    List.filter_replicate_of_pos (decide_eq_true hstart)
  rw [dueLosses_append, dueLosses, dueLosses, filter_due_range' hinterval, hzeros, List.map_map,
    List.map_replicate]
  rfl

/-- If the starting point was shown once, loss `j` belongs to iteration `j` times the interval. -/
theorem replicate_one_append (interval : Nat) (loss? : Nat → Option L) (n : Nat) :
    List.replicate 1 (loss? 0) ++ ((List.range n).map fun j => loss? ((j + 1) * interval)) =
      (List.range (n + 1)).map fun j => loss? (j * interval) := by
  rw [List.range_succ_eq_map, List.map_cons, List.map_map, Nat.zero_mul]
  rfl

/-- The losses of the turns from 0 to `e`. -/
theorem dueLosses_range' {interval : Nat} (hinterval : 0 < interval) (loss? : Nat → Option L) (e : Nat) :
    dueLosses interval loss? (List.range' 0 (e + 1)) =
      (List.range (e / interval + 1)).map fun j => loss? (j * interval) := by
  rw [List.range'_succ, ← replicate_one_append, ← dueLosses_numbers hinterval]
  rfl

/-- **The losses of runs with one interval:** those of the starting point, as often as it was shown, and then one
    for each multiple of the interval. -/
theorem Logs.runsEvery {losses : A → List L} {At : Nat → A → Prop} {loss? : Nat → Option L} {interval : Nat}
    {start m : A} {shown : List (Vec S × Nat)} (h : Logs losses At loss?) (hcounts : CountsIterations A)
    (hstart : Iterative.iteration start = 0) (hat : At 0 start) (hempty : losses start = [])
    (hinterval : 0 < interval) (hruns : RunsEvery interval start shown m) :
    At (Iterative.iteration m) m ∧ (∀ p ∈ shown, ∃ n, At p.2 n ∧ p.1 = Iterative.solution n) ∧
      (losses m).map some = List.replicate (looks shown) (loss? 0) ++
        (List.range (Iterative.iteration m / interval)).map fun j => loss? ((j + 1) * interval) := by
  rw [← dueLosses_numbers hinterval, ← hruns.numbers hcounts hstart]
  induction hruns with
  | none => exact ⟨hstart ▸ hat, nofun, by rw [hempty]; rfl⟩
  | @run κ shown m budget e watcher memory r hruns hrun ih =>
    obtain ⟨hm, hshown, hlosses⟩ := ih
    obtain ⟨hadded, hlater, hlast⟩ := h.run hcounts hm (r := r) (by rw [hrun]; rfl)
    refine ⟨?_, ?_, ?_⟩
    · rw [(run_eq_ok hcounts hrun).1]
      exact hlast e hrun
    · intro p hp
      rcases List.mem_append.mp hp with hp | hp
      · exact hshown p hp
      · exact hlater p hp
    · rw [hadded, hlosses, List.map_append, dueLosses_append]

/-- **The number of losses.** Those of the starting point come on top of those that belong to iterations. -/
theorem KeepsLosses.length_of_runs {losses : A → List L} {interval : Nat} {start m : A} {shown : List (Vec S × Nat)}
    (h : KeepsLosses losses) (hcounts : CountsIterations A) (hstart : Iterative.iteration start = 0)
    (hempty : losses start = []) (hinterval : 0 < interval) (hruns : RunsEvery interval start shown m) :
    (losses m).length = looks shown + Iterative.iteration m / interval := by
  obtain ⟨-, -, hlosses⟩ :=
    (h.logs hcounts).runsEvery hcounts hstart hstart (congrArg _ hempty) hinterval hruns
  simpa using congrArg List.length hlosses

/-! ## Methods that do not notice their records -/

/-- The method after `k` iterations and no record, if all of them succeed. -/
def orbit? (start : A) : Nat → Option A
  | 0 => some start
  | k + 1 => (orbit? start k).bind fun m => (Iterative.update m).success?.map fun p => Iterative.exchange p.2

theorem orbit?_succ_eq_some_iff {start n' : A} {k : Nat} : orbit? start (k + 1) = some n' ↔
    ∃ n m, orbit? start k = some n ∧ Iterative.update n = .ok () m ∧ Iterative.exchange m = n' := by
  rw [orbit?, Option.bind_eq_some_iff]
  constructor
  · rintro ⟨n, hn, h⟩
    obtain ⟨⟨⟨⟩, m⟩, hm, rfl⟩ := Option.map_eq_some_iff.mp h
    exact ⟨n, m, hn, Outcome.success?_eq_some_iff.mp hm, rfl⟩
  · rintro ⟨n, m, hn, hm, rfl⟩
    exact ⟨n, hn, Option.map_eq_some_iff.mpr ⟨((), m), Outcome.success?_eq_some_iff.mpr hm, rfl⟩⟩

/-- An orbit goes on up to the first iteration that fails. -/
theorem isSome_orbit?_of_le {start : A} {j k : Nat} (hj : j ≤ k) (hk : (orbit? start k).isSome) :
    (orbit? start j).isSome := by
  induction hj with
  | refl => exact hk
  | step _ ih =>
    obtain ⟨n', hn'⟩ := Option.isSome_iff_exists.mp hk
    obtain ⟨n, -, hn, -, -⟩ := orbit?_succ_eq_some_iff.mp hn'
    exact ih (Option.isSome_iff_exists.mpr ⟨n, hn⟩)

/-- What runs with one interval leave of a method that does not notice its records. The losses are those of the
    starting point, as often as it was shown, and then the objectives after each multiple of the interval. -/
structure LossHistory (losses : A → List L) (objective? : A → Option L) (start : A) (interval : Nat)
    (shown : List (Vec S × Nat)) (m : A) : Prop where
  numbers : shown.map Prod.snd = List.replicate (looks shown) 0 ++ List.range' 1 (Iterative.iteration m)
  looked : shown ≠ [] → 0 < looks shown
  shows : ∀ p ∈ shown, ∃ n, orbit? start p.2 = some n ∧ p.1 = Iterative.solution n
  solution : ∃ n, orbit? start (Iterative.iteration m) = some n ∧ Iterative.solution m = Iterative.solution n
  recorded : (losses m).map some = List.replicate (looks shown) (objective? start) ++
    (List.range (Iterative.iteration m / interval)).map fun j =>
      (orbit? start ((j + 1) * interval)).bind objective?
  aligned : looks shown = 1 → (losses m).map some = (List.range (Iterative.iteration m / interval + 1)).map fun j =>
    (orbit? start (j * interval)).bind objective?

variable {view : A → B} {change : A → C → Outcome A Unit} {Alike : A → A → Prop} {losses : A → List L}
  {objective? : A → Option L}

namespace Unobtrusive

/-- **A method that does not notice its records** follows its orbit, and records the objectives on it. `Fit` is what
    is known of the method besides. -/
theorem logs (h : Unobtrusive view change Alike) (Fit : A → Prop) (hkeeps : KeepsLosses losses)
    (hmoved : ∀ {m m' : A}, Fit m → Iterative.update m = .ok () m' → Fit (Iterative.exchange m'))
    (hrecorded : ∀ {m n m' : A}, Alike m n → Fit m → Iterative.recordObjective m = .ok () m' →
      Fit m' ∧ ∃ v, objective? n = some v ∧ losses m' = losses m ++ [v]) (start : A) :
    Logs losses (fun k m => Fit m ∧ ∃ n, orbit? start k = some n ∧ Alike m n)
      fun k => (orbit? start k).bind objective? where
  keeps := hkeeps
  moved := by
    rintro k m m' ⟨hm, n, hn, hmn⟩ hu
    have hagree := h.update hmn
    rw [hu] at hagree
    obtain ⟨⟨⟩, n', hu', -, hmn'⟩ := hagree.of_ok
    exact ⟨hmoved hm hu, Iterative.exchange n', orbit?_succ_eq_some_iff.mpr ⟨n, n', hn, hu', rfl⟩,
      h.exchange hmn'⟩
  recorded := by
    rintro k m m' ⟨hm, n, hn, hmn⟩ ho
    obtain ⟨hm', v, hv, hlosses⟩ := hrecorded hmn hm ho
    refine ⟨⟨hm', n, hn, h.extra hmn (by rw [ho]; rfl)⟩, v, ?_, hlosses⟩
    rw [hn, Option.bind_some, hv]

/-- **The history of its losses.** -/
theorem lossHistory (h : Unobtrusive view change Alike) (hcounts : CountsIterations A) {start m : A}
    {interval : Nat} {shown : List (Vec S × Nat)} {Fit : A → Prop}
    (hlogs : Logs losses (fun k m => Fit m ∧ ∃ n, orbit? start k = some n ∧ Alike m n)
      fun k => (orbit? start k).bind objective?)
    (hstart : Iterative.iteration start = 0) (hfit : Fit start) (halike : Alike start start)
    (hempty : losses start = []) (hinterval : 0 < interval) (hruns : RunsEvery interval start shown m) :
    LossHistory losses objective? start interval shown m := by
  obtain ⟨⟨-, n, hn, hmn⟩, hshown, hlosses⟩ :=
    hlogs.runsEvery hcounts hstart ⟨hfit, start, rfl, halike⟩ hempty hinterval hruns
  refine ⟨hruns.numbers hcounts hstart, hruns.looks_pos hcounts hstart, ?_, ⟨n, hn, h.solution hmn⟩, hlosses, ?_⟩
  · intro p hp
    obtain ⟨m', ⟨-, n', hn', hmn'⟩, hp'⟩ := hshown p hp
    exact ⟨n', hn', hp'.trans (h.solution hmn')⟩
  · intro honce
    rw [hlosses, honce]
    exact replicate_one_append interval (fun k => (orbit? start k).bind objective?) _

end Unobtrusive

end Splitting
