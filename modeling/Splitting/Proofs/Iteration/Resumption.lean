import Splitting.Proofs.Iteration.Turns

/-!
# `Splitting.Proofs.Iteration.Resumption` — a run in two parts

A run keeps nothing of its own that a later run would miss: what it needs to go on is in the method, and the turns
with a record are counted from the first iteration of all. So a run that nothing stops is a sequence of turns, of
which the method alone decides how they end; and such a sequence can be cut anywhere. The one exception is a cut
before the first iteration, since a method that has not moved yet is looked at again.

* `takeTurns`, `takeTurns_add` — a sequence of turns, and how it is cut in two;
* `Run.method_iterate`, `method_run` — the loop and the run, when nothing stops them, as their turns;
* `Watcher.stop?`, `Ending.of_stop?` — where a watcher first says to stop, and that the run ends there;
* `RunsCompose`, `CountsIterations.runsCompose` — runs of one method in parts;
* `runs_compose` — the main statement.
-/

namespace Splitting

variable {A κ S : Type} [Iterative A S]

/-! ## Turns one after another -/

/-- The method after `n` turns, of which the first has this number. -/
def takeTurns (interval : Nat) : Nat → Nat → A → Outcome A Unit
  | _, 0, m => .ok () m
  | first, n + 1, m => (comesTo interval first m).bind fun _ m => takeTurns interval (first + 1) n m

variable {interval first k n : Nat} {watcher : Watcher κ S} {memory : κ} {m m' : A} {r : Run A κ S}
  {turns : List A}

/-- **A sequence of turns can be cut in two.** -/
theorem takeTurns_add (interval first a b : Nat) (m : A) : takeTurns interval first (a + b) m =
    (takeTurns interval first a m).bind fun _ m => takeTurns interval (first + a) b m := by
  induction a generalizing first m with
  | zero =>
    rw [Nat.zero_add]
    rfl
  | succ a ih =>
    rw [Nat.add_right_comm, takeTurns, takeTurns, Outcome.bind_assoc]
    simp only [ih, Nat.add_right_comm first 1 a, Nat.add_assoc]

/-- The turns that a method comes to are those that it takes. -/
theorem Leads.takeTurns (h : Leads interval m first turns) :
    takeTurns interval first turns.length m = .ok () (turns.getLastD m) := by
  induction turns generalizing m first with
  | nil => rfl
  | cons next turns ih =>
    rw [List.length_cons, Splitting.takeTurns, h.1, Outcome.bind_ok, ih h.2, List.getLastD_cons]

/-- After turn `k` a method that counts has completed `k` iterations. -/
theorem CountsIterations.takeTurns (h : CountsIterations A) (hm : Iterative.iteration m = first - 1)
    (hturns : Splitting.takeTurns interval first n m = .ok () m') :
    Iterative.iteration m' = first + n - 1 := by
  induction n generalizing m first with
  | zero =>
    cases hturns
    exact hm
  | succ n ih =>
    obtain ⟨⟨⟩, next, hturn, hrest⟩ := Outcome.bind_eq_ok_iff.mp hturns
    have hnext : Iterative.iteration next = first + 1 - 1 := h.comesTo hm hturn
    rw [ih hnext hrest]
    omega

/-! ## Runs that nothing stops -/

/-- On the way to a turn that fails, the method fails. -/
theorem FailsWith.comesTo {e : Error} {rest : List (Event S)} (h : FailsWith interval k m e m' rest) :
    comesTo interval k m = .error e m' := by
  cases h with
  | update hk hu => rw [Splitting.comesTo, advance_eq_error_iff.mpr ⟨hk, hu⟩, Outcome.bind_error]
  | record hdue hadvance hrecord => rw [Splitting.comesTo, hadvance, Outcome.bind_ok, if_pos hdue, hrecord]

namespace Run

/-- A turn of a run does to the method what the turn of the method does. -/
theorem method_turn (h : CountsIterations A) (hr : Iterative.iteration r.method = k - 1) :
    (r.turn interval k).mapState Run.method = comesTo interval k r.method := by
  rcases turn_cases h hr with
    ⟨m, r₁, hm, -, hturn, hadds⟩ | ⟨e, m, rest, r₁, hfails, hturn, hadds⟩ | ⟨hm, hturn⟩
  · rw [hturn, hm, Outcome.mapState_ok, hadds.method]
  · rw [hturn, hfails.comesTo, Outcome.mapState_error, hadds.method]
  · rw [hturn, hm, Outcome.mapState_mismatch]

/-- **A turn that the watcher lets pass,** and the turns after it. -/
theorem method_of_turn (h : CountsIterations A) (hw : watcher.NeverStops)
    (hr : Iterative.iteration r.method = k - 1) {next : Run A κ S → Outcome (Run A κ S) Nat} {value : Nat}
    (hnext : ∀ r₂, Iterative.iteration r₂.method = k → (next r₂).mapState Run.method =
      (takeTurns interval (k + 1) n r₂.method).bind fun _ m => .ok value m) :
    ((r.turn interval k).bind fun _ r => r.goOn watcher k next).mapState Run.method =
      (takeTurns interval k (n + 1) r.method).bind fun _ m => .ok value m := by
  rw [takeTurns, ← method_turn h hr]
  cases hturn : r.turn interval k with
  | error e r₁ => rfl
  | mismatch => rfl
  | ok _ r₁ =>
    have hcount : Iterative.iteration r₁.method = k := iteration_of_turn h hr hturn
    have hmethod : (r₁.watch watcher k).2.method = r₁.method := (r₁.watch_shown watcher k).1
    have hpasses : (r₁.watch watcher k).1 = false := hw r₁.memory (Iterative.solution r₁.method) k
    rw [Outcome.bind_ok, Outcome.mapState_ok, Outcome.bind_ok, goOn, hpasses, if_neg Bool.false_ne_true,
      hnext _ (hmethod.symm ▸ hcount), hmethod]

/-- The loop takes as many turns as its budget says. -/
theorem method_iterate (h : CountsIterations A) (hw : watcher.NeverStops) (interval budget : Nat)
    (hr : Iterative.iteration r.method = k) : (r.iterate interval watcher budget).mapState Run.method =
      (takeTurns interval (k + 1) budget r.method).bind fun _ m => .ok (k + budget) m := by
  induction budget generalizing r k with
  | zero =>
    rw [iterate, hr]
    rfl
  | succ budget ih =>
    rw [iterate_eq_turn h hr, Nat.add_comm budget 1, ← Nat.add_assoc, Nat.add_comm 1 budget]
    exact method_of_turn h hw hr fun r₂ hcount => ih hcount

end Run

/-- **A run that nothing stops** takes all its turns, and what its watcher remembers does not matter. -/
theorem method_run (h : CountsIterations A) (hw : watcher.NeverStops) (m : A) (budget interval : Nat)
    (memory : κ) : (run m budget interval watcher memory).mapState Run.method =
      (takeTurns interval (RunInvariant.firstShown (Iterative.iteration m))
        (Iterative.iteration m + budget + 1 - RunInvariant.firstShown (Iterative.iteration m)) m).bind
        fun _ m' => .ok (Iterative.iteration m + budget) m' := by
  by_cases hm : Iterative.iteration m = 0
  · rw [run_eq_turn hm, hm, Nat.zero_add]
    refine Run.method_of_turn (r := ⟨m, memory, #[]⟩) h hw hm fun r₂ hcount => ?_
    have hloop := Run.method_iterate h hw interval budget hcount
    rwa [Nat.zero_add budget] at hloop
  · have hturns : Iterative.iteration m + budget + 1 - (Iterative.iteration m + 1) = budget := by omega
    rw [run_eq_iterate hm, RunInvariant.firstShown, if_neg hm, hturns]
    exact Run.method_iterate (r := ⟨m, memory, #[]⟩) h hw interval budget rfl

/-! ## Where a watcher stops a run -/

namespace Watcher

/-- The number of the first iterate at which the watcher says to stop, of those that it is shown one after
    another. -/
def stop? (watcher : Watcher κ S) (memory : κ) : List (Vec S × Nat) → Option Nat
  | [] => none
  | p :: rest => if (watcher memory p.1 p.2).1 then some p.2 else watcher.stop? (watcher memory p.1 p.2).2 rest

omit [Iterative A S] in
/-- A watcher that never says to stop stops nowhere. -/
theorem stop?_of_replies {watcher : Watcher κ S} {memory : κ} {told : List (Vec S × Nat)}
    (h : watcher.replies memory told = List.replicate told.length false) : watcher.stop? memory told = none := by
  induction told generalizing memory with
  | nil => rfl
  | cons p rest ih =>
    obtain ⟨hfirst, hrest⟩ := List.cons.inj h
    rw [stop?, hfirst, if_neg Bool.false_ne_true]
    exact ih hrest

/-- A watcher that says to stop at the last iterate only stops there. -/
theorem stop?_concat {watcher : Watcher κ S} {memory : κ} {told : List (Vec S × Nat)} {last : Vec S × Nat}
    (h : watcher.replies memory (told ++ [last]) = List.replicate told.length false ++ [true]) :
    watcher.stop? memory (told ++ [last]) = some last.2 := by
  induction told generalizing memory with
  | nil =>
    have hlast : (watcher memory last.1 last.2).1 = true := (List.cons.inj h).1
    rw [List.nil_append, stop?, hlast, if_pos rfl]
  | cons p rest ih =>
    obtain ⟨hfirst, hrest⟩ := List.cons.inj h
    rw [List.cons_append, stop?, hfirst, if_neg Bool.false_ne_true]
    exact ih hrest

end Watcher

theorem length_told (first : Nat) (turns : List A) : (told first turns).length = turns.length := by
  rw [told, List.length_zipIdx, List.length_map]

theorem told_concat (first : Nat) (earlier : List A) (last : A) : told first (earlier ++ [last]) =
    told first earlier ++ [(Iterative.solution last, first + earlier.length)] := by
  rw [told, told, List.map_append, List.zipIdx_append, List.length_map]
  rfl

/-- **A run whose watcher says to stop ends there.** Its last turn is the first at which the watcher says so. -/
theorem Ending.of_stop? {limit : Nat} {r r' : Run A κ S} {o : Outcome (Run A κ S) Nat}
    (h : Ending interval watcher first limit r turns o) (hr : r.shown = []) (hstate : o.state? = some r')
    (hstop : watcher.stop? r.memory r'.shown = some k) :
    o = .ok k r' ∧ r'.method = turns.getLastD r.method ∧ first + turns.length = k + 1 := by
  obtain ⟨m, rest, htells, hquiet, -⟩ := h.tells hstate
  rw [htells.shown hquiet hr] at hstop
  -- a watcher that has let all the turns pass has stopped nothing
  have hpassed : watcher.replies r.memory (told first turns) ≠ List.replicate turns.length false := by
    intro hsays
    rw [← length_told first turns] at hsays
    rw [Watcher.stop?_of_replies hsays] at hstop
    cases hstop
  cases h with
  | @stopped earlier last r₁ hturns hlimit hsays htold =>
    cases hstate
    subst hturns
    have hlast : watcher.stop? r.memory (told first (earlier ++ [last])) = some (first + earlier.length) := by
      rw [told_concat] at hsays ⊢
      refine Watcher.stop?_concat ?_
      rw [length_told, hsays]
    obtain rfl : first + earlier.length = k := Option.some.inj (hlast.symm.trans hstop)
    refine ⟨rfl, ?_, ?_⟩
    · rw [htold.method, List.getLastD_concat]
    · rw [List.length_append, List.length_singleton, Nat.add_assoc]
  | spent _ hsays _ => exact absurd hsays hpassed
  | failed _ hsays _ _ => exact absurd hsays hpassed
  | brokenOff _ hsays _ => exact absurd hsays hpassed

/-! ## Runs in parts -/

/-- The runs of this method can be taken in parts. Where nothing stops them, a run for `a` iterations and a run for
    `b` more come to what one run for `a + b` comes to, unless both begin before the first iteration; and a run that
    its watcher stops comes to what a shorter run comes to that nothing stops. -/
structure RunsCompose (m : A) : Prop where
  split : ∀ {κ κ₁ κ₂ : Type} {watcher : Watcher κ S} {watcher₁ : Watcher κ₁ S} {watcher₂ : Watcher κ₂ S}
    (memory : κ) (memory₁ : κ₁) (memory₂ : κ₂) (interval a b : Nat), watcher.NeverStops → watcher₁.NeverStops →
    watcher₂.NeverStops → 0 < a ∨ 0 < Iterative.iteration m →
    (run m (a + b) interval watcher memory).mapState Run.method =
      ((run m a interval watcher₁ memory₁).mapState Run.method).bind fun _ m' =>
        (run m' b interval watcher₂ memory₂).mapState Run.method
  stopped : ∀ {κ κ' : Type} {watcher : Watcher κ S} {watcher' : Watcher κ' S} {memory : κ} (memory' : κ')
    {budget interval k : Nat} {r : Run A κ S}, watcher'.NeverStops →
    (run m budget interval watcher memory).state? = some r → watcher.stop? memory r.shown = some k →
    run m budget interval watcher memory = .ok k r ∧
      (run m (k - Iterative.iteration m) interval watcher' memory').mapState Run.method = .ok k r.method

/-- **Methods that count their iterations can be run in parts.** -/
theorem CountsIterations.runsCompose (h : CountsIterations A) (m : A) : RunsCompose m where
  split := by
    intro κ κ₁ κ₂ watcher watcher₁ watcher₂ memory memory₁ memory₂ interval a b hw hw₁ hw₂ hmoves
    rw [method_run h hw, method_run h hw₁]
    -- the second part begins with the turn after the last one of the first part
    have hfirst := iteration_eq_firstShown_sub_one (Iterative.iteration m)
    generalize RunInvariant.firstShown (Iterative.iteration m) = first at hfirst
    have hsum : Iterative.iteration m + (a + b) + 1 - first = Iterative.iteration m + a + 1 - first + b := by omega
    have hnext : first + (Iterative.iteration m + a + 1 - first) = Iterative.iteration m + a + 1 := by omega
    rw [hsum, takeTurns_add, hnext]
    cases hturns : Splitting.takeTurns interval first (Iterative.iteration m + a + 1 - first) m with
    | error e m' => rfl
    | mismatch => rfl
    | ok _ m' =>
      have hcount : Iterative.iteration m' = Iterative.iteration m + a := by
        rw [h.takeTurns hfirst.1 hturns]
        omega
      have hmoved : Iterative.iteration m + a ≠ 0 := by omega
      have hrest : Iterative.iteration m + a + b + 1 - (Iterative.iteration m + a + 1) = b := by omega
      rw [Outcome.bind_ok, Outcome.bind_ok, Outcome.bind_ok, method_run h hw₂, hcount, RunInvariant.firstShown,
        if_neg hmoved, hrest, Nat.add_assoc _ a b]
  stopped := by
    intro κ κ' watcher watcher' memory memory' budget interval k r hw' hr hstop
    obtain ⟨turns, hleads, hends⟩ := run_chronicled h m budget interval watcher memory
    obtain ⟨hok, hmethod, hlast⟩ := hends.of_stop? rfl hr hstop
    refine ⟨hok, ?_⟩
    -- without a watcher to stop it, the shorter run takes the same turns
    obtain ⟨hfirst, -⟩ := iteration_eq_firstShown_sub_one (Iterative.iteration m)
    have hsum : Iterative.iteration m + (k - Iterative.iteration m) = k := by omega
    have hturns : k + 1 - RunInvariant.firstShown (Iterative.iteration m) = turns.length := by omega
    rw [method_run h hw', hsum, hturns, hleads.takeTurns, Outcome.bind_ok, hmethod]

section

variable {S W ρ π σ : Type} [Scalar S] [StepRule ρ S] [Preconditioner π S] [IndexSource σ W]

/-- **Runs can be taken in parts,** with either proximal gradient method or the primal-dual method, in whatever
    state it is, in any arithmetic and with any interval.

    Let nothing stop them. A run for `a + b` iterations then ends as a run for `a` and after it a run for `b`, if the
    first of the two runs makes an iteration or the method has made one before. Either both ways succeed, with the
    same number of iterations and the same method, that is with the same vectors, momentum, records and source of
    indices, and with the same state of the rule and of the preconditioner; or both end in the same failure of the
    same method.

    And a run whose watcher first says to stop at iteration `k` succeeds there, with the method that a run leaves
    which has as many iterations as there are up to `k`, and which nothing stops. -/
theorem runs_compose : (∀ m : Ista S ρ π, RunsCompose m) ∧ (∀ m : Fista S ρ π, RunsCompose m) ∧
    ∀ m : Spdhg S σ, RunsCompose m := by
  refine ⟨fun m => ?_, fun m => ?_, fun m => ?_⟩
  · exact Ista.countsIterations.runsCompose m
  · exact Fista.countsIterations.runsCompose m
  · exact Spdhg.countsIterations.runsCompose m

end

/-- Two iterations on the real line with a record in each turn, at once and one by one; and a run for five that its
    watcher stops after the first. -/
theorem runs_compose_on_the_line :
    (Watcher.never : Watcher Unit ℝ).NeverStops ∧
    (run (squareOnTheLineMethod 3) (1 + 1) 1 Watcher.never ()).mapState Run.method =
      ((run (squareOnTheLineMethod 3) 1 1 Watcher.never ()).mapState Run.method).bind
        (fun _ m => (run m 1 1 Watcher.never ()).mapState Run.method) ∧
    (run (squareOnTheLineMethod 3) 5 1 (fun seen _ _ => (seen == 1, seen + 1)) 0).state?.map Run.shown =
      some [([3], 0), ([0], 1)] ∧
    Watcher.stop? (fun seen (_ : Vec ℝ) _ => (seen == 1, seen + 1)) 0 [([3], 0), ([0], 1)] = some 1 ∧
    (run (squareOnTheLineMethod 3) 1 1 Watcher.never ()).mapState Run.method =
      .ok 1 (squareOnTheLineMoved 3 [2 * 3] #[3 * 3, 0]) := by
  have hnever : (Watcher.never : Watcher Unit ℝ).NeverStops := fun _ _ _ => rfl
  have hrun := run_squareOnTheLineMethod
  obtain ⟨-, haccelerated, -⟩ := runs_compose (S := ℝ) (ρ := ConstantStep ℝ) (π := Sensitivity ℝ)
    (σ := Sampler ℝ)
  have hcompose := haccelerated (squareOnTheLineMethod 3)
  have hstate := congrArg Outcome.state? hrun
  refine ⟨hnever, ?_, by rw [hrun]; rfl, rfl, ?_⟩
  · exact hcompose.split () () () 1 1 1 hnever hnever hnever (Or.inl Nat.one_pos)
  · exact (hcompose.stopped () hnever hstate rfl).2

end Splitting
