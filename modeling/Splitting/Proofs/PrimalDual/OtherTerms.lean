import Splitting.PrimalDual.Setup
import Splitting.Proofs.Iteration.Simulation
import Splitting.Proofs.Observation

/-!
# `Splitting.Proofs.PrimalDual.OtherTerms` — block functions in place of others

An iteration of the primal-dual method asks the function of a block for one thing only, the proximal map of its
conjugate at the dual step of the block. So functions can be put in the place of others that have the same one
there: to do so commutes with building a method, with its iterations, and with changes of its steps, in any
arithmetic. A record asks for more, and may fail with the one function and succeed with the other.

* `Spdhg.withTerms`, `SpdhgSetup.withTerms` — other functions for the blocks;
* `Spdhg.KeepsDualMaps` — functions that can be exchanged;
* `Spdhg.termSteps_used` — the functions and the dual steps, which no run changes;
* `SpdhgSetup.build_withTerms`, `Spdhg.setStepSizes_withTerms`, `Spdhg.update_withTerms` — building, changes of the
  steps, and iterations;
* `Spdhg.run_withTerms`, `Spdhg.shown_withTerms` — runs without records, and with whatever records;
* `Spdhg.SameIterates`, `Spdhg.KeepsDualMaps.sameIterates` — all of it together.
-/

namespace Splitting

variable {S W σ κ κ' : Type}

theorem map_mapIdx {α β γ δ : Type} {f : ℕ → α → β} {h : β → γ} {h' : α → δ} {f' : ℕ → δ → γ}
    (hf : ∀ i a, h (f i a) = f' i (h' a)) (l : List α) : (l.mapIdx f).map h = (l.map h').mapIdx f' := by
  refine List.ext_getElem? fun i => ?_
  simp only [List.getElem?_map, List.getElem?_mapIdx, Option.map_map]
  congr 1
  funext a
  exact hf i a

theorem map_mapIdx_of_eq {α γ : Type} {f : ℕ → α → α} {h : α → γ} (hf : ∀ i a, h (f i a) = h a) (l : List α) :
    (l.mapIdx f).map h = l.map h := by
  refine List.ext_getElem? fun i => ?_
  rw [List.getElem?_map, List.getElem?_mapIdx, List.getElem?_map, Option.map_map]
  exact congrArg (Option.map · l[i]?) (funext (hf i))

/-- Block `i` with the function `g i f` in place of its function `f`. -/
def DualBlock.withTerm (g : ℕ → Functional S → Functional S) (i : ℕ) (b : DualBlock S) : DualBlock S :=
  { b with term := g i b.term }

/-- The method in which block `i` has the function `g i f` in place of `f`. -/
def Spdhg.withTerms (g : ℕ → Functional S → Functional S) (m : Spdhg S σ) : Spdhg S σ :=
  { m with blocks := m.blocks.mapIdx (DualBlock.withTerm g) }

/-- The setup in which block `i` has the function `g i f` in place of `f`. -/
def SpdhgSetup.withTerms (g : ℕ → Functional S → Functional S) (setup : SpdhgSetup S σ) : SpdhgSetup S σ :=
  { setup with terms := setup.terms.mapIdx g }

/-- The other functions have the same proximal maps of their conjugates, at the dual steps of the blocks. -/
def Spdhg.KeepsDualMaps [Scalar S] (g : ℕ → Functional S → Functional S) (m : Spdhg S σ) : Prop :=
  ∀ i b, m.blocks[i]? = some b → ∀ y out,
    (g i b.term).proximalConjugateInto y b.sigma out = b.term.proximalConjugateInto y b.sigma out

/-- The function and the dual step of each block. -/
def Spdhg.termSteps (m : Spdhg S σ) : List (Functional S × S) := m.blocks.map fun b => (b.term, b.sigma)

variable {g : ℕ → Functional S → Functional S} {m n : Spdhg S σ}

theorem Spdhg.withTerms_eq_self (h : ∀ i b, m.blocks[i]? = some b → g i b.term = b.term) : m.withTerms g = m := by
  have hblocks : m.blocks.mapIdx (DualBlock.withTerm g) = m.blocks := by
    refine List.ext_getElem? fun i => ?_
    rw [List.getElem?_mapIdx]
    cases hb : m.blocks[i]? with
    | none => rfl
    | some b => exact congrArg (fun f => some { b with term := f }) (h i b hb)
  exact congrArg (fun blocks => ({ m with blocks := blocks } : Spdhg S σ)) hblocks

/-! ## Building -/

theorem SpdhgSetup.blocks_mapIdx [Scalar S] (g : ℕ → Functional S → Functional S) (fs : List (Functional S))
    (ks : List (LinearOperator S)) (ps ns ss : List S) :
    blocks (fs.mapIdx g) ks ps ns ss = (blocks fs ks ps ns ss).mapIdx (DualBlock.withTerm g) := by
  fun_induction blocks fs ks ps ns ss generalizing g with
  | case1 f fs k ks p ps n ns s ss zeros ih =>
    rw [List.mapIdx_cons, List.mapIdx_cons, blocks, ih]
    rfl
  | case2 fs ks ps ns ss hne =>
    have hmapped : ∀ f fs', fs.mapIdx g = f :: fs' → ∃ f₀ fs₀, fs = f₀ :: fs₀ := by
      intro f fs' h
      cases fs with
      | nil => simp at h
      | cons f₀ fs₀ => exact ⟨f₀, fs₀, rfl⟩
    rw [blocks]
    · rfl
    · intro f fs' k ks' p ps' n ns' s ss' hf hk hp hn hs
      obtain ⟨f₀, fs₀, rfl⟩ := hmapped f fs' hf
      exact hne f₀ fs₀ k ks' p ps' n ns' s ss' rfl hk hp hn hs

/-- **To exchange functions commutes with building.** -/
theorem SpdhgSetup.build_withTerms [Scalar S] [Scalar W] [Precision S W] [IndexSource σ W]
    (g : ℕ → Functional S → Functional S) (setup : SpdhgSetup S σ) :
    (setup.withTerms g).build = Spdhg.withTerms g <$> setup.build := by
  have hterms : (setup.withTerms g).checkTerms = setup.checkTerms := by
    simp only [checkTerms, withTerms, List.length_mapIdx]
    rfl
  unfold build
  rw [hterms]
  simp only [map_bind, map_pure]
  simp only [withTerms, blocks_mapIdx]
  rfl

/-! ## The steps -/

namespace Spdhg

theorem withSteps_withTerms (g : ℕ → Functional S → Functional S) (m : Spdhg S σ) (steps : List S × S) :
    (m.withTerms g).withSteps steps = (m.withSteps steps).withTerms g := by
  have hblocks : List.zipWith (fun b s => { b with sigma := s }) (m.blocks.mapIdx (DualBlock.withTerm g)) steps.1 =
      (List.zipWith (fun (b : DualBlock S) s => { b with sigma := s }) m.blocks steps.1).mapIdx
        (DualBlock.withTerm g) := by
    refine List.ext_getElem? fun i => ?_
    simp only [List.getElem?_mapIdx, List.getElem?_zipWith]
    cases m.blocks[i]? <;> cases steps.1[i]? <;> rfl
  exact congrArg (fun blocks => ({ m with blocks := blocks, tau := steps.2 } : Spdhg S σ)) hblocks

theorem scales_withTerms (g : ℕ → Functional S → Functional S) (m : Spdhg S σ) : (m.withTerms g).scales = m.scales :=
  map_mapIdx_of_eq (f := DualBlock.withTerm g) (fun _ _ => rfl) m.blocks

/-- The dual variables stay. -/
theorem duals_withTerms (g : ℕ → Functional S → Functional S) (m : Spdhg S σ) : (m.withTerms g).duals = m.duals :=
  map_mapIdx_of_eq (f := DualBlock.withTerm g) (fun _ _ => rfl) m.blocks

variable [Scalar S]

omit [Scalar S] in
theorem map_withSteps_withTerms (g : ℕ → Functional S → Functional S) (m : Spdhg S σ)
    (steps : Except Error (List S × S)) :
    (m.withTerms g).withSteps <$> steps = withTerms g <$> m.withSteps <$> steps := by
  cases steps with
  | ok steps => exact congrArg Except.ok (withSteps_withTerms g m steps)
  | error e => rfl

/-- **To exchange functions commutes with a change of the steps.** -/
theorem setStepSizes_withTerms (g : ℕ → Functional S → Functional S) (m : Spdhg S σ) (sigma : Option (List S))
    (tau : Option S) : (m.withTerms g).setStepSizes sigma tau = withTerms g <$> m.setStepSizes sigma tau := by
  rw [setStepSizes, setStepSizes, scales_withTerms, map_withSteps_withTerms]

theorem setStepSizesFromRatio_withTerms (g : ℕ → Functional S → Functional S) (m : Spdhg S σ) (gamma rho : S) :
    (m.withTerms g).setStepSizesFromRatio gamma rho = withTerms g <$> m.setStepSizesFromRatio gamma rho := by
  rw [setStepSizesFromRatio, setStepSizesFromRatio, scales_withTerms, map_withSteps_withTerms]

/-! ## An iteration -/

theorem ascend_withTerm {i : ℕ} {b : DualBlock S} {x : Vec S} (h : ∀ y out,
      (g i b.term).proximalConjugateInto y b.sigma out = b.term.proximalConjugateInto y b.sigma out) :
    (b.withTerm g i).ascend x = (b.ascend x).mapState (DualBlock.withTerm g i) := by
  unfold DualBlock.ascend
  dsimp only [DualBlock.withTerm]
  split
  · rfl
  · rw [h, Outcome.mapState_mapState]
    rfl

theorem primalPhase_withTerms (g : ℕ → Functional S → Functional S) (m : Spdhg S σ) :
    (m.withTerms g).primalPhase = m.primalPhase.mapState (withTerms g) := by
  unfold primalPhase
  dsimp only [withTerms]
  split
  · rfl
  · rw [Outcome.mapState_mapState]
    rfl

theorem commit_withTerm (g : ℕ → Functional S → Functional S) (i : ℕ) (b : DualBlock S) :
    (b.withTerm g i).commit = b.commit.map (DualBlock.withTerm g i) := by
  unfold DualBlock.commit
  dsimp only [DualBlock.withTerm]
  cases Vec.zip? (fun old new => new - old) b.dual b.spare <;> rfl

theorem accumulate_withTerms (g : ℕ → Functional S → Functional S) (m : Spdhg S σ) (i : ℕ) (b : DualBlock S) :
    (m.withTerms g).accumulate i (b.withTerm g i) = (m.accumulate i b).map (withTerms g) := by
  have hset : ∀ c, (m.blocks.mapIdx (DualBlock.withTerm g)).set i (DualBlock.withTerm g i c) =
      (m.blocks.set i c).mapIdx (DualBlock.withTerm g) := fun _ => List.mapIdx_set.symm
  simp only [accumulate, commit_withTerm, Option.bind_eq_bind, Option.pure_def, Option.bind_map, Option.map_bind,
    withTerms, Function.comp_def, hset, Option.map_some]
  rfl

variable [IndexSource σ W]

omit [Scalar S] in
theorem drawPhase_withTerms (g : ℕ → Functional S → Functional S) (m : Spdhg S σ) :
    (m.withTerms g).drawPhase = (m.drawPhase.map fun p => (p.1, p.2.withTerm g p.1)).mapState (withTerms g) := by
  simp only [drawPhase, withTerms, List.getElem?_mapIdx, List.length_mapIdx]
  cases m.blocks[(IndexSource.next m.source).1]? <;> rfl

omit [IndexSource σ W] in
theorem dualPhase_withTerms {i : ℕ} {b : DualBlock S} (h : ∀ y out,
      (g i b.term).proximalConjugateInto y b.sigma out = b.term.proximalConjugateInto y b.sigma out) :
    (m.withTerms g).dualPhase i (b.withTerm g i) =
      ((m.dualPhase i b).map (DualBlock.withTerm g i)).mapState (withTerms g) := by
  unfold dualPhase
  dsimp only [withTerms]
  rw [ascend_withTerm h]
  cases b.ascend m.x with
  | ok _ c => rfl
  | error e c =>
    rw [Outcome.mapState_error]
    dsimp only
    rw [← List.mapIdx_set]
    rfl
  | mismatch => rfl

/-- **To exchange functions commutes with an iteration,** if they have the same dual maps. -/
theorem update_withTerms (h : m.KeepsDualMaps g) : (m.withTerms g).update = m.update.mapState (withTerms g) := by
  unfold update
  rw [primalPhase_withTerms]
  refine Outcome.bind_mapState fun _ s hs => ?_
  -- the primal step leaves the blocks alone
  have hblocks : s.blocks = m.blocks := by
    obtain ⟨point, x, -, -, rfl⟩ := primalPhase_eq_ok_iff.mp hs
    rfl
  rw [drawPhase_withTerms]
  refine Outcome.bind_map_mapState fun p s' hs' => ?_
  obtain ⟨i, b⟩ := p
  obtain ⟨-, hb, -⟩ := drawPhase_eq_ok_iff.mp hs'
  rw [hblocks] at hb
  show ((s'.withTerms g).dualPhase i (b.withTerm g i)).bind _ = _
  rw [dualPhase_withTerms (h i b hb)]
  refine Outcome.bind_map_mapState fun c s'' _ => ?_
  rw [accumulate_withTerms]
  cases s''.accumulate i c <;> rfl

/-! ## What calls keep -/

omit [Scalar S] [IndexSource σ W] in
theorem termSteps_of_outline (hsame : n.blocks.map DualBlock.outline = m.blocks.map DualBlock.outline) :
    n.termSteps = m.termSteps := by
  have hpairs := congrArg (List.map fun o => (o.1.term, o.1.sigma)) hsame
  rwa [List.map_map, List.map_map] at hpairs

/-- An iteration changes no function and no step. -/
theorem termSteps_update (hn : m.update.state? = some n) : n.termSteps = m.termSteps := by
  rcases Outcome.state?_eq_some_iff.mp hn with ⟨⟨⟩, hn⟩ | ⟨e, hn⟩
  · obtain ⟨point, x, b, image, ascent, y, delta, -, -, hb, -, -, -, -, -, -, -, rfl⟩ :=
      update_eq_ok_iff_equations.mp hn
    exact map_set_of_eq hb rfl
  · obtain ⟨x, scratch, source, blocks, rfl, -, -, hblocks⟩ := frame_of_update_error hn
    exact termSteps_of_outline hblocks

omit [IndexSource σ W] in
/-- Nor does a record. -/
theorem termSteps_record (hn : m.recordObjective.state? = some n) : n.termSteps = m.termSteps := by
  obtain ⟨scratch, blocks, losses, rfl, -, hblocks⟩ := frame_of_recordObjective hn
  exact termSteps_of_outline hblocks

/-- **Nor does a run.** -/
theorem termSteps_used (hn : Used unchangeable m n) : n.termSteps = m.termSteps := by
  induction hn with
  | start => rfl
  | call _ hc ih =>
    rename_i c _
    refine Eq.trans ?_ ih
    cases c with
    | update => exact termSteps_update hc
    | exchange =>
      cases hc
      rfl
    | recordObjective => exact termSteps_record hc
    | change c => exact c.elim

omit [Scalar S] [IndexSource σ W] in
theorem exists_block_of_termSteps {i : ℕ} {c : DualBlock S} (hsame : n.termSteps = m.termSteps)
    (hc : n.blocks[i]? = some c) : ∃ b, m.blocks[i]? = some b ∧ b.term = c.term ∧ b.sigma = c.sigma := by
  have hfound := congrArg (·[i]?) hsame
  simp only [termSteps, List.getElem?_map, hc, Option.map_some] at hfound
  obtain ⟨b, hb, hpair⟩ := Option.map_eq_some_iff.mp hfound.symm
  obtain ⟨hterm, hsigma⟩ := Prod.mk.inj hpair
  exact ⟨b, hb, hterm, hsigma⟩

omit [IndexSource σ W] in
theorem KeepsDualMaps.of_termSteps (h : m.KeepsDualMaps g) (hsame : n.termSteps = m.termSteps) :
    n.KeepsDualMaps g := by
  intro i c hc
  obtain ⟨b, hb, hterm, hsigma⟩ := exists_block_of_termSteps hsame hc
  rw [← hterm, ← hsigma]
  exact h i b hb

/-! ## Runs -/

/-- Methods that differ in functions with the same dual maps go in step. -/
theorem lockstep_withTerms {start : Spdhg S σ} (h : start.KeepsDualMaps g) :
    Lockstep 0 fun m n : Spdhg S σ => n = m.withTerms g ∧ m.termSteps = start.termSteps where
  solution hmn := by rw [hmn.1]; rfl
  iteration hmn := by rw [hmn.1]; rfl
  update := by
    rintro m _ ⟨rfl, hsame⟩
    show Outcome.Agree Eq _ m.update (m.withTerms g).update
    rw [update_withTerms (h.of_termSteps hsame)]
    exact .of_mapState fun s hs => ⟨rfl, (termSteps_update hs).trans hsame⟩
  exchange hmn := hmn
  record hzero := absurd hzero (Nat.lt_irrefl 0)

/-- **Runs without records** are the same but for the functions. -/
theorem run_withTerms (h : m.KeepsDualMaps g) (budget : ℕ) (watcher : Watcher κ S) (memory : κ) :
    run (m.withTerms g) budget 0 watcher memory =
      (run m budget 0 watcher memory).mapState fun r => { r with method := r.method.withTerms g } := by
  have hagree := (lockstep_withTerms h).run_agree ⟨rfl, rfl⟩ budget watcher memory
  have hmatch : ∀ r r' : Run (Spdhg S σ) κ S,
      RunsMatch (fun s t => t = s.withTerms g ∧ s.termSteps = m.termSteps) r r' →
      ({ r with method := r.method.withTerms g } : Run (Spdhg S σ) κ S) = id r' := by
    rintro ⟨method, memory, trace⟩ ⟨method', memory', trace'⟩ ⟨⟨hmethod, -⟩, hmemory, htrace⟩
    cases hmethod
    cases hmemory
    cases htrace
    rfl
  rw [hagree.mapState_eq hmatch]
  cases run (m.withTerms g) budget 0 watcher memory <;> rfl

/-- What both methods may differ in once either has made records. -/
def TermsApart (g : ℕ → Functional S → Functional S) (m n : Spdhg S σ) : Prop :=
  (m.withTerms g).Alike n ∧ m.KeepsDualMaps g ∧ m.FillsImages

omit [Scalar S] [IndexSource σ W] in
theorem fillsImages_withTerms (h : m.FillsImages) : (m.withTerms g).FillsImages := by
  intro b hb
  obtain ⟨i, hi, rfl⟩ := List.mem_mapIdx.mp hb
  exact h m.blocks[i] (List.getElem_mem hi)

omit [Scalar S] [IndexSource σ W] in
theorem Alike.withTerms (h : m.Alike n) (g : ℕ → Functional S → Functional S) :
    (m.withTerms g).Alike (n.withTerms g) := by
  obtain ⟨scratch, blocks, losses, rfl, hscratch, hblocks⟩ := h
  have hpushed : ∀ bs : List (DualBlock S), (bs.mapIdx (DualBlock.withTerm g)).map DualBlock.imageless =
      (bs.map DualBlock.imageless).mapIdx fun i p => (p.1.withTerm g i, p.2) := map_mapIdx fun _ _ => rfl
  refine ⟨scratch, blocks.mapIdx (DualBlock.withTerm g), losses, rfl, hscratch, ?_⟩
  show _ = (m.blocks.mapIdx (DualBlock.withTerm g)).map DualBlock.imageless
  rw [hpushed, hpushed, hblocks]

theorem lockstep_termsApart (g : ℕ → Functional S → Functional S) : Lockstep 0 (TermsApart (σ := σ) g) where
  solution h := congrArg (fun m => m.x) h.1.withoutRecords_eq
  iteration h := congrArg (fun m => m.iteration) h.1.withoutRecords_eq
  update := by
    rintro m n ⟨halike, hkeeps, hfills⟩
    have hagree := update_agree halike (fillsImages_withTerms hfills)
    rw [update_withTerms hkeeps] at hagree
    refine hagree.of_mapState_left.imp fun s t hs _ hst => ⟨hst, ?_, hfills.perform (c := .update) hs⟩
    exact hkeeps.of_termSteps (termSteps_update hs)
  exchange h := h
  record hzero := absurd hzero (Nat.lt_irrefl 0)

theorem unshaken_termsApart (g : ℕ → Functional S → Functional S) : Unshaken (TermsApart (σ := σ) g) where
  left := by
    rintro m n m' ⟨halike, hkeeps, hfills⟩ hm'
    have hback : (m'.withTerms g).Alike (m.withTerms g) := (alike_of_record hm').symm.withTerms g
    exact ⟨hback.trans halike, hkeeps.of_termSteps (termSteps_record hm'), hfills.perform (c := .recordObjective) hm'⟩
  right := fun h hn' => ⟨h.1.trans (alike_of_record hn'), h.2⟩

/-- **Runs with records** show the same solutions, as far as both of them go. The other method may have made records
    before, or else this one. -/
theorem shown_withTerms (h : m.KeepsDualMaps g) (hfills : m.FillsImages) (hn : (m.withTerms g).Alike n)
    {budget budget' interval interval' : ℕ} {watcher : Watcher κ S} {watcher' : Watcher κ' S} {memory : κ}
    {memory' : κ'} {r : Run (Spdhg S σ) κ S} {r' : Run (Spdhg S σ) κ' S}
    (hr : (run m budget interval watcher memory).state? = some r)
    (hr' : (run n budget' interval' watcher' memory').state? = some r') :
    r.shown <+: r'.shown ∨ r'.shown <+: r.shown :=
  (lockstep_termsApart g).shown_comparable ((lockstep_termsApart g).keepsTurns (unshaken_termsApart g)) countsIterations
    ⟨hn, h, hfills⟩ hr hr'

/-- The method goes the same way with other functions for its blocks. -/
structure SameIterates (g : ℕ → Functional S → Functional S) (m : Spdhg S σ) : Prop where
  update : (m.withTerms g).update = m.update.mapState (withTerms g)
  setStepSizes : ∀ (sigma : Option (List S)) (tau : Option S),
    (m.withTerms g).setStepSizes sigma tau = withTerms g <$> m.setStepSizes sigma tau
  setStepSizesFromRatio : ∀ gamma rho : S,
    (m.withTerms g).setStepSizesFromRatio gamma rho = withTerms g <$> m.setStepSizesFromRatio gamma rho
  run : ∀ {κ : Type} (budget : ℕ) (watcher : Watcher κ S) (memory : κ),
    Splitting.run (m.withTerms g) budget 0 watcher memory =
      (Splitting.run m budget 0 watcher memory).mapState fun r => { r with method := r.method.withTerms g }
  shown : m.FillsImages → ∀ {n : Spdhg S σ}, (m.withTerms g).Alike n → ∀ {κ κ' : Type}
    {budget budget' interval interval' : ℕ} {watcher : Watcher κ S} {watcher' : Watcher κ' S} {memory : κ}
    {memory' : κ'} {r : Run (Spdhg S σ) κ S} {r' : Run (Spdhg S σ) κ' S},
    (Splitting.run m budget interval watcher memory).state? = some r →
    (Splitting.run n budget' interval' watcher' memory').state? = some r' →
    r.shown <+: r'.shown ∨ r'.shown <+: r.shown

theorem KeepsDualMaps.sameIterates (h : m.KeepsDualMaps g) : m.SameIterates g where
  update := update_withTerms h
  setStepSizes := setStepSizes_withTerms g m
  setStepSizesFromRatio := setStepSizesFromRatio_withTerms g m
  run := run_withTerms h
  shown hfills _ hn _ _ _ _ _ _ _ _ _ _ _ _ := shown_withTerms h hfills hn

end Spdhg

end Splitting
