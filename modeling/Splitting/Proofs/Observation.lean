import Splitting.Proofs.Iteration.Records
import Splitting.Proofs.Iteration.Turns
import Splitting.Proofs.PrimalDual.Refinement

/-!
# `Splitting.Proofs.Observation` — recording the objective changes nothing else

The two proximal gradient methods compute their objective without a buffer. The primal-dual method writes the
images of the solution and the sum of the adjoints into buffers that an iteration uses as well, and may fail with
some of them written. But an iteration overwrites the scratch buffer before it reads it, and the image buffer of
the block that it draws; so only the records themselves show that they were made.

* `Ista.withoutRecords`, `Fista.withoutRecords`, `Spdhg.withoutRecords` — what is seen of a method;
* `Ista.unobtrusive`, `Fista.unobtrusive` — records of the proximal gradient methods;
* `Spdhg.Alike`, `Spdhg.update_agree`, `Spdhg.unobtrusive` — records of the primal-dual method;
* `records_are_unseen` — the main statement.
-/

namespace Splitting

variable {S W ρ π σ : Type}

/-! ## Proximal gradient methods -/

/-- The method with its records forgotten. -/
def Ista.withoutRecords (m : Ista S ρ π) : Ista S ρ π := ⟨{ m.state with losses := #[] }⟩

/-- The method with its records forgotten. -/
def Fista.withoutRecords (m : Fista S ρ π) : Fista S ρ π := { m with state := { m.state with losses := #[] } }

section

variable [Scalar S]

variable [StepRule ρ S] [Preconditioner π S]

/-- An update does not look at the records. -/
theorem Ista.update_withoutRecords (m : Ista S ρ π) :
    m.update.mapState withoutRecords = m.withoutRecords.update := by
  unfold update withoutRecords
  dsimp only
  cases Stepping.step m.state.iteration ⟨m.state.terms, m.state.solution, m.state.gradient, m.state.next⟩ with
  | ok a s => rfl
  | error e s => rfl
  | mismatch => rfl

omit [StepRule ρ S] [Preconditioner π S] in
theorem Fista.extrapolate_withoutRecords (m : Fista S ρ π) :
    m.extrapolate.mapState withoutRecords = m.withoutRecords.extrapolate := by
  unfold extrapolate withoutRecords
  dsimp only
  generalize Option.bind _ _ = ahead
  cases ahead with
  | none => rfl
  | some y => rfl

theorem Fista.update_withoutRecords (m : Fista S ρ π) :
    m.update.mapState withoutRecords = m.withoutRecords.update := by
  unfold update
  dsimp only [withoutRecords]
  cases Stepping.step m.state.iteration ⟨m.state.terms, m.ahead, m.state.gradient, m.state.next⟩ with
  | ok a s => exact extrapolate_withoutRecords _
  | error e s => rfl
  | mismatch => rfl

/-- Nor does a record look at those before it. -/
theorem Ista.record_withoutRecords (m : Ista S ρ π) :
    (Iterative.recordObjective m).mapState withoutRecords =
      (Iterative.recordObjective m.withoutRecords).mapState withoutRecords := by
  simp only [Iterative.recordObjective, Composite.recordObjective, withoutRecords]
  cases m.state.terms.objective m.state.solution with
  | none => rfl
  | some v => rfl

theorem Fista.record_withoutRecords (m : Fista S ρ π) :
    (Iterative.recordObjective m).mapState withoutRecords =
      (Iterative.recordObjective m.withoutRecords).mapState withoutRecords := by
  simp only [Iterative.recordObjective, Composite.recordObjective, withoutRecords]
  cases m.state.terms.objective m.state.solution with
  | none => rfl
  | some v => rfl

/-- **Records of the plain method** leave nothing but themselves. -/
theorem Ista.unobtrusive : Unobtrusive (withoutRecords (S := S) (π := π)) (unchangeable (A := Ista S ρ π))
    fun m n => m.withoutRecords = n.withoutRecords :=
  .of_forget (fun _ => rfl) (fun _ => rfl) update_withoutRecords (fun _ => rfl) record_withoutRecords
    fun m m' hm' => by
      obtain ⟨losses, rfl⟩ := Ista.recordObjective_eq hm'
      rfl

/-- **Records of the accelerated method** leave nothing but themselves. -/
theorem Fista.unobtrusive : Unobtrusive (withoutRecords (S := S) (π := π)) (unchangeable (A := Fista S ρ π))
    fun m n => m.withoutRecords = n.withoutRecords :=
  .of_forget (fun _ => rfl) (fun _ => rfl) update_withoutRecords (fun _ => rfl) record_withoutRecords
    fun m m' hm' => by
      obtain ⟨losses, rfl⟩ := Fista.recordObjective_eq hm'
      rfl

end

/-! ## The primal-dual method -/

theorem Fills?.eq_of_length {op : Vec S → Option (Vec S)} (h : Fills? op) {out out' : Vec S}
    (hl : out'.length = out.length) : op out' = op out := by
  cases ho : op out with
  | some v => exact h hl ho
  | none =>
    cases ho' : op out' with
    | none => rfl
    | some v =>
      rw [h hl.symm ho'] at ho
      cases ho

/-- What is written into a buffer depends on its length only. -/
theorem Vec.write?_eq_of_length {out out' : Vec S} (hl : out'.length = out.length) (new : Vec S) :
    out'.write? new = out.write? new := by
  unfold write?
  rw [hl]

namespace Spdhg

/-- A change of the steps. -/
inductive StepChange (S : Type) where
  | set (sigma : Option (List S)) (tau : Option S)
  | fromRatio (gamma rho : S)

/-- The method with its records forgotten, and with the buffers emptied that a record writes into. -/
def withoutRecords (m : Spdhg S σ) : Spdhg S σ :=
  { m with scratch := [], losses := #[], blocks := m.blocks.map fun b => { b with image := [] } }

/-- The operators write images that do not depend on what the buffer held. -/
def FillsImages (m : Spdhg S σ) : Prop := ∀ b ∈ m.blocks, ∀ x, Fills? (b.operator.direct x)

/-- Methods that differ in their records and in the contents of the buffers that records write into. -/
def Alike (m n : Spdhg S σ) : Prop :=
  ∃ scratch blocks losses, n = { m with scratch := scratch, blocks := blocks, losses := losses } ∧
    scratch.length = m.scratch.length ∧ blocks.map DualBlock.imageless = m.blocks.map DualBlock.imageless

variable [Scalar S]

/-- How a change of the steps ends. -/
def changeSteps (m : Spdhg S σ) : StepChange S → Outcome (Spdhg S σ) Unit
  | .set sigma tau => m.changeOrKeep (m.setStepSizes sigma tau)
  | .fromRatio gamma rho => m.changeOrKeep (m.setStepSizesFromRatio gamma rho)

omit [Scalar S] in
theorem Alike.refl (m : Spdhg S σ) : m.Alike m := ⟨m.scratch, m.blocks, m.losses, rfl, rfl, rfl⟩

omit [Scalar S] in
theorem Alike.symm {m n : Spdhg S σ} (h : m.Alike n) : n.Alike m := by
  obtain ⟨scratch, blocks, losses, rfl, hscratch, hblocks⟩ := h
  exact ⟨m.scratch, m.blocks, m.losses, rfl, hscratch.symm, hblocks.symm⟩

omit [Scalar S] in
theorem Alike.trans {m n o : Spdhg S σ} (h : m.Alike n) (h' : n.Alike o) : m.Alike o := by
  obtain ⟨scratch, blocks, losses, rfl, hscratch, hblocks⟩ := h
  obtain ⟨scratch', blocks', losses', rfl, hscratch', hblocks'⟩ := h'
  exact ⟨scratch', blocks', losses', rfl, hscratch'.trans hscratch, hblocks'.trans hblocks⟩

/-- A record, made or failed, leaves the method alike. -/
theorem alike_of_record {m m' : Spdhg S σ} (h : m.recordObjective.state? = some m') : m.Alike m' := by
  obtain ⟨scratch, blocks, losses, rfl, hscratch, hblocks⟩ := images_of_recordObjective h
  exact ⟨scratch, blocks, losses, rfl, hscratch, hblocks⟩

omit [Scalar S] in
theorem Alike.withoutRecords_eq {m n : Spdhg S σ} (h : m.Alike n) : m.withoutRecords = n.withoutRecords := by
  obtain ⟨scratch, blocks, losses, rfl, -, hblocks⟩ := h
  have hemptied := congrArg (List.map Prod.fst) hblocks
  rw [List.map_map, List.map_map] at hemptied
  exact congrArg (fun bs => ({ m with scratch := [], losses := #[], blocks := bs } : Spdhg S σ)) hemptied.symm

/-! ### Phases of an iteration -/

/-- The dual step of a block overwrites its image buffer before it reads it. -/
theorem ascend_of_imageless {b c : DualBlock S} {x : Vec S} (hb : ∀ x, Fills? (b.operator.direct x))
    (h : c.imageless = b.imageless) : c.ascend x = b.ascend x := by
  obtain ⟨image, hl, rfl⟩ := DualBlock.imageless_eq_iff.mp h
  have himage : b.operator.directInto x image = b.operator.directInto x b.image :=
    Fills?.eq_of_length (LinearOperator.fills?_into (hb x)) hl
  simp only [DualBlock.ascend, himage]

/-- The primal step overwrites the scratch buffer. -/
theorem primalPhase_agree {m n : Spdhg S σ} (h : m.Alike n) :
    Outcome.Agree Eq (fun s t => (s.Alike t ∧ t.scratch = s.scratch) ∧ s.blocks = m.blocks)
      m.primalPhase n.primalPhase := by
  obtain ⟨scratch, blocks, losses, rfl, hscratch, hblocks⟩ := h
  have hwrite : scratch.write? = m.scratch.write? := funext fun new => Vec.write?_eq_of_length hscratch new
  simp only [primalPhase, hwrite]
  cases (Vec.zip? (fun x zbar => x - m.tau * zbar) m.x m.zbar).bind m.scratch.write? with
  | none => exact .mismatch
  | some point =>
    refine (Outcome.Agree.refl (m.primalTerm.proximalInto point m.tau m.x)).mapState ?_
    rintro x _ rfl
    exact ⟨⟨⟨point, blocks, losses, rfl, rfl, hblocks⟩, rfl⟩, rfl⟩

/-- The end of an iteration does not look at the image buffers. -/
theorem accumulate_agree {m : Spdhg S σ} {blocks : List (DualBlock S)} {losses : Array (ObjectiveRecord S)}
    {i : Nat} {b : DualBlock S} (hblocks : blocks.map DualBlock.imageless = m.blocks.map DualBlock.imageless) :
    Outcome.Agree Eq Alike (.put (m.accumulate i b))
      (.put (accumulate { m with blocks := blocks, losses := losses } i b)) := by
  cases hm : m.accumulate i b with
  | some m' =>
    obtain ⟨c, delta, hc, hdelta, hz, hzbar, rfl⟩ := accumulate_eq_some_iff.mp hm
    have hn := accumulate_eq_some_iff (m := { m with blocks := blocks, losses := losses }) (i := i).mpr
      ⟨c, delta, hc, hdelta, hz, hzbar, rfl⟩
    rw [hn]
    exact .ok rfl ⟨delta, blocks.set i c, losses, rfl, rfl, by rw [List.map_set, List.map_set, hblocks]⟩
  | none =>
    cases hn : accumulate { m with blocks := blocks, losses := losses } i b with
    | none => exact .mismatch
    | some n' =>
      obtain ⟨c, delta, hc, hdelta, hz, hzbar, -⟩ := accumulate_eq_some_iff.mp hn
      rw [accumulate_eq_some_iff (m := m).mpr ⟨c, delta, hc, hdelta, hz, hzbar, rfl⟩] at hm
      cases hm

variable [IndexSource σ W]

/-- After the primal step nothing is read of the buffers that a record writes into: the draw does not look at
    them, and the drawn block overwrites its own. -/
theorem drawn_agree {m n : Spdhg S σ} (h : m.Alike n) (hscratch : n.scratch = m.scratch) (hfills : m.FillsImages) :
    Outcome.Agree Eq Alike
      (m.drawPhase.bind fun (i, b) m => (m.dualPhase i b).bind fun b m => .put (m.accumulate i b))
      (n.drawPhase.bind fun (i, b) n => (n.dualPhase i b).bind fun b n => .put (n.accumulate i b)) := by
  obtain ⟨scratch, blocks, losses, rfl, -, hblocks⟩ := h
  obtain rfl : scratch = m.scratch := hscratch
  have hlength : blocks.length = m.blocks.length := by simpa using congrArg List.length hblocks
  have hfound : blocks[m.nextIndex]?.map DualBlock.imageless = m.blocks[m.nextIndex]?.map DualBlock.imageless := by
    rw [← List.getElem?_map, ← List.getElem?_map, hblocks]
  cases hb : m.blocks[m.nextIndex]? with
  | none =>
    have hc : blocks[m.nextIndex]? = none := by
      rw [hb] at hfound
      exact Option.map_eq_none_iff.mp hfound
    rw [drawPhase_eq_error_iff.mpr ⟨hb, rfl, rfl⟩, drawPhase_eq_error_iff.mpr ⟨hc, rfl, rfl⟩]
    dsimp only [nextIndex]
    rw [hlength]
    exact .error ⟨m.scratch, blocks, losses, rfl, rfl, hblocks⟩
  | some b =>
    obtain ⟨c, hc, himageless⟩ : ∃ c, blocks[m.nextIndex]? = some c ∧ c.imageless = b.imageless := by
      rw [hb] at hfound
      exact Option.map_eq_some_iff.mp hfound
    rw [drawPhase_eq_ok_iff.mpr ⟨rfl, hb, rfl⟩, drawPhase_eq_ok_iff.mpr ⟨rfl, hc, rfl⟩]
    simp only [Outcome.bind_ok, dualPhase,
      ascend_of_imageless (hfills b (List.mem_of_getElem? hb)) himageless]
    cases b.ascend m.x with
    | mismatch => exact .mismatch
    | error e b' =>
      refine .error ⟨m.scratch, blocks.set m.nextIndex b', losses, rfl, rfl, ?_⟩
      rw [List.map_set, List.map_set, hblocks]
    | ok _ b' => exact accumulate_agree hblocks

/-- **An iteration** does not depend on what a record leaves behind. -/
theorem update_agree {m n : Spdhg S σ} (h : m.Alike n) (hfills : m.FillsImages) :
    Outcome.Agree Eq Alike m.update n.update := by
  unfold update
  refine (primalPhase_agree h).bind (fun _ _ hst => hst.1.1) fun _ _ s t _ hst => ?_
  exact drawn_agree hst.1.1 hst.1.2 fun b hb => hfills b (hst.2 ▸ hb)

/-! ### Records and changes of the steps -/

omit [IndexSource σ W] in
/-- The objectives of the blocks overwrite the image buffers before they read them. -/
theorem blockObjectives_agree {x : Vec S} {p d : S} {bs cs : List (DualBlock S)}
    (hfills : ∀ b ∈ bs, ∀ x, Fills? (b.operator.direct x))
    (h : cs.map DualBlock.imageless = bs.map DualBlock.imageless) :
    Outcome.Agree Eq (fun bs cs => cs.map DualBlock.imageless = bs.map DualBlock.imageless)
      (blockObjectives x p d bs) (blockObjectives x p d cs) := by
  induction bs generalizing cs p d with
  | nil =>
    obtain rfl := List.map_eq_nil_iff.mp h
    exact .ok rfl rfl
  | cons b bs ih =>
    obtain ⟨c, cs', rfl, hc, hcs⟩ := List.map_eq_cons_iff.mp h
    obtain ⟨image, hl, rfl⟩ := DualBlock.imageless_eq_iff.mp hc
    have himage : b.operator.directInto x image = b.operator.directInto x b.image :=
      Fills?.eq_of_length (LinearOperator.fills?_into (hfills b List.mem_cons_self x)) hl
    simp only [blockObjectives, himage]
    cases b.operator.directInto x b.image with
    | none => exact .mismatch
    | some v =>
      dsimp only
      cases b.term.value v with
      | none => exact .mismatch
      | some a =>
        cases b.term.conjugate b.dual with
        | ok d =>
          refine (ih (fun b hb => hfills b (List.mem_cons_of_mem _ hb)) hcs).mapState fun _ _ hst => ?_
          rw [List.map_cons, List.map_cons, hst]
        | error fault =>
          cases fault with
          | error e => exact .error (by rw [List.map_cons, List.map_cons, hcs])
          | mismatch => exact .mismatch

omit [IndexSource σ W] in
/-- **A record** does not depend on what others leave behind. -/
theorem recordObjective_agree {m n : Spdhg S σ} (h : m.Alike n) (hfills : m.FillsImages) :
    Outcome.Agree Eq Alike m.recordObjective n.recordObjective := by
  obtain ⟨scratch, blocks, losses, rfl, hscratch, hblocks⟩ := h
  unfold recordObjective
  dsimp only
  cases m.primalTerm.value m.x with
  | none => exact .mismatch
  | some g =>
    have hobjectives := blockObjectives_agree (x := m.x) (p := g) (d := 0) hfills hblocks
    -- with the images in place, the adjoints are summed up in fresh buffers
    refine (hobjectives.mapState (Q := Alike) fun bs cs hbs => ?_).bind (fun _ _ hst => hst) ?_
    · exact ⟨scratch, cs, losses, rfl, hscratch, hbs⟩
    · rintro ⟨primal, dual⟩ _ s t rfl ⟨scratch, blocks, losses, rfl, hscratch, hblocks⟩
      have hadjoint : negatedAdjoint? { s with scratch := scratch, blocks := blocks, losses := losses } =
          s.negatedAdjoint? :=
        negatedAdjoint?_of_map_outline hscratch (DualBlock.map_outline_of_map_imageless hblocks)
      dsimp only
      rw [hadjoint]
      cases s.negatedAdjoint? with
      | none => exact .mismatch
      | some v =>
        dsimp only
        cases s.primalTerm.conjugate v with
        | ok c => exact .ok rfl ⟨v, blocks, _, rfl, rfl, hblocks⟩
        | error fault =>
          cases fault with
          | error e => exact .error ⟨v, blocks, losses, rfl, rfl, hblocks⟩
          | mismatch => exact .mismatch

omit [Scalar S] [IndexSource σ W] in
/-- New steps are put beside what the image buffers hold. -/
theorem map_imageless_withSteps (m : Spdhg S σ) (steps : List S × S) :
    (m.withSteps steps).blocks.map DualBlock.imageless = List.zipWith
      (fun p s => (({ p.1 with sigma := s } : DualBlock S), p.2)) (m.blocks.map DualBlock.imageless) steps.1 := by
  rw [withSteps, List.map_zipWith, List.zipWith_map_left]
  rfl

omit [Scalar S] [IndexSource σ W] in
/-- New steps do not depend on buffers. -/
theorem withSteps_alike {m n : Spdhg S σ} (h : m.Alike n) (steps : List S × S) :
    (m.withSteps steps).Alike (n.withSteps steps) := by
  obtain ⟨scratch, blocks, losses, rfl, hscratch, hblocks⟩ := h
  refine ⟨scratch, _, losses, rfl, hscratch, ?_⟩
  have hleft := map_imageless_withSteps { m with scratch := scratch, blocks := blocks, losses := losses } steps
  exact hleft.trans ((congrArg (List.zipWith _ · steps.1) hblocks).trans (map_imageless_withSteps m steps).symm)

omit [Scalar S] [IndexSource σ W] in
theorem scales_of_alike {m n : Spdhg S σ} (h : m.Alike n) : n.scales = m.scales := by
  obtain ⟨scratch, blocks, losses, rfl, -, hblocks⟩ := h
  have hscales := congrArg (List.map fun p => DualScale.mk p.1.weight p.1.norm) hblocks
  rwa [List.map_map, List.map_map] at hscales

omit [IndexSource σ W] in
/-- **A change of the steps** does not depend on what a record leaves behind. -/
theorem changeSteps_agree {m n : Spdhg S σ} (h : m.Alike n) (c : StepChange S) :
    Outcome.Agree Eq Alike (m.changeSteps c) (n.changeSteps c) := by
  have hmap : ∀ steps : Except Error (List S × S),
      Outcome.Agree Eq Alike (m.changeOrKeep (m.withSteps <$> steps)) (n.changeOrKeep (n.withSteps <$> steps)) := by
    intro steps
    cases steps with
    | ok steps => exact .ok rfl (withSteps_alike h steps)
    | error e => exact .error h
  cases c with
  | set sigma tau =>
    simp only [changeSteps, setStepSizes, scales_of_alike h]
    exact hmap _
  | fromRatio gamma rho =>
    simp only [changeSteps, setStepSizesFromRatio, scales_of_alike h]
    exact hmap _

/-! ### What operators promise -/

/-- No call changes the operators. -/
theorem FillsImages.perform {m m' : Spdhg S σ} (h : m.FillsImages) {c : Call S}
    (hc : (m.perform c).state? = some m') : m'.FillsImages := by
  refine forall_mem_of_map_eq (fun a b hab ha => ?_) (data_of_perform hc).2.2 h
  have hoperator : b.operator = a.operator := congrArg (fun d => d.2.1) hab
  rw [hoperator]
  exact ha

/-- **Records of the primal-dual method** leave nothing but themselves and what they have written into buffers. -/
theorem unobtrusive : Unobtrusive withoutRecords (changeSteps (S := S) (σ := σ))
    fun m n => m.Alike n ∧ m.FillsImages where
  view h := h.1.withoutRecords_eq
  solution h := congrArg (fun m => m.x) h.1.withoutRecords_eq
  iteration h := congrArg (fun m => m.iteration) h.1.withoutRecords_eq
  update h := (update_agree h.1 h.2).and_left fun s hs => h.2.perform (c := .update) hs
  exchange h := h
  record h := (recordObjective_agree h.1 h.2).and_left fun s hs => h.2.perform (c := .recordObjective) hs
  change {m _ c} h := (changeSteps_agree h.1 c).and_left fun s hs => by
    cases c with
    | set sigma tau => exact h.2.perform (c := .setStepSizes sigma tau) hs
    | fromRatio gamma rho => exact h.2.perform (c := .setStepSizesFromRatio gamma rho) hs
  extra h hm' := ⟨(alike_of_record hm').symm.trans h.1, h.2.perform (c := .recordObjective) hm'⟩

end Spdhg

/-! ## All three methods -/

/-- **Recording the objective changes nothing else,** in any arithmetic. Take a proximal gradient method, plain or
    accelerated, or a primal-dual method whose operators write images that do not depend on what the buffer held.

    A record, made or failed, leaves all of the method as it was that is not a record or a buffer of one. Put
    records between the calls of a session, or take them out: each update, each exchange, each change of the steps
    and each other record ends as before, with the same error if it fails, and leaves the same method, that is the
    same solutions, dual variables and sums of adjoints, the same momentum, number of iterations and source of
    indices. And a run with another interval ends in the same way, with the same method, and has shown its watcher
    the same, as long as no record fails. -/
theorem records_are_unseen [Scalar S] [StepRule ρ S] [Preconditioner π S] [IndexSource σ W] :
    (∀ m : Ista S ρ π, RecordsUnseen Ista.withoutRecords unchangeable m) ∧
    (∀ m : Fista S ρ π, RecordsUnseen Fista.withoutRecords unchangeable m) ∧
    ∀ m : Spdhg S σ, m.FillsImages → RecordsUnseen Spdhg.withoutRecords Spdhg.changeSteps m := by
  refine ⟨fun m => ?_, fun m => ?_, fun m hm => ?_⟩
  · exact Ista.unobtrusive.recordsUnseen Ista.countsIterations rfl
  · exact Fista.unobtrusive.recordsUnseen Fista.countsIterations rfl
  · exact Spdhg.unobtrusive.recordsUnseen Spdhg.countsIterations ⟨.refl m, hm⟩

/-- The first record of the two blocks on the real line can be made. -/
theorem record_oneDimensional (a b start : ℝ) :
    ∃ m, (oneDimensionalMethod a b start).recordObjective = .ok () m := by
  simp [Spdhg.recordObjective, Spdhg.blockObjectives, Spdhg.negatedAdjoint?, oneDimensionalMethod,
    LinearOperator.directInto, LinearOperator.adjointSum?, LinearOperator.adjointInto, LinearOperator.matrix,
    LinearOperator.diagonal, LinearOperator.scaleEntries, Matrix.mulVec?, Matrix.transposeMulVec?,
    Matrix.columnDot?, Matrix.column, Vec.dot?_eq_pairing, Vec.pairing, Vec.write?, Vec.zip?, Vec.spread?,
    Vec.zeros, OneNorm.functional, Functional.ofProximal, SquaredDistance.functional, SquaredDistance.unit,
    SquaredDistance.value?, SquaredDistance.distanceSq?, SquaredDistance.conjugate?, Outcome.ofExcept]

theorem fillsImages_oneDimensional (a b start : ℝ) : (oneDimensionalMethod a b start).FillsImages := by
  intro b hb
  rcases List.mem_pair.mp hb with rfl | rfl
  · exact (BasicOperator.matrix _).overwrites.direct
  · exact (BasicOperator.diagonal _).overwrites.direct

/-- A record before the first iteration of two blocks on the real line, and records in a run of the accelerated
    method for the square. -/
theorem records_are_unseen_on_the_line :
    (oneDimensionalMethod 3 2 3).FillsImages ∧
    (∃ m, (Iterative.recordObjective (oneDimensionalMethod 3 2 3)).state? = some m ∧
      m.withoutRecords = (oneDimensionalMethod 3 2 3).withoutRecords) ∧
    (∃ m, (oneDimensionalMethod 3 2 3).update = .ok () m ∧ m.duals = [[1], [0]] ∧
      answers Spdhg.withoutRecords Spdhg.changeSteps (oneDimensionalMethod 3 2 3) [.extra, .call .update] =
        [.ok () m.withoutRecords]) ∧
    RecordsSucceed 1 Watcher.never 1 (squareOnTheLineMethod 3) 0 () ∧
    (run (squareOnTheLineMethod 3) 1 1 Watcher.never ()).mapState (Run.seen Fista.withoutRecords) =
      (run (squareOnTheLineMethod 3) 1 0 Watcher.never ()).mapState (Run.seen Fista.withoutRecords) := by
  have hfills := fillsImages_oneDimensional 3 2 3
  obtain ⟨m, hm⟩ := record_oneDimensional 3 2 3
  have hleaves : (Iterative.recordObjective (oneDimensionalMethod 3 2 3)).state? = some m :=
    congrArg Outcome.state? hm
  obtain ⟨m₁, hupdate, hduals, -, -⟩ := oneDimensional_first_iteration
  have hsucceed : RecordsSucceed 1 Watcher.never 1 (squareOnTheLineMethod 3) 0 () := by
    intro turns next hleads hlimit hsays hadvance hdue
    match turns with
    | [] =>
      cases hadvance
      exact ⟨_, record_squareOnTheLineWith 3 #[]⟩
    | [n] =>
      obtain rfl : squareOnTheLineWith 3 #[3 * 3] = n := by
        simpa using (comesTo_squareOnTheLineWith 3 #[]).symm.trans hleads.1
      obtain rfl : squareOnTheLineMoved 3 [2 * 3] #[3 * 3] = next := by
        simpa using (advance_squareOnTheLineWith 3 #[3 * 3]).symm.trans hadvance
      exact ⟨_, record_squareOnTheLineMoved 3 _ _⟩
    | _ :: _ :: _ =>
      simp only [List.length_cons] at hlimit
      omega
  obtain ⟨-, haccelerated, hsplit⟩ := records_are_unseen (S := ℝ) (ρ := ConstantStep ℝ) (π := Sensitivity ℝ)
    (σ := BlockSource (Sampler ℝ) ℝ)
  have hunseen := hsplit (oneDimensionalMethod 3 2 3) hfills
  refine ⟨hfills, ⟨m, hleaves, hunseen.record m hleaves⟩, ⟨m₁, hupdate, hduals, ?_⟩, hsucceed, ?_⟩
  · rw [hunseen.session [.extra, .call .update] [.call .update] rfl ⟨m, hleaves, fun _ _ => trivial⟩
      fun _ _ => trivial]
    have hcall : UserCall.perform Spdhg.changeSteps (oneDimensionalMethod 3 2 3) .update = .ok () m₁ := hupdate
    rw [answers, hcall]
    rfl
  · exact (haccelerated (squareOnTheLineMethod 3)).run 1 1 0 Watcher.never () hsucceed
      fun _ _ _ _ _ _ hdue => absurd hdue.1 (Nat.lt_irrefl 0)

end Splitting
