import Splitting.PrimalDual.Spdhg

/-!
# `Splitting.Proofs.PrimalDual.Phases` — how each phase of an iteration ends

An iteration of the primal-dual method is four phases, each of which writes into buffers and may break off.
This module says once what each phase does when it succeeds and what it leaves when it fails; later modules
reason from these equivalences and do not open the phases again.

* `DualBlock.ascend_eq_ok_iff`, `DualBlock.ascend_eq_error_iff` — the dual step of one block;
* `Spdhg.accumulate_eq_some_iff` — the end of an iteration;
* `Spdhg.update_eq_ok_iff_equations`, `Spdhg.update_eq_error_iff` — the whole iteration;
* `Spdhg.recordObjective_eq_ok_iff`, `Spdhg.recordObjective_eq_error` — one record of the objectives.
-/

namespace Splitting

variable {S W σ : Type} [Scalar S]

/-! ## The dual step of a block -/

namespace DualBlock

/-- A dual step that leaves a state has a forward point, and is the proximal map of the conjugate there. -/
theorem ascend_eq_iff {b : DualBlock S} {x : Vec S} {o : Outcome (DualBlock S) Unit} (ho : o ≠ .mismatch) :
    b.ascend x = o ↔ ∃ image point, b.operator.directInto x b.image = some image ∧
      Vec.zip? (fun a y => y + b.sigma * a) image b.dual = some point ∧
      ((b.term.proximalConjugateInto point b.sigma b.spare).mapState fun y =>
        { b with spare := y, image := point }) = o := by
  unfold ascend
  constructor
  · intro h
    split at h
    · exact absurd h.symm ho
    · next point hpoint =>
      obtain ⟨image, himage, hzip⟩ := Option.bind_eq_some_iff.mp hpoint
      exact ⟨image, point, himage, hzip, h⟩
  · rintro ⟨image, point, himage, hpoint, h⟩
    simp only [himage, Option.bind_some, hpoint]
    exact h

theorem ascend_eq_ok_iff {b b' : DualBlock S} {x : Vec S} :
    b.ascend x = .ok () b' ↔ ∃ image point y, b.operator.directInto x b.image = some image ∧
      Vec.zip? (fun a y => y + b.sigma * a) image b.dual = some point ∧
      b.term.proximalConjugateInto point b.sigma b.spare = .ok () y ∧
      b' = { b with spare := y, image := point } := by
  rw [ascend_eq_iff (by simp)]
  simp only [Outcome.mapState_eq_ok_iff]
  constructor
  · rintro ⟨image, point, himage, hpoint, y, hy, rfl⟩
    exact ⟨image, point, y, himage, hpoint, hy, rfl⟩
  · rintro ⟨image, point, y, himage, hpoint, hy, rfl⟩
    exact ⟨image, point, himage, hpoint, y, hy, rfl⟩

theorem ascend_eq_error_iff {b b' : DualBlock S} {x : Vec S} {e : Error} :
    b.ascend x = .error e b' ↔ ∃ image point y, b.operator.directInto x b.image = some image ∧
      Vec.zip? (fun a y => y + b.sigma * a) image b.dual = some point ∧
      b.term.proximalConjugateInto point b.sigma b.spare = .error e y ∧
      b' = { b with spare := y, image := point } := by
  rw [ascend_eq_iff (by simp)]
  simp only [Outcome.mapState_eq_error_iff]
  constructor
  · rintro ⟨image, point, himage, hpoint, y, hy, rfl⟩
    exact ⟨image, point, y, himage, hpoint, hy, rfl⟩
  · rintro ⟨image, point, y, himage, hpoint, hy, rfl⟩
    exact ⟨image, point, himage, hpoint, y, hy, rfl⟩

theorem commit_eq_some_iff {b b' : DualBlock S} :
    b.commit = some b' ↔ b.dual.length = b.spare.length ∧
      b' = { b with dual := b.spare, spare := List.zipWith (fun old new => new - old) b.dual b.spare } := by
  unfold commit
  rw [Option.map_eq_some_iff]
  constructor
  · rintro ⟨change, hchange, rfl⟩
    obtain ⟨hl, rfl⟩ := Vec.zip?_eq_some_iff.mp hchange
    exact ⟨hl, rfl⟩
  · rintro ⟨hl, rfl⟩
    exact ⟨_, Vec.zip?_eq_some_iff.mpr ⟨hl, rfl⟩, rfl⟩

end DualBlock

namespace Spdhg

/-! ## The phases -/

/-- The forward point `x - τ z̄`, which has to fit into the scratch buffer. -/
def forwardPoint? (m : Spdhg S σ) : Option (Vec S) :=
  (Vec.zip? (fun x zbar => x - m.tau * zbar) m.x m.zbar).bind m.scratch.write?

theorem forwardPoint?_eq_some_iff {m : Spdhg S σ} {point : Vec S} :
    m.forwardPoint? = some point ↔ m.x.length = m.zbar.length ∧ m.x.length = m.scratch.length ∧
      point = List.zipWith (fun x zbar => x - m.tau * zbar) m.x m.zbar := by
  unfold forwardPoint?
  rw [Option.bind_eq_some_iff]
  constructor
  · rintro ⟨p, hp, hw⟩
    obtain ⟨hl, rfl⟩ := Vec.zip?_eq_some_iff.mp hp
    obtain ⟨hs, rfl⟩ := Vec.write?_eq_some_iff.mp hw
    rw [Vec.length_zipWith_of_length rfl hl.symm] at hs
    exact ⟨hl, hs, rfl⟩
  · rintro ⟨hl, hs, rfl⟩
    have hlength := Vec.length_zipWith_of_length (f := fun x zbar => x - m.tau * zbar) hs (hl.symm.trans hs)
    exact ⟨_, Vec.zip?_eq_some_iff.mpr ⟨hl, rfl⟩, Vec.write?_eq_some_iff.mpr ⟨hlength, rfl⟩⟩

/-- A primal step that leaves a state has a forward point, and is the proximal map there. -/
theorem primalPhase_eq_iff {m : Spdhg S σ} {o : Outcome (Spdhg S σ) Unit} (ho : o ≠ .mismatch) :
    m.primalPhase = o ↔ ∃ point, m.forwardPoint? = some point ∧
      ((m.primalTerm.proximalInto point m.tau m.x).mapState fun x =>
        { m with x := x, scratch := point }) = o := by
  unfold primalPhase forwardPoint?
  constructor
  · intro h
    split at h
    · exact absurd h.symm ho
    · next point hpoint => exact ⟨point, hpoint, h⟩
  · rintro ⟨point, hpoint, h⟩
    simp only [hpoint]
    exact h

theorem primalPhase_eq_ok_iff {m m' : Spdhg S σ} :
    m.primalPhase = .ok () m' ↔ ∃ point x, m.forwardPoint? = some point ∧
      m.primalTerm.proximalInto point m.tau m.x = .ok () x ∧ m' = { m with x := x, scratch := point } := by
  rw [primalPhase_eq_iff (by simp)]
  simp only [Outcome.mapState_eq_ok_iff]
  constructor
  · rintro ⟨point, hpoint, x, hx, rfl⟩
    exact ⟨point, x, hpoint, hx, rfl⟩
  · rintro ⟨point, x, hpoint, hx, rfl⟩
    exact ⟨point, hpoint, x, hx, rfl⟩

theorem primalPhase_eq_error_iff {m m' : Spdhg S σ} {e : Error} :
    m.primalPhase = .error e m' ↔ ∃ point x, m.forwardPoint? = some point ∧
      m.primalTerm.proximalInto point m.tau m.x = .error e x ∧ m' = { m with x := x, scratch := point } := by
  rw [primalPhase_eq_iff (by simp)]
  simp only [Outcome.mapState_eq_error_iff]
  constructor
  · rintro ⟨point, hpoint, x, hx, rfl⟩
    exact ⟨point, x, hpoint, hx, rfl⟩
  · rintro ⟨point, x, hpoint, hx, rfl⟩
    exact ⟨point, hpoint, x, hx, rfl⟩

theorem dualPhase_eq_ok_iff {m m' : Spdhg S σ} {i : Nat} {b b' : DualBlock S} :
    m.dualPhase i b = .ok b' m' ↔ b.ascend m.x = .ok () b' ∧ m' = m := by
  unfold dualPhase
  cases b.ascend m.x with
  | ok _ c => simp [eq_comm]
  | error e c => simp
  | mismatch => simp

theorem dualPhase_eq_error_iff {m m' : Spdhg S σ} {i : Nat} {b : DualBlock S} {e : Error} :
    m.dualPhase i b = .error e m' ↔
      ∃ b', b.ascend m.x = .error e b' ∧ m' = { m with blocks := m.blocks.set i b' } := by
  unfold dualPhase
  cases b.ascend m.x with
  | ok _ c => simp
  | error e' c =>
    constructor
    · intro h
      cases h
      exact ⟨c, rfl, rfl⟩
    · rintro ⟨_, h, rfl⟩
      cases h
      rfl
  | mismatch => simp

/-- **The end of an iteration.** It succeeds exactly when all lengths fit, and then the adjoint of the change
    of the drawn block's dual variable is added to `z`, and to `z̄` once more over the block's probability. -/
theorem accumulate_eq_some_iff {m m' : Spdhg S σ} {i : Nat} {b : DualBlock S} :
    m.accumulate i b = some m' ↔ ∃ c delta, b.commit = some c ∧
      c.operator.adjointInto c.spare m.scratch = some delta ∧ m.z.length = delta.length ∧
      m.z.length = m.zbar.length ∧ m' = { m with
        blocks := m.blocks.set i c
        scratch := delta
        z := List.zipWith (· + ·) m.z delta
        zbar := List.zipWith (fun z d => z + 1 / c.weight * d) (List.zipWith (· + ·) m.z delta) delta
        iteration := m.iteration + 1 } := by
  simp only [accumulate, Option.bind_eq_bind, Option.bind_eq_some_iff, Option.pure_def, Option.some.injEq]
  constructor
  · rintro ⟨c, hc, delta, hdelta, z, hz, ahead, hahead, zbar, hzbar, rfl⟩
    obtain ⟨hzl, rfl⟩ := Vec.zip?_eq_some_iff.mp hz
    obtain ⟨hal, rfl⟩ := Vec.zip?_eq_some_iff.mp hahead
    obtain ⟨hbl, rfl⟩ := Vec.write?_eq_some_iff.mp hzbar
    refine ⟨c, delta, hc, hdelta, hzl, ?_, rfl⟩
    rw [← hbl]
    exact (Vec.length_zipWith_of_length (Vec.length_zipWith_of_length rfl hzl.symm) hzl.symm).symm
  · rintro ⟨c, delta, hc, hdelta, hzl, hbl, rfl⟩
    -- with `z` as long as the increment, the sum and the extrapolation have the same length again
    have hsum : (List.zipWith (· + ·) m.z delta).length = m.z.length :=
      Vec.length_zipWith_of_length rfl hzl.symm
    refine ⟨c, hc, delta, hdelta, _, Vec.zip?_eq_some_iff.mpr ⟨hzl, rfl⟩, _,
      Vec.zip?_eq_some_iff.mpr ⟨hsum.trans hzl, rfl⟩, _, Vec.write?_eq_some_iff.mpr ⟨?_, rfl⟩, rfl⟩
    exact (Vec.length_zipWith_of_length hsum hzl.symm).trans hbl

variable [IndexSource σ W]

/-- The index that the source names next. -/
def nextIndex (m : Spdhg S σ) : Nat := (IndexSource.next m.source).1

/-- The source after it has named one more index. -/
def nextSource (m : Spdhg S σ) : σ := (IndexSource.next m.source).2

omit [Scalar S] in
theorem drawPhase_eq_ok_iff {m m' : Spdhg S σ} {i : Nat} {b : DualBlock S} :
    m.drawPhase = .ok (i, b) m' ↔
      i = m.nextIndex ∧ m.blocks[i]? = some b ∧ m' = { m with source := m.nextSource } := by
  unfold drawPhase nextIndex nextSource
  dsimp only
  split
  · next c hc =>
    simp only [Outcome.ok.injEq, Prod.mk.injEq]
    constructor
    · rintro ⟨⟨rfl, rfl⟩, rfl⟩
      exact ⟨rfl, hc, rfl⟩
    · rintro ⟨rfl, hb, rfl⟩
      exact ⟨⟨rfl, Option.some.inj (hc.symm.trans hb)⟩, rfl⟩
  · next hc =>
    simp only [reduceCtorEq, false_iff]
    rintro ⟨rfl, hb, -⟩
    rw [hc] at hb
    cases hb

omit [Scalar S] in
theorem drawPhase_eq_error_iff {m m' : Spdhg S σ} {e : Error} :
    m.drawPhase = .error e m' ↔ m.blocks[m.nextIndex]? = none ∧
      e = .subsetOutOfRange m.nextIndex m.blocks.length ∧ m' = { m with source := m.nextSource } := by
  unfold drawPhase nextIndex nextSource
  dsimp only
  split
  · next c hc => simp [hc]
  · next hc =>
    simp only [hc, Outcome.error.injEq, true_and]
    exact ⟨fun ⟨he, hm⟩ => ⟨he.symm, hm.symm⟩, fun ⟨he, hm⟩ => ⟨he.symm, hm.symm⟩⟩

/-! ## The whole iteration -/

/-- **An iteration succeeds exactly when every phase does.** -/
theorem update_eq_ok_iff {m m' : Spdhg S σ} :
    m.update = .ok () m' ↔ ∃ point x b b', m.forwardPoint? = some point ∧
      m.primalTerm.proximalInto point m.tau m.x = .ok () x ∧ m.blocks[m.nextIndex]? = some b ∧
      b.ascend x = .ok () b' ∧
      accumulate { m with x := x, scratch := point, source := m.nextSource } m.nextIndex b' = some m' := by
  unfold update
  rw [Outcome.bind_eq_ok_iff]
  constructor
  · rintro ⟨⟨⟩, m₁, hprimal, h⟩
    obtain ⟨point, x, hpoint, hx, rfl⟩ := primalPhase_eq_ok_iff.mp hprimal
    obtain ⟨⟨i, b⟩, m₂, hdraw, h⟩ := Outcome.bind_eq_ok_iff.mp h
    obtain ⟨rfl, hb, rfl⟩ := drawPhase_eq_ok_iff.mp hdraw
    obtain ⟨b', m₃, hdual, h⟩ := Outcome.bind_eq_ok_iff.mp h
    obtain ⟨hascend, rfl⟩ := dualPhase_eq_ok_iff.mp hdual
    exact ⟨point, x, b, b', hpoint, hx, hb, hascend, Outcome.put_eq_ok_iff.mp h⟩
  · rintro ⟨point, x, b, b', hpoint, hx, hb, hascend, h⟩
    refine ⟨(), _, primalPhase_eq_ok_iff.mpr ⟨point, x, hpoint, hx, rfl⟩, ?_⟩
    refine Outcome.bind_eq_ok_iff.mpr ⟨(m.nextIndex, b), _, drawPhase_eq_ok_iff.mpr ⟨rfl, hb, rfl⟩, ?_⟩
    refine Outcome.bind_eq_ok_iff.mpr ⟨b', _, dualPhase_eq_ok_iff.mpr ⟨hascend, rfl⟩, ?_⟩
    exact Outcome.put_eq_ok_iff.mpr h

/-- **A successful iteration, equation by equation.** `point` is the primal forward point, `ascent` the dual
    one, and `y` the next dual variable of the drawn block. The buffer of the block keeps the change of it,
    and the scratch buffer the adjoint `delta` of that change. -/
theorem update_eq_ok_iff_equations {m m' : Spdhg S σ} :
    m.update = .ok () m' ↔ ∃ point x b image ascent y delta, m.forwardPoint? = some point ∧
      m.primalTerm.proximalInto point m.tau m.x = .ok () x ∧ m.blocks[m.nextIndex]? = some b ∧
      b.operator.directInto x b.image = some image ∧
      Vec.zip? (fun a y => y + b.sigma * a) image b.dual = some ascent ∧
      b.term.proximalConjugateInto ascent b.sigma b.spare = .ok () y ∧ b.dual.length = y.length ∧
      b.operator.adjointInto (List.zipWith (fun old new => new - old) b.dual y) point = some delta ∧
      m.z.length = delta.length ∧ m.z.length = m.zbar.length ∧ m' = { m with
        blocks := m.blocks.set m.nextIndex { b with
          dual := y
          spare := List.zipWith (fun old new => new - old) b.dual y
          image := ascent }
        source := m.nextSource
        x := x
        scratch := delta
        z := List.zipWith (· + ·) m.z delta
        zbar := List.zipWith (fun z d => z + 1 / b.weight * d) (List.zipWith (· + ·) m.z delta) delta
        iteration := m.iteration + 1 } := by
  rw [update_eq_ok_iff]
  constructor
  · rintro ⟨point, x, b, b', hpoint, hx, hb, hascend, hacc⟩
    obtain ⟨image, ascent, y, himage, hascent, hy, rfl⟩ := DualBlock.ascend_eq_ok_iff.mp hascend
    obtain ⟨c, delta, hc, hdelta, hzl, hbl, rfl⟩ := accumulate_eq_some_iff.mp hacc
    obtain ⟨hl, rfl⟩ := DualBlock.commit_eq_some_iff.mp hc
    exact ⟨point, x, b, image, ascent, y, delta, hpoint, hx, hb, himage, hascent, hy, hl, hdelta, hzl,
      hbl, rfl⟩
  · rintro ⟨point, x, b, image, ascent, y, delta, hpoint, hx, hb, himage, hascent, hy, hl, hdelta, hzl,
      hbl, rfl⟩
    refine ⟨point, x, b, _, hpoint, hx, hb,
      DualBlock.ascend_eq_ok_iff.mpr ⟨image, ascent, y, himage, hascent, hy, rfl⟩, ?_⟩
    exact accumulate_eq_some_iff.mpr
      ⟨_, delta, DualBlock.commit_eq_some_iff.mpr ⟨hl, rfl⟩, hdelta, hzl, hbl, rfl⟩

/-- **An iteration fails in one of three ways:** in the proximal map of `g`, before an index is drawn; on an
    index without a block; or in the proximal map of the drawn block's conjugate. -/
theorem update_eq_error_iff {m m' : Spdhg S σ} {e : Error} :
    m.update = .error e m' ↔ ∃ point x, m.forwardPoint? = some point ∧
      ((m.primalTerm.proximalInto point m.tau m.x = .error e x ∧ m' = { m with x := x, scratch := point }) ∨
        (m.primalTerm.proximalInto point m.tau m.x = .ok () x ∧ m.blocks[m.nextIndex]? = none ∧
          e = .subsetOutOfRange m.nextIndex m.blocks.length ∧
          m' = { m with x := x, scratch := point, source := m.nextSource }) ∨
        (m.primalTerm.proximalInto point m.tau m.x = .ok () x ∧
          ∃ b b', m.blocks[m.nextIndex]? = some b ∧ b.ascend x = .error e b' ∧
            m' = { m with
              x := x
              scratch := point
              source := m.nextSource
              blocks := m.blocks.set m.nextIndex b' })) := by
  unfold update
  rw [Outcome.bind_eq_error_iff]
  constructor
  -- an index is drawn after the primal step only, so that the source moves in the last two cases
  · rintro (hprimal | ⟨⟨⟩, m₁, hprimal, h⟩)
    · obtain ⟨point, x, hpoint, hx, rfl⟩ := primalPhase_eq_error_iff.mp hprimal
      exact ⟨point, x, hpoint, Or.inl ⟨hx, rfl⟩⟩
    · obtain ⟨point, x, hpoint, hx, rfl⟩ := primalPhase_eq_ok_iff.mp hprimal
      refine ⟨point, x, hpoint, Or.inr ?_⟩
      rcases Outcome.bind_eq_error_iff.mp h with hdraw | ⟨⟨i, b⟩, m₂, hdraw, h⟩
      · obtain ⟨hb, rfl, rfl⟩ := drawPhase_eq_error_iff.mp hdraw
        exact Or.inl ⟨hx, hb, rfl, rfl⟩
      · obtain ⟨rfl, hb, rfl⟩ := drawPhase_eq_ok_iff.mp hdraw
        rcases Outcome.bind_eq_error_iff.mp h with hdual | ⟨b', m₃, hdual, h⟩
        · obtain ⟨b', hascend, rfl⟩ := dualPhase_eq_error_iff.mp hdual
          exact Or.inr ⟨hx, b, b', hb, hascend, rfl⟩
        · -- the last phase has no error of its own
          exact absurd h Outcome.put_ne_error
  · rintro ⟨point, x, hpoint, ⟨hx, rfl⟩ | ⟨hx, hb, rfl, rfl⟩ | ⟨hx, b, b', hb, hascend, rfl⟩⟩
    · exact Or.inl (primalPhase_eq_error_iff.mpr ⟨point, x, hpoint, hx, rfl⟩)
    · refine Or.inr ⟨(), _, primalPhase_eq_ok_iff.mpr ⟨point, x, hpoint, hx, rfl⟩, ?_⟩
      exact Outcome.bind_eq_error_iff.mpr (Or.inl (drawPhase_eq_error_iff.mpr ⟨hb, rfl, rfl⟩))
    · refine Or.inr ⟨(), _, primalPhase_eq_ok_iff.mpr ⟨point, x, hpoint, hx, rfl⟩, ?_⟩
      refine Outcome.bind_eq_error_iff.mpr
        (Or.inr ⟨(m.nextIndex, b), _, drawPhase_eq_ok_iff.mpr ⟨rfl, hb, rfl⟩, ?_⟩)
      exact Outcome.bind_eq_error_iff.mpr (Or.inl (dualPhase_eq_error_iff.mpr ⟨b', hascend, rfl⟩))

/-! ## Objectives -/

omit [IndexSource σ W] in
/-- **A record is made exactly when every value and conjugate is there.** -/
theorem recordObjective_eq_ok_iff {m m' : Spdhg S σ} :
    m.recordObjective = .ok () m' ↔ ∃ g primal dual blocks v c, m.primalTerm.value m.x = some g ∧
      blockObjectives m.x g 0 m.blocks = .ok (primal, dual) blocks ∧
      negatedAdjoint? { m with blocks := blocks } = some v ∧ m.primalTerm.conjugate v = .ok c ∧
      m' = { m with
        blocks := blocks
        scratch := v
        losses := m.losses.push ⟨primal, dual - c, primal - (dual - c)⟩ } := by
  unfold recordObjective
  cases hg : m.primalTerm.value m.x with
  | none => simp
  | some g =>
    dsimp only
    rw [Outcome.bind_eq_ok_iff]
    constructor
    · rintro ⟨⟨primal, dual⟩, m₁, hblocks, h⟩
      obtain ⟨blocks, hb, rfl⟩ := Outcome.mapState_eq_ok_iff.mp hblocks
      dsimp only at h
      split at h
      · cases h
      · next v hv =>
        obtain ⟨c, m₂, hc, h⟩ := Outcome.bind_eq_ok_iff.mp h
        cases hconj : m.primalTerm.conjugate v with
        | ok d =>
          rw [hconj] at hc
          cases hc
          cases h
          exact ⟨g, primal, dual, blocks, v, c, rfl, hb, hv, hconj, rfl⟩
        | error f => cases f <;> simp [hconj, Outcome.ofExcept] at hc
    · rintro ⟨_, primal, dual, blocks, v, c, ⟨⟩, hblocks, hv, hc, rfl⟩
      refine ⟨(primal, dual), _, Outcome.mapState_eq_ok_iff.mpr ⟨blocks, hblocks, rfl⟩, ?_⟩
      dsimp only
      rw [hv]
      dsimp only
      rw [hc]
      rfl

omit [IndexSource σ W] in
/-- A record fails on a block's conjugate, or on the conjugate of `g` when the blocks are done. -/
theorem recordObjective_eq_error {m m' : Spdhg S σ} {e : Error} (h : m.recordObjective = .error e m') :
    (∃ g blocks, blockObjectives m.x g 0 m.blocks = .error e blocks ∧ m' = { m with blocks := blocks }) ∨
      ∃ g primal dual blocks v, blockObjectives m.x g 0 m.blocks = .ok (primal, dual) blocks ∧
        negatedAdjoint? { m with blocks := blocks } = some v ∧
        m.primalTerm.conjugate v = .error (.error e) ∧ m' = { m with blocks := blocks, scratch := v } := by
  unfold recordObjective at h
  split at h
  · cases h
  · next g hg =>
    rcases Outcome.bind_eq_error_iff.mp h with hblocks | ⟨⟨primal, dual⟩, m₁, hblocks, h⟩
    · obtain ⟨blocks, hb, rfl⟩ := Outcome.mapState_eq_error_iff.mp hblocks
      exact Or.inl ⟨g, blocks, hb, rfl⟩
    · obtain ⟨blocks, hb, rfl⟩ := Outcome.mapState_eq_ok_iff.mp hblocks
      dsimp only at h
      split at h
      · cases h
      · next v hv =>
        -- the conjugate is asked for last, when the buffers have been written already
        refine Or.inr ⟨g, primal, dual, blocks, v, hb, hv, ?_⟩
        rcases Outcome.bind_eq_error_iff.mp h with hc | ⟨c, m₂, hc, h⟩
        · cases hconj : m.primalTerm.conjugate v with
          | ok d => simp [hconj, Outcome.ofExcept] at hc
          | error f =>
            cases f with
            | error e' =>
              rw [hconj] at hc
              cases hc
              exact ⟨rfl, rfl⟩
            | mismatch => simp [hconj, Outcome.ofExcept] at hc
        · cases h

end Spdhg

end Splitting
