import Splitting.Proofs.PrimalDual.Phases

/-!
# `Splitting.Proofs.PrimalDual.Frames` — what a call leaves as it was

A failed iteration, a record of the objectives and a change of the steps may all write into buffers, but
none of them moves a dual variable, `z` or `z̄`. Of a buffer they keep the length. This module states that
once, so that an invariant about anything else than the contents of buffers survives these calls for free.

* `DualBlock.outline`, `DualBlock.imageless` — a block without the contents of its buffers, or of the image only;
* `Spdhg.frame_of_update_error`, `Spdhg.frame_of_recordObjective`, `Spdhg.map_blocks_withSteps` — the three
  frames.
-/

namespace Splitting

variable {S W σ : Type}

/-- Replacing an entry by one with the same image under `g` keeps the images. -/
theorem map_set_of_eq {α β : Type} {g : α → β} {l : List α} {i : Nat} {a a' : α} (ha : l[i]? = some a)
    (hg : g a' = g a) : (l.set i a').map g = l.map g := by
  obtain ⟨hi, rfl⟩ := List.getElem?_eq_some_iff.mp ha
  rw [List.map_set, hg, ← List.getElem_map g (h := by simpa using hi), List.set_getElem_self]

/-- What holds of all entries of a list holds of all entries of a list with the same images, if it can be read
    off the images. -/
theorem forall_mem_of_map_eq {α β : Type} {g : α → β} {p : α → Prop} (hp : ∀ a b, g b = g a → p a → p b)
    {l l' : List α} (h : l'.map g = l.map g) (hl : ∀ a ∈ l, p a) : ∀ b ∈ l', p b := by
  intro b hb
  have hmem : g b ∈ l.map g := h ▸ List.mem_map_of_mem hb
  obtain ⟨a, ha, hab⟩ := List.mem_map.mp hmem
  exact hp a b hab.symm (hl a ha)

/-! ## Blocks without the contents of their buffers -/

namespace DualBlock

/-- The block with its buffers emptied, and the lengths that they had. -/
def outline (b : DualBlock S) : DualBlock S × Nat × Nat :=
  ({ b with spare := [], image := [] }, b.spare.length, b.image.length)

/-- Blocks with one outline differ in the contents of their buffers only. -/
theorem outline_eq_iff {b c : DualBlock S} : c.outline = b.outline ↔ c.term = b.term ∧
    c.operator = b.operator ∧ c.weight = b.weight ∧ c.norm = b.norm ∧ c.sigma = b.sigma ∧
    c.dual = b.dual ∧ c.spare.length = b.spare.length ∧ c.image.length = b.image.length := by
  simp only [outline, Prod.mk.injEq, DualBlock.mk.injEq, and_true, and_assoc]

theorem outline_of_buffers {b : DualBlock S} {spare image : Vec S} (hs : spare.length = b.spare.length)
    (hi : image.length = b.image.length) : outline { b with spare := spare, image := image } = b.outline := by
  simp only [outline, hs, hi]

/-- The block with its image buffer emptied, and the length that it had. -/
def imageless (b : DualBlock S) : DualBlock S × Nat := ({ b with image := [] }, b.image.length)

theorem imageless_eq_iff {b c : DualBlock S} : c.imageless = b.imageless ↔
    ∃ image, image.length = b.image.length ∧ c = { b with image := image } := by
  simp only [imageless, Prod.mk.injEq]
  constructor
  · rintro ⟨hsame, hl⟩
    refine ⟨c.image, hl, ?_⟩
    calc c = { ({ c with image := [] } : DualBlock S) with image := c.image } := rfl
      _ = { b with image := c.image } := by rw [hsame]
  · rintro ⟨image, hl, rfl⟩
    exact ⟨rfl, hl⟩

/-- Blocks that differ in the contents of their image buffers only have one outline. -/
theorem map_outline_of_map_imageless {bs bs' : List (DualBlock S)} (h : bs'.map imageless = bs.map imageless) :
    bs'.map outline = bs.map outline := by
  have hemptied := congrArg (List.map fun p => ((outline p.1).1, p.1.spare.length, p.2)) h
  rwa [List.map_map, List.map_map] at hemptied

variable [Scalar S]

/-- The dual step of a block, successful or not, writes into its buffers only. -/
theorem outline_of_ascend {b b' : DualBlock S} {x : Vec S} (h : (b.ascend x).state? = some b') :
    b'.outline = b.outline := by
  have hbuffers : ∀ {image point y : Vec S}, b.operator.directInto x b.image = some image →
      Vec.zip? (fun a y => y + b.sigma * a) image b.dual = some point → y.length = b.spare.length →
      outline { b with spare := y, image := point } = b.outline := by
    intro image point y himage hpoint hy
    exact outline_of_buffers hy
      ((Vec.length_of_zip? hpoint).trans (LinearOperator.length_of_directInto himage))
  rcases Outcome.state?_eq_some_iff.mp h with ⟨⟨⟩, h⟩ | ⟨e, h⟩
  · obtain ⟨image, point, y, himage, hpoint, hy, rfl⟩ := ascend_eq_ok_iff.mp h
    exact hbuffers himage hpoint (Functional.length_of_sameLength hy)
  · obtain ⟨image, point, y, himage, hpoint, hy, rfl⟩ := ascend_eq_error_iff.mp h
    exact hbuffers himage hpoint (Functional.sameLength_eq_error_iff.mp hy).2

end DualBlock

namespace Spdhg

variable [Scalar S]

/-! ## The frames -/

/-- **A failed iteration** moves `x`, the source and buffers. -/
theorem frame_of_update_error [IndexSource σ W] {m m' : Spdhg S σ} {e : Error} (h : m.update = .error e m') :
    ∃ x scratch source blocks,
      m' = { m with x := x, scratch := scratch, source := source, blocks := blocks } ∧
      x.length = m.x.length ∧ scratch.length = m.scratch.length ∧
      blocks.map DualBlock.outline = m.blocks.map DualBlock.outline := by
  obtain ⟨point, x, hpoint, h⟩ := update_eq_error_iff.mp h
  -- the forward point is in the scratch buffer, whichever way the iteration fails
  have hlen : point.length = m.scratch.length := by
    obtain ⟨hz, hs, rfl⟩ := forwardPoint?_eq_some_iff.mp hpoint
    exact Vec.length_zipWith_of_length hs (hz.symm.trans hs)
  rcases h with ⟨hx, rfl⟩ | ⟨hx, -, -, rfl⟩ | ⟨hx, b, b', hb, hascend, rfl⟩
  · exact ⟨x, point, m.source, m.blocks, rfl, (Functional.sameLength_eq_error_iff.mp hx).2, hlen, rfl⟩
  · exact ⟨x, point, m.nextSource, m.blocks, rfl, Functional.length_of_sameLength hx, hlen, rfl⟩
  · refine ⟨x, point, m.nextSource, _, rfl, Functional.length_of_sameLength hx, hlen, ?_⟩
    exact map_set_of_eq hb (DualBlock.outline_of_ascend (by rw [hascend]; rfl))

/-- The objectives of the blocks write into the image buffers only. -/
theorem imageless_of_blockObjectives {x : Vec S} {primal dual : S} {bs bs' : List (DualBlock S)}
    (h : (blockObjectives x primal dual bs).state? = some bs') :
    bs'.map DualBlock.imageless = bs.map DualBlock.imageless := by
  -- the blocks before a failure have new images in their buffers, and those after it are untouched
  induction bs generalizing primal dual bs' with
  | nil =>
    cases h
    rfl
  | cons b rest ih =>
    rw [blockObjectives] at h
    split at h
    · cases h
    · next image himage =>
      have hb : DualBlock.imageless { b with image := image } = b.imageless := by
        rw [DualBlock.imageless, DualBlock.imageless, LinearOperator.length_of_directInto himage]
      dsimp only at h
      split at h
      · cases h
      · cases h
      · cases h
        rw [List.map_cons, List.map_cons, hb]
      · next a c _ _ =>
        rw [Outcome.state?_mapState] at h
        obtain ⟨bs₁, hrest, rfl⟩ := Option.map_eq_some_iff.mp h
        rw [List.map_cons, List.map_cons, hb, ih hrest]

theorem outline_of_blockObjectives {x : Vec S} {primal dual : S} {bs bs' : List (DualBlock S)}
    (h : (blockObjectives x primal dual bs).state? = some bs') :
    bs'.map DualBlock.outline = bs.map DualBlock.outline :=
  DualBlock.map_outline_of_map_imageless (imageless_of_blockObjectives h)

theorem length_of_adjointSum? {total scratch v : Vec S} {pairs : List (LinearOperator S × Vec S)}
    (h : LinearOperator.adjointSum? total scratch pairs = some v) : v.length = total.length := by
  induction pairs generalizing total scratch with
  | nil =>
    cases h
    rfl
  | cons p rest ih =>
    obtain ⟨op, y⟩ := p
    simp only [LinearOperator.adjointSum?, Option.bind_eq_bind, Option.bind_eq_some_iff] at h
    obtain ⟨scratch', -, spread, -, total', htotal, h⟩ := h
    exact (ih h).trans (Vec.length_of_zip? htotal)

theorem length_of_negatedAdjoint? {m : Spdhg S σ} {v : Vec S} (h : m.negatedAdjoint? = some v) :
    v.length = m.scratch.length := by
  obtain ⟨w, hw, rfl⟩ := Option.map_eq_some_iff.mp h
  rw [List.length_map, length_of_adjointSum? hw, Vec.length_zeros]

/-- The contents of buffers and the records do not enter the adjoint. -/
theorem negatedAdjoint?_of_map_outline {m : Spdhg S σ} {scratch : Vec S} {blocks : List (DualBlock S)}
    {losses : Array (ObjectiveRecord S)} (hlength : scratch.length = m.scratch.length)
    (h : blocks.map DualBlock.outline = m.blocks.map DualBlock.outline) :
    negatedAdjoint? { m with scratch := scratch, blocks := blocks, losses := losses } = m.negatedAdjoint? := by
  have hpairs := congrArg (List.map fun o => (o.1.operator, o.1.dual)) h
  rw [List.map_map, List.map_map] at hpairs
  unfold negatedAdjoint?
  rw [hlength]
  exact congrArg (fun pairs => (LinearOperator.adjointSum? (Vec.zeros m.scratch.length)
    (Vec.zeros m.domainDim) pairs).map fun v => v.map (- ·)) hpairs

/-- **A record of the objectives,** made or failed, moves the scratch buffer, the image buffers and the
    records. -/
theorem images_of_recordObjective {m m' : Spdhg S σ} (h : m.recordObjective.state? = some m') :
    ∃ scratch blocks losses, m' = { m with scratch := scratch, blocks := blocks, losses := losses } ∧
      scratch.length = m.scratch.length ∧
      blocks.map DualBlock.imageless = m.blocks.map DualBlock.imageless := by
  rcases Outcome.state?_eq_some_iff.mp h with ⟨⟨⟩, h⟩ | ⟨e, h⟩
  · obtain ⟨g, primal, dual, blocks, v, c, -, hb, hv, -, rfl⟩ := recordObjective_eq_ok_iff.mp h
    exact ⟨v, blocks, _, rfl, length_of_negatedAdjoint? (m := { m with blocks := blocks }) hv,
      imageless_of_blockObjectives (by rw [hb]; rfl)⟩
  · rcases recordObjective_eq_error h with
      ⟨g, blocks, hb, rfl⟩ | ⟨g, primal, dual, blocks, v, hb, hv, -, rfl⟩
    · exact ⟨m.scratch, blocks, m.losses, rfl, rfl, imageless_of_blockObjectives (by rw [hb]; rfl)⟩
    · exact ⟨v, blocks, m.losses, rfl, length_of_negatedAdjoint? (m := { m with blocks := blocks }) hv,
        imageless_of_blockObjectives (by rw [hb]; rfl)⟩

/-- Of all buffers it keeps the length. -/
theorem frame_of_recordObjective {m m' : Spdhg S σ} (h : m.recordObjective.state? = some m') :
    ∃ scratch blocks losses, m' = { m with scratch := scratch, blocks := blocks, losses := losses } ∧
      scratch.length = m.scratch.length ∧ blocks.map DualBlock.outline = m.blocks.map DualBlock.outline := by
  obtain ⟨scratch, blocks, losses, rfl, hlength, hblocks⟩ := images_of_recordObjective h
  exact ⟨scratch, blocks, losses, rfl, hlength, DualBlock.map_outline_of_map_imageless hblocks⟩

omit [Scalar S] in
/-- **A change of the steps** moves nothing else of any block. -/
theorem map_blocks_withSteps {β : Type} {g : DualBlock S → β} (hg : ∀ b s, g { b with sigma := s } = g b)
    {m : Spdhg S σ} {steps : List S × S} (hlen : steps.1.length = m.blocks.length) :
    (m.withSteps steps).blocks.map g = m.blocks.map g := by
  rw [withSteps]
  dsimp only
  rw [List.map_zipWith]
  simp only [hg]
  rw [← List.map_uncurry_zip_eq_zipWith]
  have h : (m.blocks.zip steps.1).map (Function.uncurry fun b _ => g b) =
      ((m.blocks.zip steps.1).map Prod.fst).map g := by
    rw [List.map_map]
    rfl
  rw [h, List.map_fst_zip (Nat.le_of_eq hlen.symm)]

end Spdhg

end Splitting
