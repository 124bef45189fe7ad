import Splitting.Proofs.Functional.ConjugateMaps
import Splitting.Proofs.PrimalDual.OtherTerms

/-!
# `Splitting.Proofs.PrimalDual.DerivedConjugates` — conjugate maps that follow from proximal maps

One-norms and squared distances come with a closed form of the proximal map of the conjugate. A function that has
its value and proximal map only gets that map by Moreau's identity. In exact arithmetic both give the same vector,
in any buffer, and both break off on the same lengths. So the primal-dual method does not depend on which of them its
blocks use: the iterates are the same.

* `BasicTerm.proximalConjugateInto_proximalOnly` — the two maps;
* `Functional.proximalOnlyAt`, `Spdhg.ClosedForms` — functions reduced to their values and proximal maps;
* `Spdhg.record_proximalOnly`, `Spdhg.ClosedForms.shown_comparable` — such a method cannot record its objective, and
  until then runs the same;
* `derived_conjugates_give_same_iterates` — the main statement.
-/

namespace Splitting

variable {σ : Type}

/-! ## The two maps -/

theorem Outcome.eq_mismatch {τ : Type} {o : Outcome τ Unit} (hok : ∀ s, o ≠ .ok () s)
    (herror : ∀ e s, o ≠ .error e s) : o = .mismatch := by
  cases o with
  | ok _ s => exact absurd rfl (hok s)
  | error e s => exact absurd rfl (herror e s)
  | mismatch => rfl

/-- An operation place by place needs a centre as long as the point, and keeps the length. -/
theorem SquaredDistance.fits_of_entries {f : SquaredDistance ℝ} {plain : ℝ → ℝ} {shifted : ℝ → ℝ → ℝ}
    {x w : Vec ℝ} (h : f.entries plain shifted x = some w) :
    (∀ b ∈ f.center, b.length = x.length) ∧ w.length = x.length := by
  obtain ⟨c, center⟩ := f
  cases center with
  | none =>
    cases h
    exact ⟨fun _ hb => (Option.not_mem_none _ hb).elim, List.length_map _⟩
  | some l =>
    obtain ⟨hl, rfl⟩ := Vec.zip?_eq_some_iff.mp h
    refine ⟨fun b hb => ?_, Vec.length_zipWith_of_length rfl hl.symm⟩
    cases hb
    exact hl.symm

namespace BasicTerm

variable {t : BasicTerm ℝ} {x y out v : Vec ℝ} {a : ℝ}

/-- What is written into the buffer fits it. -/
theorem fits_of_overwrite {w? : Option (Vec ℝ)} (hw : ∀ w, w? = some w → t.Fits x.length ∧ w.length = x.length)
    (h : Functional.sameLength out (Functional.overwrite out w?) = .ok () v) :
    t.Fits x.length ∧ out.length = x.length := by
  obtain ⟨hwritten, hout⟩ := Functional.sameLength_eq_ok_iff.mp h
  obtain ⟨hv, -⟩ := Functional.overwrite_eq_ok_iff.mp hwritten
  obtain ⟨hfit, hlength⟩ := hw v hv
  exact ⟨hfit, hout.symm.trans hlength⟩

theorem fits_of_proximalInto (h : t.functional.proximalInto x a out = .ok () v) :
    t.Fits x.length ∧ out.length = x.length := by
  cases t with
  | oneNorm f =>
    refine fits_of_overwrite (t := oneNorm f) (fun w hw => ?_) h
    cases hw
    exact ⟨trivial, List.length_map _⟩
  | squaredDistance f => exact fits_of_overwrite (fun w hw => SquaredDistance.fits_of_entries hw) h

theorem fits_of_proximalConjugateInto (h : t.functional.proximalConjugateInto y a out = .ok () v) :
    t.Fits y.length ∧ out.length = y.length := by
  cases t with
  | oneNorm f =>
    refine fits_of_overwrite (t := oneNorm f) (fun w hw => ?_) h
    cases hw
    exact ⟨trivial, List.length_map _⟩
  | squaredDistance f => exact fits_of_overwrite (fun w hw => SquaredDistance.fits_of_entries hw) h

/-- The derived map goes through the proximal map at a point of the same length. -/
theorem fits_of_derived (h : t.functional.proximalOnly.proximalConjugateInto y a out = .ok () v) :
    t.Fits y.length ∧ out.length = y.length := by
  obtain ⟨h, -⟩ := Functional.sameLength_eq_ok_iff.mp h
  obtain ⟨⟨⟩, w, hproximal, -⟩ := Outcome.bind_eq_ok_iff.mp h
  have hfits := fits_of_proximalInto (t := t) hproximal
  rwa [List.length_map] at hfits

theorem derived_ne_error {e : Error} : t.functional.proximalOnly.proximalConjugateInto y a out ≠ .error e v := by
  intro h
  obtain ⟨h, -⟩ := Functional.sameLength_eq_error_iff.mp h
  rcases Outcome.bind_eq_error_iff.mp h with h | ⟨⟨⟩, w, -, h⟩
  · exact proximal_ne_error t (Functional.sameLength_eq_error_iff.mp h).1
  · exact Outcome.put_ne_error h

/-- Where the lengths fit, both maps have a value, and it is the same. -/
theorem exists_proximalConjugateInto (ht : t.Proper) (hfit : t.Fits y.length) (hout : out.length = y.length)
    (ha : 0 < a) : ∃ v, t.functional.proximalConjugateInto y a out = .ok () v ∧
      t.functional.proximalOnly.proximalConjugateInto y a out = .ok () v := by
  obtain ⟨P, hP⟩ := exists_proximalOn ht hfit
  obtain ⟨p, hp⟩ := Vec.exists_ofPoint (rfl : y.length = y.length)
  have hclosed := hP.proximalConjugate a p out ha hout
  have hderived := Functional.computesMap_moreau hP.proximal a p out ha hout
  rw [hp] at hclosed hderived
  exact ⟨_, hclosed, hderived⟩

/-- **The derived map is the closed form,** at any point and in any buffer. -/
theorem proximalConjugateInto_proximalOnly (ht : t.Proper) (ha : 0 < a) (y out : Vec ℝ) :
    t.functional.proximalOnly.proximalConjugateInto y a out = t.functional.proximalConjugateInto y a out := by
  by_cases hfits : t.Fits y.length ∧ out.length = y.length
  · obtain ⟨v, hclosed, hderived⟩ := exists_proximalConjugateInto ht hfits.1 hfits.2 ha
    rw [hclosed, hderived]
  · -- lengths that do not fit stop both
    have hderived : t.functional.proximalOnly.proximalConjugateInto y a out = .mismatch :=
      Outcome.eq_mismatch (fun s h => hfits (fits_of_derived h)) fun e s => derived_ne_error
    have hclosed : t.functional.proximalConjugateInto y a out = .mismatch :=
      Outcome.eq_mismatch (fun s h => hfits (fits_of_proximalConjugateInto h)) fun e s h =>
        proximalConjugate_ne_error t (Functional.sameLength_eq_error_iff.mp h).1
    rw [hderived, hclosed]

end BasicTerm

/-! ## Methods -/

/-- The functions of the blocks in `J` reduced to their values and proximal maps. -/
def Functional.proximalOnlyAt {S : Type} [Scalar S] (J : ℕ → Bool) (i : ℕ) (f : Functional S) : Functional S :=
  if J i then f.proximalOnly else f

namespace Spdhg

/-- The blocks in `J` have one-norms and squared distances for their functions, and positive dual steps. -/
def ClosedForms (J : ℕ → Bool) (m : Spdhg ℝ σ) : Prop :=
  ∀ i b, m.blocks[i]? = some b → J i = true → 0 < b.sigma ∧ ∃ t : BasicTerm ℝ, t.Proper ∧ b.term = t.functional

theorem ClosedForms.of_termSteps {J : ℕ → Bool} {m n : Spdhg ℝ σ} (h : m.ClosedForms J)
    (hsame : n.termSteps = m.termSteps) : n.ClosedForms J := by
  intro i c hc hi
  obtain ⟨b, hb, hterm, hsigma⟩ := exists_block_of_termSteps hsame hc
  rw [← hterm, ← hsigma]
  exact h i b hb hi

theorem ClosedForms.keepsDualMaps {J : ℕ → Bool} {m : Spdhg ℝ σ} (h : m.ClosedForms J) :
    m.KeepsDualMaps (Functional.proximalOnlyAt J) := by
  intro i b hb y out
  unfold Functional.proximalOnlyAt
  split
  · next hi =>
    obtain ⟨hsigma, t, ht, hterm⟩ := h i b hb hi
    rw [hterm]
    exact BasicTerm.proximalConjugateInto_proximalOnly ht hsigma y out
  · rfl

section

variable {S : Type} [Scalar S]

/-- The objectives of the blocks take every conjugate. -/
theorem exists_conjugate_of_blockObjectives {x : Vec S} {p d : S} {bs bs' : List (DualBlock S)} {v : S × S}
    (h : blockObjectives x p d bs = .ok v bs') : ∀ b ∈ bs, ∃ c, b.term.conjugate b.dual = .ok c := by
  induction bs generalizing p d bs' with
  | nil => simp
  | cons b rest ih =>
    rw [blockObjectives] at h
    split at h
    · cases h
    · dsimp only at h
      split at h
      · cases h
      · cases h
      · cases h
      · next c _ hconjugate =>
        obtain ⟨bs₁, hrest, -⟩ := Outcome.mapState_eq_ok_iff.mp h
        exact List.forall_mem_cons.mpr ⟨⟨c, hconjugate⟩, ih hrest⟩

/-- **No objectives are recorded** once a function is reduced: its conjugate is gone. -/
theorem record_proximalOnly {J : ℕ → Bool} {m : Spdhg S σ} {i : ℕ} (hi : i < m.blocks.length) (hJ : J i = true)
    (n : Spdhg S σ) : (m.withTerms (Functional.proximalOnlyAt J)).recordObjective ≠ .ok () n := by
  intro h
  obtain ⟨_, _, _, _, _, _, -, hblocks, -⟩ := recordObjective_eq_ok_iff.mp h
  have hmem : (m.blocks[i]).withTerm (Functional.proximalOnlyAt J) i ∈
      m.blocks.mapIdx (DualBlock.withTerm (Functional.proximalOnlyAt J)) :=
    List.mem_mapIdx.mpr ⟨i, hi, rfl⟩
  obtain ⟨c, hc⟩ := exists_conjugate_of_blockObjectives hblocks _ hmem
  simp [DualBlock.withTerm, Functional.proximalOnlyAt, hJ, Functional.proximalOnly, Functional.ofProximal] at hc

end

variable {W κ κ' : Type} [IndexSource σ W]

/-- **Runs with the same interval** show the same solutions, as far as both of them go, whatever the operators do with
    their buffers: the first record ends the run of the reduced method. -/
theorem ClosedForms.shown_comparable {J : ℕ → Bool} {m : Spdhg ℝ σ} (h : m.ClosedForms J)
    {budget budget' interval : ℕ} {watcher : Watcher κ ℝ} {watcher' : Watcher κ' ℝ} {memory : κ} {memory' : κ'}
    {r : Run (Spdhg ℝ σ) κ ℝ} {r' : Run (Spdhg ℝ σ) κ' ℝ}
    (hr : (run m budget interval watcher memory).state? = some r)
    (hr' : (run (m.withTerms (Functional.proximalOnlyAt J)) budget' interval watcher' memory').state? = some r') :
    r.shown <+: r'.shown ∨ r'.shown <+: r.shown := by
  have hlockstep := lockstep_withTerms h.keepsDualMaps
  refine hlockstep.shown_comparable (hlockstep.keepsTurns_of_records ?_) countsIterations ⟨rfl, rfl⟩ hr hr'
  rintro s _ s' t' ⟨rfl, hsame⟩ hrecord hrecord'
  have hlength : ∀ a : Spdhg ℝ σ, a.termSteps = m.termSteps → a.blocks.length = m.termSteps.length := by
    intro a ha
    rw [← ha, termSteps, List.length_map]
  by_cases hreduced : ∃ i < m.termSteps.length, J i = true
  · obtain ⟨i, hi, hJ⟩ := hreduced
    exact absurd hrecord' (record_proximalOnly (hi.trans_eq (hlength s hsame).symm) hJ t')
  · -- no function is reduced, and both records are the same
    have hself : ∀ a : Spdhg ℝ σ, a.termSteps = m.termSteps → a.withTerms (Functional.proximalOnlyAt J) = a := by
      refine fun a ha => withTerms_eq_self fun i b hb => if_neg fun hJ => hreduced ⟨i, ?_, hJ⟩
      exact (List.getElem?_eq_some_iff.mp hb).1.trans_eq (hlength a ha)
    have hsame' : s'.termSteps = m.termSteps := (termSteps_record (congrArg Outcome.state? hrecord)).trans hsame
    have hrecords : s.recordObjective = .ok () t' := by
      rw [← hself s hsame]
      exact hrecord'
    cases hrecords.symm.trans hrecord
    exact ⟨(hself _ hsame').symm, hsame'⟩

end Spdhg

/-! ## The main statement -/

/-- **Closed forms and derived maps are interchangeable** in exact arithmetic.

    Let a function be a one-norm with a radius that is not negative, or a squared distance with a positive scale,
    from a centre or from the origin. At any point, for any positive parameter and in any buffer, its closed form of
    the proximal map of the conjugate and the one that Moreau's identity derives from its proximal map end in the same
    way with the same vector; and there is a vector if the lengths fit.

    So take any of the blocks `J` of a primal-dual method, with such functions and positive dual steps, and reduce
    their functions to values and proximal maps. Methods that are built so differ in nothing else. Iterations, changes
    of the steps, and runs without records end in the same way, with the same trace and the same method but for the
    functions. Runs with the same interval show the same solutions as far as both of them go: a record that is due ends
    a run of the reduced method. So do runs with any intervals, if the operators write images that do not depend on
    what the buffer held. And no run changes that the functions and the dual steps are of this kind. -/
theorem derived_conjugates_give_same_iterates {W : Type} [Scalar W] [Precision ℝ W] [IndexSource σ W] :
    (∀ (t : BasicTerm ℝ) (y out : Vec ℝ) (tau : ℝ), t.Proper → 0 < tau →
      t.functional.proximalOnly.proximalConjugateInto y tau out = t.functional.proximalConjugateInto y tau out ∧
      (t.Fits y.length → out.length = y.length →
        ∃ v, t.functional.proximalConjugateInto y tau out = .ok () v)) ∧
    ∀ J : ℕ → Bool,
      (∀ setup : SpdhgSetup ℝ σ, (setup.withTerms (Functional.proximalOnlyAt J)).build =
        Spdhg.withTerms (Functional.proximalOnlyAt J) <$> setup.build) ∧
      ∀ m : Spdhg ℝ (BlockSource σ W), m.ClosedForms J →
        m.SameIterates (Functional.proximalOnlyAt J) ∧
        (∀ {κ κ' : Type} {budget budget' interval : ℕ} {watcher : Watcher κ ℝ} {watcher' : Watcher κ' ℝ} {memory : κ}
          {memory' : κ'} {r : Run (Spdhg ℝ (BlockSource σ W)) κ ℝ} {r' : Run (Spdhg ℝ (BlockSource σ W)) κ' ℝ},
          (run m budget interval watcher memory).state? = some r →
          (run (m.withTerms (Functional.proximalOnlyAt J)) budget' interval watcher' memory').state? = some r' →
          r.shown <+: r'.shown ∨ r'.shown <+: r.shown) ∧
        ∀ n, Used unchangeable m n → n.ClosedForms J := by
  refine ⟨fun t y out tau ht htau => ⟨?_, fun hfit hout => ?_⟩,
    fun J => ⟨fun setup => ?_, fun m hm => ⟨?_, hm.shown_comparable, ?_⟩⟩⟩
  · exact BasicTerm.proximalConjugateInto_proximalOnly ht htau y out
  · obtain ⟨v, hv, -⟩ := BasicTerm.exists_proximalConjugateInto ht hfit hout htau
    exact ⟨v, hv⟩
  · exact setup.build_withTerms (Functional.proximalOnlyAt J)
  · exact hm.keepsDualMaps.sameIterates
  · exact fun n hn => hm.of_termSteps (Spdhg.termSteps_used hn)

open Spdhg in
/-- Two blocks on the real line, with both functions reduced: the point 5 goes to the boundary of the unit box, and so
    does the first dual variable. -/
theorem derived_conjugates_give_same_iterates_on_the_line :
    (BasicTerm.oneNorm (⟨1⟩ : OneNorm ℝ)).Proper ∧ (0 : ℝ) < 2 ∧
    (OneNorm.functional ⟨1⟩).proximalOnly.proximalConjugateInto [5] 2 [0] = .ok () [(1 : ℝ)] ∧
    (oneDimensionalMethod 3 2 3).ClosedForms (fun _ => true) ∧ (oneDimensionalMethod 3 2 3).FillsImages ∧
    ((oneDimensional 3 2 3).withTerms (Functional.proximalOnlyAt fun _ => true)).build =
      .ok ((oneDimensionalMethod 3 2 3).withTerms (Functional.proximalOnlyAt fun _ => true)) ∧
    (∃ m, ((oneDimensionalMethod 3 2 3).withTerms (Functional.proximalOnlyAt fun _ => true)).update = .ok () m ∧
      m.duals = [[1], [0]]) ∧
    ∃ m, (oneDimensionalMethod 3 2 3).update = .ok () m ∧ m.ClosedForms fun _ => true := by
  have hclosed : (oneDimensionalMethod 3 2 3).ClosedForms (fun _ => true) := by
    intro i b hb _
    rcases List.mem_pair.mp (List.mem_of_getElem? hb) with rfl | rfl
    · exact ⟨one_pos, .oneNorm ⟨1⟩, zero_le_one, rfl⟩
    · exact ⟨one_pos, .squaredDistance .unit, one_pos, rfl⟩
  obtain ⟨hmaps, hmethods⟩ := derived_conjugates_give_same_iterates (σ := Sampler ℝ) (W := ℝ)
  obtain ⟨hbuild, hiterates⟩ := hmethods fun _ => true
  obtain ⟨hsame, -, hkeeps⟩ := hiterates (oneDimensionalMethod 3 2 3) hclosed
  obtain ⟨m, hupdate, hduals, -, -⟩ := oneDimensional_first_iteration
  have hmap : (OneNorm.functional ⟨1⟩).proximalConjugateInto [5] 2 [0] = .ok () [(1 : ℝ)] := by
    simp [Functional.proximalConjugateInto, OneNorm.functional, OneNorm.clip, Functional.sameLength_eq_ok_iff,
      Functional.overwrite_eq_ok_iff]
  have hreduced : ((oneDimensionalMethod 3 2 3).withTerms (Functional.proximalOnlyAt fun _ => true)).update =
      .ok () (m.withTerms (Functional.proximalOnlyAt fun _ => true)) := by
    rw [hsame.update, hupdate]
    rfl
  refine ⟨zero_le_one, two_pos, ?_, hclosed, fillsImages_oneDimensional 3 2 3, ?_,
    ⟨_, hreduced, (duals_withTerms _ m).trans hduals⟩, m, hupdate, ?_⟩
  · exact (hmaps (.oneNorm ⟨1⟩) [5] [0] 2 zero_le_one two_pos).1.trans hmap
  · rw [hbuild, build_oneDimensional]
    rfl
  · exact hkeeps m (.call (c := .update) .start (congrArg Outcome.state? hupdate))

end Splitting
