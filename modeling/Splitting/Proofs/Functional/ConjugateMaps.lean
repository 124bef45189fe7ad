import Splitting.Proofs.Convex.Saddle
import Splitting.Proofs.Functional.OnPoints

/-!
# `Splitting.Proofs.Functional.ConjugateMaps` — proximal maps, conjugates and subgradients

The operations that a term offers to the primal-dual method belong to one convex function. In exact arithmetic
the proximal map of the conjugate is the one that the proximal map determines, whether it is derived from that
or has a closed form of its own; and the points to which a proximal map leads back are those at which the
inequality of Fenchel and Young holds with equality.

* `ComputesMap`, `Functional.computesMap_moreau` — an operation on points, and the derived conjugate map;
* `BasicTerm.Touches` — equality in the inequality of Fenchel and Young;
* `BasicTerm.ProximalOn`, `BasicTerm.exists_proximalOn` — the proximal maps of one-norms and squared distances;
* `BasicTerm.proximalInto_eq_self_iff`, `BasicTerm.proximalConjugateInto_eq_self_iff` — the points that they
  lead back to, among the extended reals.
-/

namespace Splitting

open scoped RealInnerProductSpace

variable {n : ℕ}

/-- An operation with a step computes the map `P` on points, in any buffer. -/
def ComputesMap (op : Vec ℝ → ℝ → Vec ℝ → Outcome (Vec ℝ) Unit) (P : ℝ → Space n → Space n) : Prop :=
  ∀ a x out, 0 < a → out.length = n → op (Vec.ofPoint x) a out = .ok () (Vec.ofPoint (P a x))

/-! ## The derived map -/

/-- **A proximal map determines that of the conjugate.** -/
theorem Functional.computesMap_moreau {f : Functional ℝ} {P : ℝ → Space n → Space n}
    (h : ComputesMap f.proximalInto P) : ComputesMap f.proximalOnly.proximalConjugateInto
      (Problem.conjugateMap P) := by
  intro a y out ha hout
  refine sameLength_ofPoint hout ?_
  have hscaled : (Vec.ofPoint y).map (· / a) = Vec.ofPoint ((1 / a) • y) :=
    Vec.map_ofPoint fun i => one_div_mul_eq_div a (y i)
  have hproximal := h (1 / a) ((1 / a) • y) out (one_div_pos.mpr ha) hout
  have hdisplacement : Vec.zip? (fun o b => b - a * o) (Vec.ofPoint (P (1 / a) ((1 / a) • y)))
      (Vec.ofPoint y) = some (Vec.ofPoint (Problem.conjugateMap P a y)) := Vec.zip?_ofPoint fun _ => rfl
  show moreau f.proximal _ _ _ = _
  rw [moreau, hscaled]
  show (f.proximalInto _ _ _).bind _ = _
  rw [hproximal, Outcome.bind_ok, hdisplacement]
  exact overwrite_ofPoint (Vec.length_ofPoint _) _

/-! ## Closed forms -/

/-- Thresholding takes off what clipping keeps. -/
theorem OneNorm.softThreshold_add_clip {f : OneNorm ℝ} (hf : 0 ≤ f.alpha) (v : ℝ) :
    softThreshold f.alpha v + f.clip v = v := by
  simp only [softThreshold, clip, scalar_signum, scalar_abs, scalar_max, scalar_min]
  rcases lt_or_ge v 0 with hv | hv
  · rw [if_pos hv, abs_of_neg hv]
    rcases le_total (-v) f.alpha with hle | hle
    · rw [max_eq_right (by linarith), max_eq_left (by linarith), min_eq_left (by linarith)]
      ring
    · rw [max_eq_left (by linarith), max_eq_right (by linarith), min_eq_left (by linarith)]
      ring
  · rw [if_neg hv.not_gt, abs_of_nonneg hv]
    rcases le_total v f.alpha with hle | hle
    · rw [max_eq_right (by linarith), max_eq_left (by linarith), min_eq_left hle]
      ring
    · rw [max_eq_left (by linarith), max_eq_left (by linarith), min_eq_right hle]
      ring

/-- Thresholding commutes with scaling. -/
theorem OneNorm.mul_softThreshold {a : ℝ} (ha : 0 < a) (threshold v : ℝ) :
    a * softThreshold (1 / a * threshold) (1 / a * v) = softThreshold threshold v := by
  have hsign : 1 / a * v < 0 ↔ v < 0 := by
    rw [one_div_mul_eq_div, div_neg_iff]
    simp [ha, ha.not_gt]
  have habs : |1 / a * v| = 1 / a * |v| := by rw [abs_mul, abs_of_pos (one_div_pos.mpr ha)]
  have hmax : max (1 / a * |v| - 1 / a * threshold) 0 = 1 / a * max (|v| - threshold) 0 := by
    rw [← mul_sub, mul_max_of_nonneg _ _ (one_div_pos.mpr ha).le, mul_zero]
  simp only [softThreshold, scalar_signum, scalar_abs, scalar_max, hsign, habs, hmax]
  field_simp

theorem OneNorm.computesMap_proximalConjugate {f : OneNorm ℝ} (hf : 0 ≤ f.alpha) :
    ComputesMap (n := n) f.functional.proximalConjugateInto
      (Problem.conjugateMap fun a x => x.softThreshold (a * f.alpha)) := by
  intro a y out ha hout
  refine Functional.sameLength_ofPoint hout ?_
  have hclip : (Vec.ofPoint y).map f.clip =
      Vec.ofPoint (Problem.conjugateMap (fun a x => x.softThreshold (a * f.alpha)) a y) := by
    refine Vec.map_ofPoint fun i => ?_
    show y i - a * softThreshold (1 / a * f.alpha) (1 / a * y i) = f.clip (y i)
    rw [mul_softThreshold ha, sub_eq_iff_eq_add', softThreshold_add_clip hf]
  show Functional.overwrite out (some _) = _
  rw [hclip]
  exact Functional.overwrite_ofPoint hout _

theorem SquaredDistance.CenteredAt.computesMap_proximalConjugate {f : SquaredDistance ℝ} {b : Space n}
    (h : f.CenteredAt b) (hf : 0 < f.scale) : ComputesMap f.functional.proximalConjugateInto
      (Problem.conjugateMap fun a x =>
        (1 / (1 + (f.scale + f.scale) * a)) • (x + ((f.scale + f.scale) * a) • b)) := by
  intro a y out ha hout
  refine Functional.sameLength_ofPoint hout ?_
  have hentries : f.proximalConjugate? (Vec.ofPoint y) a = some (Vec.ofPoint (Problem.conjugateMap (fun a x =>
      (1 / (1 + (f.scale + f.scale) * a)) • (x + ((f.scale + f.scale) * a) • b)) a y)) := by
    refine h.entries (fun v => by rw [mul_zero, sub_zero]) fun i => ?_
    show y i - a * (1 / (1 + (f.scale + f.scale) * (1 / a)) *
      (1 / a * y i + (f.scale + f.scale) * (1 / a) * b i)) = _
    field_simp
    ring
  show Functional.overwrite out (f.proximalConjugate? _ a) = _
  rw [hentries]
  exact Functional.overwrite_ofPoint hout _

/-! ## Values and conjugates on points -/

/-- The centre is the origin if it is absent. -/
theorem SquaredDistance.CenteredAt.center_cases {f : SquaredDistance ℝ} {b : Space n} (h : f.CenteredAt b) :
    f.center = none ∧ b = 0 ∨ f.center = some (Vec.ofPoint b) := by
  obtain ⟨c, center⟩ := f
  cases center with
  | none =>
    have hsquare : Vec.normSq (Vec.ofPoint b) = ‖b - b‖ ^ 2 := Option.some.inj (h.distanceSq b)
    rw [Vec.normSq_eq_pairing, Vec.pairing_ofPoint_self, sub_self, norm_zero, zero_pow two_ne_zero,
      pow_eq_zero_iff two_ne_zero, norm_eq_zero] at hsquare
    exact Or.inl ⟨rfl, hsquare⟩
  | some l =>
    have hcopy : Vec.zip? (fun _ w => w) (Vec.ofPoint b) l = some (Vec.ofPoint b) :=
      h.entries (fun _ => rfl) fun _ => rfl
    obtain ⟨hl, hb⟩ := Vec.zip?_eq_some_iff.mp hcopy
    have hsecond : List.zipWith (fun _ w => w) (Vec.ofPoint b) l = l := by
      rw [← List.map_uncurry_zip_eq_zipWith]
      exact List.map_snd_zip hl.ge
    exact Or.inr (congrArg some (hsecond.symm.trans hb))

namespace BasicTerm

theorem valueAt_squaredDistance {f : SquaredDistance ℝ} {b : Space n} (hb : f.CenteredAt b) (x : Space n) :
    (squaredDistance f).valueAt (Vec.ofPoint x) = f.scale * ‖x - b‖ ^ 2 := by
  obtain ⟨c, center⟩ := f
  rcases hb.center_cases with ⟨hnone, rfl⟩ | hsome
  · cases hnone
    rw [valueAt, Vec.pairing_ofPoint_self, sub_zero]
  · cases hsome
    rw [valueAt, Vec.sub_ofPoint, Vec.pairing_ofPoint_self]

theorem conjugateAt_squaredDistance {f : SquaredDistance ℝ} {b : Space n} (hb : f.CenteredAt b) (v : Space n) :
    (squaredDistance f).conjugateAt (Vec.ofPoint v) = ‖v‖ ^ 2 / (4 * f.scale) + ⟪v, b⟫ := by
  obtain ⟨c, center⟩ := f
  rcases hb.center_cases with ⟨hnone, rfl⟩ | hsome
  · cases hnone
    rw [conjugateAt, Vec.pairing_ofPoint_self, inner_zero_right, add_zero]
  · cases hsome
    rw [conjugateAt, Vec.pairing_ofPoint_self, Vec.pairing_ofPoint]

/-! ## Subgradients -/

/-- The inequality of Fenchel and Young holds with equality, for a feasible dual vector. -/
def Touches (t : BasicTerm ℝ) (x v : Vec ℝ) : Prop :=
  t.Feasible v ∧ Vec.pairing x v = t.valueAt x + t.conjugateAt v

/-- A dual vector that touches is a subgradient. -/
theorem Touches.le {t : BasicTerm ℝ} (ht : t.Proper) (hfit : t.Fits n) {x v : Space n}
    (h : t.Touches (Vec.ofPoint x) (Vec.ofPoint v)) (u : Space n) :
    t.valueAt (Vec.ofPoint x) + ⟪v, u - x⟫ ≤ t.valueAt (Vec.ofPoint u) := by
  have hlength : ∀ w : Space n, (Vec.ofPoint w).length = (Vec.ofPoint v).length := by
    intro w
    rw [Vec.length_ofPoint, Vec.length_ofPoint]
  have hyoung := fenchelYoung ht ((Vec.length_ofPoint u).symm ▸ hfit) h.1 (hlength u)
  have hequal := h.2
  rw [Vec.pairing_ofPoint, real_inner_comm] at hyoung hequal
  rw [inner_sub_right]
  linarith

/-- Thresholding leads back to a point from those that dual vectors in the box lead to. -/
theorem oneNorm_touches {f : OneNorm ℝ} (hf : 0 ≤ f.alpha) {x v : Space n}
    (h : (x + v).softThreshold f.alpha = x) : (oneNorm f).Touches (Vec.ofPoint x) (Vec.ofPoint v) := by
  have hplace : ∀ i, OneNorm.softThreshold f.alpha (x i + v i) = x i := fun i => congrArg (· i) h
  have hclip : ∀ i, f.clip (x i + v i) = v i := by
    intro i
    have hsum := OneNorm.softThreshold_add_clip hf (x i + v i)
    rw [hplace] at hsum
    exact add_left_cancel hsum
  have hfeasible : (oneNorm f).Feasible (Vec.ofPoint v) := by
    intro w hw
    obtain ⟨i, rfl⟩ := List.mem_ofFn.mp hw
    rw [← hclip i]
    exact abs_clip_le hf _
  refine ⟨hfeasible, le_antisymm ?_ ?_⟩
  · apply fenchelYoung (t := oneNorm f) hf trivial hfeasible
    rw [Vec.length_ofPoint, Vec.length_ofPoint]
  · -- the displacement is compared with the one at zero, place by place
    have hle : ∀ i, f.alpha * |x i| ≤ x i * v i := by
      intro i
      have hzero := OneNorm.softThreshold_le hf (x i + v i) 0
      rw [hplace, abs_zero] at hzero
      linarith
    rw [valueAt_oneNorm, conjugateAt, add_zero, Vec.pairing_ofPoint, PiLp.inner_apply, Finset.mul_sum]
    refine Finset.sum_le_sum fun i _ => (hle i).trans_eq ?_
    exact mul_comm _ _

/-- The proximal map of a squared distance leads back to a point from the one that the gradient leads to. -/
theorem squaredDistance_touches {f : SquaredDistance ℝ} (hf : 0 < f.scale) {b : Space n} (hb : f.CenteredAt b)
    {x v : Space n} {a : ℝ} (ha : 0 < a)
    (h : (1 / (1 + (f.scale + f.scale) * a)) • (x + a • v + ((f.scale + f.scale) * a) • b) = x) :
    (squaredDistance f).Touches (Vec.ofPoint x) (Vec.ofPoint v) := by
  have hgradient : v = (2 * f.scale) • (x - b) := by
    have hpos : 0 < 1 + (f.scale + f.scale) * a := by positivity
    rw [one_div, inv_smul_eq_iff₀ hpos.ne'] at h
    have hscaled : a • v = (1 + (f.scale + f.scale) * a) • x - x - ((f.scale + f.scale) * a) • b := by
      rw [← h]
      abel
    apply smul_right_injective _ ha.ne'
    dsimp only
    rw [hscaled]
    module
  refine ⟨trivial, ?_⟩
  have hthrough : ⟪x, x - b⟫ = ‖x - b‖ ^ 2 + ⟪x - b, b⟫ := by
    rw [← real_inner_self_eq_norm_sq, ← inner_add_right, sub_add_cancel, real_inner_comm]
  rw [valueAt_squaredDistance hb, conjugateAt_squaredDistance hb, Vec.pairing_ofPoint, hgradient,
    real_inner_smul_left, real_inner_smul_right, hthrough, norm_smul, mul_pow, Real.norm_eq_abs, sq_abs]
  field_simp
  ring

/-- `P` is the proximal map of a term on points, and determines that of the conjugate. It leads back to a point
    from those that the dual vectors touching there lead to. -/
structure ProximalOn (t : BasicTerm ℝ) (P : ℝ → Space n → Space n) : Prop where
  proximal : ComputesMap t.functional.proximalInto P
  proximalConjugate : ComputesMap t.functional.proximalConjugateInto (Problem.conjugateMap P)
  firm : Problem.Firm P
  proximal_eq_iff : ∀ {a : ℝ}, 0 < a → ∀ {x v}, P a (x + a • v) = x ↔ t.Touches (Vec.ofPoint x) (Vec.ofPoint v)

/-- **One-norms and squared distances have proximal maps.** -/
theorem exists_proximalOn {t : BasicTerm ℝ} (ht : t.Proper) (hfit : t.Fits n) :
    ∃ P : ℝ → Space n → Space n, t.ProximalOn P := by
  cases t with
  | oneNorm f =>
    have hsub := Problem.subgradient_oneNorm (n := n) ht
    refine ⟨_, f.computesProximable.proximal, OneNorm.computesMap_proximalConjugate ht, hsub.firm, ?_⟩
    intro a ha x v
    rw [hsub.proximal_eq_iff ha]
    constructor
    · intro h
      have hone := (hsub.proximal_eq_iff one_pos).mpr h
      rw [one_smul, one_mul] at hone
      exact oneNorm_touches ht hone
    · intro h u
      have hle := h.le ht hfit u
      rwa [valueAt_oneNorm, valueAt_oneNorm] at hle
  | squaredDistance f =>
    obtain ⟨b, hb⟩ := f.exists_center hfit
    have hsub := Problem.subgradient_squaredDistance (le_of_lt ht) b
    refine ⟨_, hb.computesProximable.proximal, hb.computesMap_proximalConjugate ht, hsub.firm, ?_⟩
    intro a ha x v
    constructor
    · exact squaredDistance_touches ht hb ha
    · intro h
      refine (hsub.proximal_eq_iff ha).mpr fun u => ?_
      have hle := h.le ht hfit u
      rwa [valueAt_squaredDistance hb, valueAt_squaredDistance hb] at hle

end BasicTerm

/-! ## Among the extended reals -/

/-- What is written from real numbers is written among the extended reals. -/
theorem Functional.overwrite_lift {o : Option (Vec ℝ)} {o' : Option (Vec EReal)} {w out' : Vec ℝ}
    {out : Vec EReal} (ho : o' = o.map Vec.lift) (hout : out.length = out'.length)
    (h : sameLength out' (overwrite out' o) = .ok () w) : sameLength out (overwrite out o') = .ok () w.lift := by
  obtain ⟨h, hl⟩ := sameLength_eq_ok_iff.mp h
  obtain ⟨rfl, -⟩ := overwrite_eq_ok_iff.mp h
  have hlength : w.lift.length = out.length := by rw [Vec.length_lift, hl, hout]
  exact sameLength_eq_ok_iff.mpr ⟨overwrite_eq_ok_iff.mpr ⟨ho, hlength⟩, hlength⟩

namespace BasicTerm

variable {t : BasicTerm ℝ} {x v w out' : Vec ℝ} {a : ℝ} {out : Vec EReal}

theorem proximalInto_lift (hout : out.length = out'.length)
    (h : t.functional.proximalInto x a out' = .ok () w) :
    t.lift.functional.proximalInto x.lift (a : EReal) out = .ok () w.lift := by
  cases t with
  | oneNorm f =>
    refine Functional.overwrite_lift (congrArg some (Vec.map_lift (fun u => ?_) x)) hout h
    rw [← EReal.coe_mul]
    exact softThreshold_lift _ _
  | squaredDistance f => exact Functional.overwrite_lift (squaredDistance_proximal?_lift f a) hout h

theorem proximalConjugateInto_lift (hout : out.length = out'.length)
    (h : t.functional.proximalConjugateInto x a out' = .ok () w) :
    t.lift.functional.proximalConjugateInto x.lift (a : EReal) out = .ok () w.lift := by
  cases t with
  | oneNorm f =>
    exact Functional.overwrite_lift (o := some _) (congrArg some (Vec.map_lift (clip_lift f) x)) hout h
  | squaredDistance f => exact Functional.overwrite_lift (squaredDistance_proximalConjugate?_lift f a) hout h

/-- **The points that a proximal map leads back to** are those at which the displacement touches. -/
theorem proximalInto_eq_self_iff (ht : t.Proper) (hfit : t.Fits n) (hx : x.length = n) (hv : v.length = n)
    (hout : out.length = n) (ha : 0 < a) :
    t.lift.functional.proximalInto (Vec.lift (List.zipWith (fun x v => x + a * v) x v)) (a : EReal) out =
      .ok () x.lift ↔ t.Touches x v := by
  obtain ⟨P, hP⟩ := exists_proximalOn ht hfit
  obtain ⟨x, rfl⟩ := Vec.exists_ofPoint hx
  obtain ⟨v, rfl⟩ := Vec.exists_ofPoint hv
  have hpoint : List.zipWith (fun x v => x + a * v) (Vec.ofPoint x) (Vec.ofPoint v) = Vec.ofPoint (x + a • v) :=
    Vec.zipWith_ofPoint fun _ => rfl
  have hcomputed := proximalInto_lift (hout.trans (Vec.length_zeros n).symm)
    (hP.proximal a (x + a • v) _ ha (Vec.length_zeros n))
  rw [hpoint, hcomputed, ← hP.proximal_eq_iff ha]
  simp only [Outcome.ok.injEq, true_and, Vec.lift_injective.eq_iff, Vec.ofPoint_injective.eq_iff]

/-- **The dual vectors that the proximal map of the conjugate leads back to** are those that touch at the
    displacement. -/
theorem proximalConjugateInto_eq_self_iff (ht : t.Proper) (hfit : t.Fits n) (hx : x.length = n)
    (hv : v.length = n) (hout : out.length = n) (ha : 0 < a) :
    t.lift.functional.proximalConjugateInto (Vec.lift (List.zipWith (fun x v => v + a * x) x v)) (a : EReal)
      out = .ok () v.lift ↔ t.Touches x v := by
  obtain ⟨P, hP⟩ := exists_proximalOn ht hfit
  obtain ⟨x, rfl⟩ := Vec.exists_ofPoint hx
  obtain ⟨v, rfl⟩ := Vec.exists_ofPoint hv
  have hpoint : List.zipWith (fun x v => v + a * x) (Vec.ofPoint x) (Vec.ofPoint v) = Vec.ofPoint (v + a • x) :=
    Vec.zipWith_ofPoint fun _ => rfl
  have hcomputed := proximalConjugateInto_lift (hout.trans (Vec.length_zeros n).symm)
    (hP.proximalConjugate a (v + a • x) _ ha (Vec.length_zeros n))
  rw [hpoint, hcomputed, ← hP.proximal_eq_iff (one_div_pos.mpr ha), ← Problem.conjugateMap_eq_iff ha]
  simp only [Outcome.ok.injEq, true_and, Vec.lift_injective.eq_iff, Vec.ofPoint_injective.eq_iff]

end BasicTerm

end Splitting
