import Splitting.Proofs.Functional.ConjugateMaps

/-!
# `Splitting.Proofs.Functional.Conjugates` — the coded conjugates are those of the coded values

The convex conjugate of `f` at `y` is the supremum of the gains `⟨x, y⟩ - f x`. For one-norms and squared
distances the conjugate has a closed form, which is written apart from the value. Among the extended reals, and on
finite data, the closed form is that supremum: the largest gain where it is finite, and infinity where the gains
have no bound. Only the margin that the box of a one-norm is widened by is left out.

* `BasicTerm.gain?`, `BasicTerm.GreatestGain` — the gains, from the value that is computed;
* `BasicTerm.exists_touches` — a point at which the inequality of Fenchel and Young holds with equality;
* `BasicTerm.oneNorm_gain_unbounded` — the gains of a one-norm outside its box;
* `BasicTerm.conjugate_is_greatest_gain` — the closed forms.
-/

namespace Splitting

open scoped RealInnerProductSpace

namespace BasicTerm

/-- The gain `⟨x, y⟩ - f x` of which the conjugate at `y` is the supremum. -/
noncomputable def gain? (t : BasicTerm ℝ) (y x : Vec ℝ) : Option EReal :=
  (t.lift.functional.value x.lift).map fun v => (Vec.pairing x y : EReal) - v

/-- No gain is larger than `c`, and one is as large. -/
def GreatestGain (t : BasicTerm ℝ) (y : Vec ℝ) (c : EReal) : Prop :=
  (∀ x, x.length = y.length → ∃ g ≤ c, t.gain? y x = some g) ∧ ∃ x, x.length = y.length ∧ t.gain? y x = some c

variable {t : BasicTerm ℝ} {x y : Vec ℝ}

/-- All gains are finite. -/
theorem gain?_eq (hfit : t.Fits x.length) : t.gain? y x = some ((Vec.pairing x y - t.valueAt x : ℝ) : EReal) := by
  rw [gain?, value_lift hfit, Option.map_some, EReal.coe_sub]

/-- **Every feasible dual vector touches somewhere:** at the origin for a one-norm, and where the gradient is `y`
    for a squared distance. -/
theorem exists_touches (ht : t.Proper) (hfit : t.Fits y.length) (hy : t.Feasible y) :
    ∃ x, x.length = y.length ∧ t.Touches x y := by
  obtain ⟨v, hv⟩ := Vec.exists_ofPoint (rfl : y.length = y.length)
  generalize y.length = n at v hv hfit ⊢
  subst hv
  cases t with
  | oneNorm f =>
    refine ⟨Vec.ofPoint (0 : Space n), Vec.length_ofPoint _, hy, ?_⟩
    rw [Vec.pairing_ofPoint, valueAt_oneNorm, conjugateAt, inner_zero_left]
    simp
  | squaredDistance f =>
    obtain ⟨b, hb⟩ := f.exists_center hfit
    have hpos : 0 < f.scale := ht
    refine ⟨Vec.ofPoint (b + (1 / (2 * f.scale)) • v), Vec.length_ofPoint _, ?_⟩
    refine squaredDistance_touches hpos hb one_pos ?_
    have hsum : b + (1 / (2 * f.scale)) • v + (1 : ℝ) • v + ((f.scale + f.scale) * 1) • b =
        (1 + (f.scale + f.scale) * 1) • (b + (1 / (2 * f.scale)) • v) := by
      have hcoefficient : (1 + (f.scale + f.scale) * 1) * (1 / (2 * f.scale)) = 1 / (2 * f.scale) + 1 := by
        field_simp
        ring
      rw [smul_add, smul_smul, hcoefficient]
      module
    rw [hsum, smul_smul, one_div_mul_cancel (by positivity), one_smul]

/-- **The closed form is the largest gain** at a feasible dual vector. -/
theorem greatestGain_conjugateAt (ht : t.Proper) (hfit : t.Fits y.length) (hy : t.Feasible y) :
    t.GreatestGain y (t.conjugateAt y : EReal) := by
  refine ⟨fun x hx => ?_, ?_⟩
  · have hfit' : t.Fits x.length := hx.symm ▸ hfit
    have hyoung := fenchelYoung ht hfit' hy hx
    refine ⟨_, EReal.coe_le_coe_iff.mpr ?_, gain?_eq hfit'⟩
    linarith
  · obtain ⟨x, hx, -, hequal⟩ := exists_touches ht hfit hy
    refine ⟨x, hx, ?_⟩
    rw [gain?_eq (hx.symm ▸ hfit), hequal, add_sub_cancel_left]

/-- The gain of a one-norm along one coordinate. -/
theorem oneNorm_gain?_single {n : ℕ} (f : OneNorm ℝ) (v : Space n) (i : Fin n) (a : ℝ) :
    (oneNorm f).gain? (Vec.ofPoint v) (Vec.ofPoint (EuclideanSpace.single i a)) =
      some ((a * v i - f.alpha * |a| : ℝ) : EReal) := by
  have hcoordinates : ∀ j, |EuclideanSpace.single i a j| = if j = i then |a| else 0 := by
    intro j
    rw [PiLp.single_apply, apply_ite abs, abs_zero]
  rw [gain?_eq (t := oneNorm f) trivial, valueAt_oneNorm, Vec.pairing_ofPoint, EuclideanSpace.inner_single_left]
  simp only [hcoordinates, Finset.sum_ite_eq', Finset.mem_univ, if_true]
  rfl

/-- **The gains of a one-norm have no bound outside its box:** they grow along the coordinate that is outside. -/
theorem oneNorm_gain_unbounded {f : OneNorm ℝ} {w : ℝ} (hw : w ∈ y) (hout : f.alpha < |w|) (bound : ℝ) :
    ∃ x g, x.length = y.length ∧ (oneNorm f).gain? y x = some g ∧ (bound : EReal) < g := by
  obtain ⟨v, hv⟩ := Vec.exists_ofPoint (rfl : y.length = y.length)
  generalize y.length = n at v hv ⊢
  subst hv
  obtain ⟨i, rfl⟩ := List.mem_ofFn.mp hw
  have hgap : 0 < |v i| - f.alpha := sub_pos.mpr hout
  obtain ⟨direction, hunit, hdirection⟩ : ∃ d : ℝ, |d| = 1 ∧ d * v i = |v i| := by
    rcases abs_cases (v i) with ⟨habs, -⟩ | ⟨habs, -⟩
    · exact ⟨1, abs_one, by rw [habs, one_mul]⟩
    · exact ⟨-1, by rw [abs_neg, abs_one], by rw [habs, neg_one_mul]⟩
  set far := (|bound| + 1) / (|v i| - f.alpha) with hfar
  have hfarPos : 0 < far := by positivity
  refine ⟨_, _, Vec.length_ofPoint _, oneNorm_gain?_single f v i (far * direction), ?_⟩
  refine EReal.coe_lt_coe_iff.mpr ?_
  calc bound ≤ |bound| := le_abs_self bound
    _ < |bound| + 1 := lt_add_one _
    _ = far * (|v i| - f.alpha) := (div_mul_cancel₀ _ hgap.ne').symm
    _ = far * direction * v i - f.alpha * |far * direction| := by
      rw [abs_mul, hunit, abs_of_pos hfarPos, mul_assoc, hdirection]
      ring

/-- **The coded conjugates are the convex conjugates of the coded values.** -/
theorem conjugate_is_greatest_gain :
    (∀ (f : SquaredDistance ℝ) (y : Vec ℝ), 0 < f.scale → (squaredDistance f).Fits y.length →
      ∃ c : ℝ, (squaredDistance f).lift.functional.conjugate y.lift = .ok (c : EReal) ∧
        (squaredDistance f).GreatestGain y c) ∧
    ∀ (f : OneNorm ℝ) (y : Vec ℝ), 0 ≤ f.alpha →
      ((∀ v ∈ y, |v| ≤ f.alpha) →
        (oneNorm f).lift.functional.conjugate y.lift = .ok 0 ∧ (oneNorm f).GreatestGain y 0) ∧
      ((∃ v ∈ y, f.alpha * (1 + 1e-10) < |v|) →
        (oneNorm f).lift.functional.conjugate y.lift = .ok ⊤ ∧
        ∀ bound : ℝ, ∃ x g, x.length = y.length ∧ (oneNorm f).gain? y x = some g ∧ (bound : EReal) < g) := by
  refine ⟨fun f y hf hfit => ?_, fun f y hf => ⟨fun hbox => ?_, fun ⟨v, hv, hout⟩ => ⟨?_, ?_⟩⟩⟩
  · exact ⟨_, conjugate_lift hf hfit trivial, greatestGain_conjugateAt hf hfit trivial⟩
  · exact ⟨conjugate_lift (t := oneNorm f) hf trivial hbox,
      greatestGain_conjugateAt (t := oneNorm f) hf trivial hbox⟩
  · exact oneNorm_conjugate_lift_top fun hbox => hout.not_ge (hbox v hv)
  · exact oneNorm_gain_unbounded hv ((OneNorm.alpha_le_radius hf).trans_lt hout)

/-- The conjugate of `2 (x - 1)²` at eight is sixteen, and that of `|x|` is zero at one and infinite at three. -/
theorem greatest_gains_on_the_line :
    ((squaredDistance ⟨2, some [1]⟩).lift.functional.conjugate (Vec.lift [8]) = .ok ((16 : ℝ) : EReal) ∧
      (squaredDistance ⟨2, some [1]⟩).GreatestGain [8] ((16 : ℝ) : EReal)) ∧
    ((oneNorm ⟨1⟩).lift.functional.conjugate (Vec.lift [1]) = .ok 0 ∧ (oneNorm ⟨1⟩).GreatestGain [1] 0) ∧
    (oneNorm ⟨1⟩).lift.functional.conjugate (Vec.lift [3]) = .ok ⊤ ∧
      ∃ x g, x.length = 1 ∧ (oneNorm ⟨1⟩).gain? [3] x = some g ∧ ((100 : ℝ) : EReal) < g := by
  obtain ⟨hsquared, hone⟩ := conjugate_is_greatest_gain
  have hfit : (squaredDistance ⟨2, some [1]⟩).Fits (List.length [(8 : ℝ)]) := by
    rintro b ⟨⟩
    rfl
  have hconjugate : (squaredDistance ⟨2, some [1]⟩).lift.functional.conjugate (Vec.lift [8]) =
      .ok ((16 : ℝ) : EReal) := by
    rw [conjugate_lift (t := squaredDistance ⟨2, some [1]⟩) two_pos hfit trivial]
    norm_num [conjugateAt, Vec.pairing]
  refine ⟨⟨hconjugate, ?_⟩, (hone ⟨1⟩ [1] zero_le_one).1 ?_, ?_⟩
  · obtain ⟨c, hc, hgreatest⟩ := hsquared ⟨2, some [1]⟩ [8] two_pos hfit
    cases hconjugate.symm.trans hc
    exact hgreatest
  · intro v hv
    rw [List.mem_singleton.mp hv, abs_one]
  · have houtside : ∃ v ∈ [(3 : ℝ)], 1 * (1 + 1e-10) < |v| := ⟨3, List.mem_singleton_self 3, by norm_num⟩
    obtain ⟨htop, hunbounded⟩ := (hone ⟨1⟩ [3] zero_le_one).2 houtside
    exact ⟨htop, hunbounded 100⟩

end BasicTerm

end Splitting
