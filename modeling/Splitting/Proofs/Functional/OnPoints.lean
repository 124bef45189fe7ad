import Splitting.Functional.LeastSquares
import Splitting.Proofs.Convex.Terms
import Splitting.Proofs.Functional.FenchelYoung
import Splitting.Proofs.Operator.Adjoint

/-!
# `Splitting.Proofs.Functional.OnPoints` — what the terms of this library compute on points

In exact arithmetic the value, gradient and proximal map that a term computes, in whatever buffer, are those of
a convex function on Euclidean space, as long as the lengths of its data fit.

* `ComputesSmooth`, `ComputesProximable` — a term, which may be absent, computes a function on points;
* `SquaredDistance.CenteredAt` — a squared distance with or without a centre;
* `LinearOperator.AdjointPair`, `BasicOperator.adjointPair` — an operator and its adjoint;
* `LinearOperator.Computes` — an operator computes a linear map on points, and its adjoint;
* `SmoothTerm`, `SmoothTerm.exists_smooth`, `SmoothTerm.exists_smooth_of_isConvex` — squared distances and least
  squares;
* `BasicTerm.exists_subgradient` — one-norms and squared distances as proximable terms.
-/

namespace Splitting

open scoped RealInnerProductSpace

variable {n : ℕ}

/-- A term computes the function `F` and its gradient `G`, in any buffer. -/
structure ComputesSmooth (f : Option (Functional ℝ)) (F : Space n → ℝ) (G : Space n → Space n) : Prop where
  value : ∀ x, valueOrZero f (Vec.ofPoint x) = some (F x)
  gradient : ∀ x out, out.length = n → gradientOrZero f (Vec.ofPoint x) out = .ok () (Vec.ofPoint (G x))

/-- A term computes the function `H` and its proximal map `P`, in any buffer. -/
structure ComputesProximable (g : Option (Functional ℝ)) (H : Space n → ℝ) (P : ℝ → Space n → Space n) :
    Prop where
  value : ∀ x, valueOrZero g (Vec.ofPoint x) = some (H x)
  proximal : ∀ a x out, 0 < a → out.length = n →
    proximalOrIdentity g (Vec.ofPoint x) a out = .ok () (Vec.ofPoint (P a x))

theorem Functional.overwrite_ofPoint {out : Vec ℝ} (hout : out.length = n) (z : Space n) :
    overwrite out (some (Vec.ofPoint z)) = .ok () (Vec.ofPoint z) :=
  overwrite_eq_ok_iff.mpr ⟨rfl, (Vec.length_ofPoint z).trans hout.symm⟩

theorem Functional.sameLength_ofPoint {out : Vec ℝ} (hout : out.length = n) {o : Outcome (Vec ℝ) Unit}
    {z : Space n} (h : o = .ok () (Vec.ofPoint z)) : sameLength out o = .ok () (Vec.ofPoint z) :=
  sameLength_eq_ok_iff.mpr ⟨h, (Vec.length_ofPoint z).trans hout.symm⟩

/-- An absent term is zero. -/
theorem computesSmooth_none :
    ComputesSmooth (none : Option (Functional ℝ)) (fun _ : Space n => 0) fun _ => 0 := by
  refine ⟨fun _ => rfl, fun x out hout => ?_⟩
  rw [gradientOrZero, hout, Vec.zeros_eq_ofPoint]

/-- An absent term has the identity as its proximal map. -/
theorem computesProximable_none :
    ComputesProximable (none : Option (Functional ℝ)) (fun _ : Space n => 0) fun _ x => x := by
  refine ⟨fun _ => rfl, fun a x out _ hout => ?_⟩
  rw [proximalOrIdentity, Vec.spread?_eq_self ((Vec.length_ofPoint x).trans hout.symm)]
  exact Functional.overwrite_ofPoint hout x

/-! ## Squared distances -/

/-- A squared distance to the point `b`; the origin if there is no centre. -/
structure SquaredDistance.CenteredAt (f : SquaredDistance ℝ) (b : Space n) : Prop where
  entries : ∀ {plain : ℝ → ℝ} {shifted : ℝ → ℝ → ℝ}, (∀ v, plain v = shifted v 0) → ∀ {x z : Space n},
    (∀ i, z i = shifted (x i) (b i)) → f.entries plain shifted (Vec.ofPoint x) = some (Vec.ofPoint z)
  distanceSq : ∀ x, f.distanceSq? (Vec.ofPoint x) = some (‖x - b‖ ^ 2)

/-- A squared distance is centred at its centre. -/
theorem SquaredDistance.centeredAt_ofPoint (c : ℝ) (b : Space n) : CenteredAt ⟨c, some (Vec.ofPoint b)⟩ b := by
  refine ⟨fun _ => ?_, fun x => ?_⟩
  · intro x z hz
    exact Vec.zip?_ofPoint hz
  · have hsquares : Vec.zip? (fun x b => (x - b) * (x - b)) (Vec.ofPoint x) (Vec.ofPoint b) =
        some (Vec.ofPoint (WithLp.toLp 2 fun i => (x i - b i) * (x i - b i))) :=
      Vec.zip?_ofPoint fun _ => rfl
    show (Vec.zip? _ _ _).map Vec.sum = _
    rw [hsquares, Option.map_some, Vec.sum_eq_sum, Vec.sum_ofPoint, ← real_inner_self_eq_norm_sq,
      PiLp.inner_apply]
    rfl

theorem SquaredDistance.exists_center (f : SquaredDistance ℝ) (h : ∀ b ∈ f.center, b.length = n) :
    ∃ b : Space n, f.CenteredAt b := by
  obtain ⟨c, center⟩ := f
  cases center with
  | none =>
    refine ⟨0, fun hplain => ?_, fun x => ?_⟩
    · intro x z hz
      exact congrArg some (Vec.map_ofPoint fun i => (hz i).trans (hplain _).symm)
    · show some (Vec.normSq _) = _
      rw [Vec.normSq_eq_pairing, Vec.pairing_ofPoint_self, sub_zero]
  | some l =>
    obtain ⟨b, rfl⟩ := Vec.exists_ofPoint (h l rfl)
    exact ⟨b, centeredAt_ofPoint c b⟩

namespace SquaredDistance.CenteredAt

variable {f : SquaredDistance ℝ} {b : Space n}

theorem value (h : f.CenteredAt b) (x : Space n) :
    f.functional.value (Vec.ofPoint x) = some (f.scale * ‖x - b‖ ^ 2) := by
  show f.value? _ = _
  rw [value?, h.distanceSq x]
  rfl

theorem computesSmooth (h : f.CenteredAt b) : ComputesSmooth (some f.functional)
    (fun x => f.scale * ‖x - b‖ ^ 2) fun x => (f.scale + f.scale) • (x - b) := by
  refine ⟨h.value, fun x out hout => Functional.sameLength_ofPoint hout ?_⟩
  have hgradient : f.gradient? (Vec.ofPoint x) = some (Vec.ofPoint ((f.scale + f.scale) • (x - b))) :=
    h.entries (fun v => by rw [sub_zero]) fun _ => rfl
  show Functional.overwrite out (f.gradient? _) = _
  rw [hgradient]
  exact Functional.overwrite_ofPoint hout _

theorem computesProximable (h : f.CenteredAt b) : ComputesProximable (some f.functional)
    (fun x => f.scale * ‖x - b‖ ^ 2)
    fun a x => (1 / (1 + (f.scale + f.scale) * a)) • (x + ((f.scale + f.scale) * a) • b) := by
  refine ⟨h.value, fun a x out _ hout => Functional.sameLength_ofPoint hout ?_⟩
  have hproximal : f.proximal? (Vec.ofPoint x) a = some (Vec.ofPoint
      ((1 / (1 + (f.scale + f.scale) * a)) • (x + ((f.scale + f.scale) * a) • b))) := by
    refine h.entries (fun v => by rw [mul_zero, add_zero]) fun i => ?_
    exact one_div_mul_eq_div _ _
  show Functional.overwrite out (f.proximal? _ a) = _
  rw [hproximal]
  exact Functional.overwrite_ofPoint hout _

end SquaredDistance.CenteredAt

/-! ## Operators -/

/-- The maps of an operator have values wherever the lengths fit, and one is the adjoint of the other. -/
structure LinearOperator.AdjointPair (op : LinearOperator ℝ) (image coimage : Vec ℝ → Vec ℝ) : Prop where
  direct_eq : ∀ x out, x.length = op.domainDim → out.length = op.rangeDim → op.direct x out = some (image x)
  adjoint_eq : ∀ y out, y.length = op.rangeDim → out.length = op.domainDim →
    op.adjoint y out = some (coimage y)
  length_image : ∀ x, x.length = op.domainDim → (image x).length = op.rangeDim
  length_coimage : ∀ y, y.length = op.rangeDim → (coimage y).length = op.domainDim
  pairing_image : ∀ x y, x.length = op.domainDim → y.length = op.rangeDim →
    Vec.pairing (image x) y = Vec.pairing x (coimage y)

/-- The maps of an operator compute `A` and `B` on points, in any buffer. -/
structure LinearOperator.Computes {r : ℕ} (op : LinearOperator ℝ) (A : Space n → Space r)
    (B : Space r → Space n) : Prop where
  domainDim : op.domainDim = n
  rangeDim : op.rangeDim = r
  direct : ∀ x out, out.length = r → op.directInto (Vec.ofPoint x) out = some (Vec.ofPoint (A x))
  adjoint : ∀ y out, out.length = n → op.adjointInto (Vec.ofPoint y) out = some (Vec.ofPoint (B y))

/-- Dense matrices, identities and diagonal scalings are such operators. -/
theorem BasicOperator.adjointPair (k : BasicOperator ℝ) : k.operator.AdjointPair k.image k.coimage :=
  ⟨fun _ _ => k.direct_eq, fun _ _ => k.adjoint_eq, fun _ => k.length_image, fun _ => k.length_coimage,
    fun _ _ => k.pairing_image⟩

namespace LinearOperator.AdjointPair

variable {op : LinearOperator ℝ} {image coimage : Vec ℝ → Vec ℝ}

/-- The maps on points. -/
theorem exists_computes (h : op.AdjointPair image coimage) (hdim : op.domainDim = n) :
    ∃ (A : Space n → Space op.rangeDim) (B : Space op.rangeDim → Space n), op.Computes A B ∧
      (∀ x, Vec.ofPoint (A x) = image (Vec.ofPoint x)) ∧ ∀ x y, ⟪A x, y⟫ = ⟪x, B y⟫ := by
  have hx : ∀ x : Space n, (Vec.ofPoint x).length = op.domainDim := by
    intro x
    rw [Vec.length_ofPoint, hdim]
  have hy : ∀ y : Space op.rangeDim, (Vec.ofPoint y).length = op.rangeDim := Vec.length_ofPoint
  choose A hA using fun x : Space n => Vec.exists_ofPoint (h.length_image _ (hx x))
  choose B hB using fun y : Space op.rangeDim => Vec.exists_ofPoint ((h.length_coimage _ (hy y)).trans hdim)
  refine ⟨A, B, ⟨hdim, rfl, fun x out hout => ?_, fun y out hout => ?_⟩, hA, fun x y => ?_⟩
  · rw [directInto, h.direct_eq _ _ (hx x) hout, ← hA]
    exact Vec.write?_eq_some_iff.mpr ⟨(hy _).trans hout.symm, rfl⟩
  · rw [adjointInto, h.adjoint_eq _ _ (hy y) (hout.trans hdim.symm), ← hB]
    exact Vec.write?_eq_some_iff.mpr ⟨(Vec.length_ofPoint _).trans hout.symm, rfl⟩
  · rw [← Vec.pairing_ofPoint, ← Vec.pairing_ofPoint, hA, hB]
    exact h.pairing_image _ _ (hx x) (hy y)

end LinearOperator.AdjointPair

/-- What the adjoint computes on points. -/
theorem LinearOperator.Computes.ofPoint_adjoint {op : LinearOperator ℝ} {r : ℕ} {A : Space n → Space r}
    {B : Space r → Space n} (hop : op.Computes A B) {image coimage : Vec ℝ → Vec ℝ}
    (h : op.AdjointPair image coimage) (y : Space r) : Vec.ofPoint (B y) = coimage (Vec.ofPoint y) := by
  have hy : (Vec.ofPoint y).length = op.rangeDim := (Vec.length_ofPoint y).trans hop.rangeDim.symm
  have hzeros : (Vec.zeros n : Vec ℝ).length = n := Vec.length_zeros n
  have hwritten := hop.adjoint y _ hzeros
  rw [adjointInto, h.adjoint_eq _ _ hy (hzeros.trans hop.domainDim.symm)] at hwritten
  exact (Vec.write?_eq_some_iff.mp hwritten).2.symm

/-! ## Smooth terms -/

/-- The smooth functions of this library. -/
inductive SmoothTerm where
  | squaredDistance (f : SquaredDistance ℝ)
  | leastSquares (f : LeastSquares ℝ)

namespace SmoothTerm

/-- The operations of the function. -/
noncomputable def functional : SmoothTerm → Functional ℝ
  | squaredDistance f => f.functional
  | leastSquares f => f.functional

/-- The function is one of vectors of length `n`, with a positive scale. For least squares, the operator comes
    with its adjoint, and the Lipschitz constant that is stored is at least `2 c ‖A‖²`. -/
def Proper (n : ℕ) : SmoothTerm → Prop
  | squaredDistance f => 0 < f.scale ∧ ∀ b ∈ f.center, b.length = n
  | leastSquares f => 0 < f.scale ∧ f.operator.domainDim = n ∧
      (f.data.length = f.operator.rangeDim ∨ f.data.length = 1) ∧
      ∃ image coimage, f.operator.AdjointPair image coimage ∧
        ∀ x, x.length = n →
          (f.scale + f.scale) * Vec.pairing (image x) (image x) ≤ f.lipschitz * Vec.pairing x x

/-- Data of the right length, or a single datum, fill the range. -/
theorem exists_spread {m : ℕ} {data : Vec ℝ} (h : data.length = m ∨ data.length = 1) :
    ∃ b : Space m, Vec.spread? m data = some (Vec.ofPoint b) := by
  by_cases hm : data.length = m
  · obtain ⟨b, hb⟩ := Vec.exists_ofPoint hm
    exact ⟨b, (Vec.spread?_eq_self hm).trans (congrArg some hb.symm)⟩
  · obtain ⟨d, rfl⟩ := List.length_eq_one_iff.mp (h.resolve_left hm)
    obtain ⟨b, hb⟩ := Vec.exists_ofPoint (List.length_replicate : (List.replicate m d).length = m)
    refine ⟨b, ?_⟩
    rw [Vec.spread?, if_neg hm, hb]

/-- **Least squares compute least squares,** of the operator and the data on points. -/
theorem leastSquares_computesSmooth {f : LeastSquares ℝ} {r : ℕ} {A : Space n → Space r} {B : Space r → Space n}
    (hop : f.operator.Computes A B) {b : Space r} (hb : Vec.spread? r f.data = some (Vec.ofPoint b)) :
    ComputesSmooth (some f.functional) (fun x => f.scale * ‖A x - b‖ ^ 2)
      fun x => (f.scale + f.scale) • B (A x - b) := by
  have hresidual : ∀ x, f.residual? (Vec.ofPoint x) = some (Vec.ofPoint (A x - b)) := by
    intro x
    have himage := hop.direct x _ ((Vec.length_zeros _).trans hop.rangeDim)
    simp only [LeastSquares.residual?, himage, Vec.length_ofPoint, hb, Option.bind_eq_bind, Option.bind_some]
    exact Vec.zip?_ofPoint fun _ => rfl
  refine ⟨fun x => ?_, fun x out hout => Functional.sameLength_ofPoint hout ?_⟩
  · show f.value? _ = _
    rw [LeastSquares.value?, hresidual]
    show some (f.scale * Vec.normSq _) = _
    rw [Vec.normSq_eq_pairing, Vec.pairing_ofPoint_self]
  · have hgradient : f.gradient? (Vec.ofPoint x) out =
        some (Vec.ofPoint ((f.scale + f.scale) • B (A x - b))) := by
      simp only [LeastSquares.gradient?, hresidual, hop.adjoint _ _ hout, Option.bind_eq_bind,
        Option.bind_some]
      exact congrArg some (Vec.map_ofPoint fun _ => rfl)
    show Outcome.put (f.gradient? _ out) = _
    rw [hgradient]
    rfl

/-- Least squares take the norm of their operator when they are made. -/
theorem leastSquares_of_norm {op : LinearOperator ℝ} {r : ℕ} {A : Space n → Space r} {B : Space r → Space n}
    (hop : op.Computes A B) {m : ℝ} (hnorm : op.norm? = some m) {data : Vec ℝ} {b : Space r}
    (hb : Vec.spread? r data = some (Vec.ofPoint b)) (c : ℝ) :
    ∃ f, LeastSquares.functional <$> LeastSquares.of? op data c = some f ∧ f.lipschitz = some ((c + c) * m * m) ∧
      ComputesSmooth (some f) (fun x => c * ‖A x - b‖ ^ 2) fun x => (c + c) • B (A x - b) := by
  let f : LeastSquares ℝ := ⟨op, data, c, (c + c) * m * m⟩
  refine ⟨f.functional, ?_, rfl, leastSquares_computesSmooth (f := f) hop hb⟩
  rw [LeastSquares.of?, hnorm]
  rfl

/-- Least squares lie between their bounds. -/
theorem exists_leastSquares {f : LeastSquares ℝ} (h : (leastSquares f).Proper n) :
    ∃ (F : Space n → ℝ) (G : Space n → Space n), ComputesSmooth (some f.functional) F G ∧
      Problem.Smooth F G f.lipschitz := by
  obtain ⟨hscale, hdim, hdata, image, coimage, hpair, hnorm⟩ := h
  obtain ⟨A, B, hop, hA, hinner⟩ := hpair.exists_computes hdim
  obtain ⟨b, hb⟩ := exists_spread hdata
  refine ⟨_, _, leastSquares_computesSmooth hop hb, Problem.smooth_leastSquares hinner hscale.le (fun x => ?_) b⟩
  have hbound := hnorm _ (Vec.length_ofPoint x)
  rwa [← hA, Vec.pairing_ofPoint_self, Vec.pairing_ofPoint_self, ← two_mul] at hbound

/-- **A smooth term lies between its bounds,** with the Lipschitz constant that it reports. -/
theorem exists_smooth {f : SmoothTerm} (h : f.Proper n) :
    ∃ (F : Space n → ℝ) (G : Space n → Space n) (l : ℝ), ComputesSmooth (some f.functional) F G ∧
      f.functional.lipschitz = some l ∧ Problem.Smooth F G l := by
  cases f with
  | squaredDistance f =>
    obtain ⟨hscale, hcenter⟩ := h
    obtain ⟨b, hb⟩ := f.exists_center hcenter
    exact ⟨_, _, f.scale + f.scale, hb.computesSmooth, rfl, Problem.smooth_squaredDistance hscale.le b⟩
  | leastSquares f =>
    obtain ⟨F, G, hcomputes, hsmooth⟩ := exists_leastSquares h
    exact ⟨F, G, f.lipschitz, hcomputes, rfl, hsmooth⟩

/-- The function is a convex one of vectors of length `n`; its scale may be zero, and nothing is said of the
    Lipschitz constant that is stored. -/
def IsConvex (n : ℕ) : SmoothTerm → Prop
  | squaredDistance f => 0 ≤ f.scale ∧ ∀ b ∈ f.center, b.length = n
  | leastSquares f => 0 ≤ f.scale ∧ f.operator.domainDim = n ∧
      (f.data.length = f.operator.rangeDim ∨ f.data.length = 1) ∧
      ∃ image coimage, f.operator.AdjointPair image coimage

/-- A linear map between spaces of finite dimension is bounded. -/
theorem exists_bound {r : ℕ} {A : Space n → Space r} (hA : IsLinearMap ℝ A) : ∃ l, ∀ x, ‖A x‖ ≤ l * ‖x‖ :=
  ⟨_, (LinearMap.toContinuousLinearMap (hA.mk' A)).le_opNorm⟩

/-- **A convex smooth term has a gradient with some Lipschitz constant.** -/
theorem exists_smooth_of_isConvex {f : SmoothTerm} (h : f.IsConvex n) :
    ∃ (F : Space n → ℝ) (G : Space n → Space n) (l : ℝ), ComputesSmooth (some f.functional) F G ∧
      Problem.Smooth F G l := by
  cases f with
  | squaredDistance f =>
    obtain ⟨hscale, hcenter⟩ := h
    obtain ⟨b, hb⟩ := f.exists_center hcenter
    exact ⟨_, _, _, hb.computesSmooth, Problem.smooth_squaredDistance hscale b⟩
  | leastSquares f =>
    obtain ⟨hscale, hdim, hdata, image, coimage, hpair⟩ := h
    obtain ⟨A, B, hop, -, hinner⟩ := hpair.exists_computes hdim
    obtain ⟨b, hb⟩ := exists_spread hdata
    obtain ⟨l, hl⟩ := exists_bound (Problem.isLinearMap_of_adjoint hinner)
    refine ⟨_, _, 2 * f.scale * l ^ 2, leastSquares_computesSmooth hop hb,
      Problem.smooth_leastSquares hinner hscale (fun x => ?_) b⟩
    calc 2 * f.scale * ‖A x‖ ^ 2 ≤ 2 * f.scale * (l * ‖x‖) ^ 2 := by gcongr; exact hl x
      _ = 2 * f.scale * l ^ 2 * ‖x‖ ^ 2 := by ring

end SmoothTerm

/-! ## Proximable terms -/

/-- The scale is one for which the function is convex. -/
def BasicTerm.IsConvex : BasicTerm ℝ → Prop
  | oneNorm f => 0 ≤ f.alpha
  | squaredDistance f => 0 ≤ f.scale

theorem BasicTerm.valueAt_oneNorm (f : OneNorm ℝ) (x : Space n) :
    (oneNorm f).valueAt (Vec.ofPoint x) = f.alpha * ∑ i, |x i| := by
  have habs : (Vec.ofPoint x).map (|·|) = Vec.ofPoint (WithLp.toLp 2 fun i => |x i|) :=
    Vec.map_ofPoint fun _ => rfl
  rw [valueAt, habs, Vec.sum_ofPoint]

theorem OneNorm.computesProximable (f : OneNorm ℝ) : ComputesProximable (some f.functional)
    (fun x : Space n => f.alpha * ∑ i, |x i|) fun a x => x.softThreshold (a * f.alpha) := by
  refine ⟨fun x => ?_, fun a x out _ hout => Functional.sameLength_ofPoint hout ?_⟩
  · show some (f.alpha * List.foldl (fun total v => total + |v|) 0 _) = _
    rw [BasicTerm.abs_foldl, zero_add]
    exact congrArg some (BasicTerm.valueAt_oneNorm f x)
  · have hmap : (Vec.ofPoint x).map (OneNorm.softThreshold (a * f.alpha)) =
        Vec.ofPoint (x.softThreshold (a * f.alpha)) := Vec.map_ofPoint fun _ => rfl
    show Functional.overwrite out (some ((Vec.ofPoint x).map _)) = _
    rw [hmap]
    exact Functional.overwrite_ofPoint hout _

/-- **The displacement of a proximal map is a subgradient.** -/
theorem BasicTerm.exists_subgradient {g : BasicTerm ℝ} (hg : g.IsConvex) (hfit : g.Fits n) :
    ∃ (H : Space n → ℝ) (P : ℝ → Space n → Space n), ComputesProximable (some g.functional) H P ∧
      Problem.Subgradient H P := by
  cases g with
  | oneNorm f => exact ⟨_, _, f.computesProximable, Problem.subgradient_oneNorm hg⟩
  | squaredDistance f =>
    obtain ⟨b, hb⟩ := f.exists_center hfit
    exact ⟨_, _, hb.computesProximable, Problem.subgradient_squaredDistance hg b⟩

end Splitting
