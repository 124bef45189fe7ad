import Splitting.Operator.Stack
import Splitting.Proofs.Operator.Adjoint

/-!
# `Splitting.Proofs.Operator.Norms` — operators whose norm can be had

The norm of an operator that does not know it is estimated by power iteration, which takes both maps of the
operator again and again. The iteration comes to an end wherever these have values on all vectors and buffers
of the right lengths.

* `LinearOperator.Responds` — the maps have values wherever the lengths fit; `LinearOperator.responds_matrix`;
* `LinearOperator.Responds.exists_norm`, `LinearOperator.exists_norms` — then there is a norm;
* `LinearOperator.norms?_eq_some_iff`, `LinearOperator.exists_norms?_iff` — norms are had one by one;
* `OperatorStack.norms?_of_known`, `OperatorStack.norms?_of_estimated`, `OperatorStack.norms?_of_unknown` — what a
  stack answers, and what it then knows.
-/

namespace Splitting

variable {S W : Type}

namespace LinearOperator

variable [Scalar S]

/-- The maps of an operator have values wherever the lengths fit. -/
structure Responds (op : LinearOperator S) : Prop where
  direct : ∀ {x out : Vec S}, x.length = op.domainDim → out.length = op.rangeDim →
    ∃ v, op.directInto x out = some v
  adjoint : ∀ {y out : Vec S}, y.length = op.rangeDim → out.length = op.domainDim →
    ∃ v, op.adjointInto y out = some v

/-- A dense matrix, the only operator here that does not know its norm, responds. -/
theorem responds_matrix (a : Matrix S) : (matrix a).Responds := by
  have hdot : ∀ {f : List S → S} {u v : Vec S}, u.length = v.length →
      (Vec.zip? (· * ·) u v).map f = some (f (List.zipWith (· * ·) u v)) := by
    intro f u v huv
    rw [Vec.zip?_eq_some_iff.mpr ⟨huv, rfl⟩]
    rfl
  -- a product that has the length of the buffer is written twice, by the map and by its caller
  have hwrite : ∀ {u out : Vec S}, u.length = out.length → (out.write? u).bind out.write? = some u := by
    intro u out hl
    rw [Vec.write?_eq_some_iff.mpr ⟨hl, rfl⟩]
    exact Vec.write?_eq_some_iff.mpr ⟨hl, rfl⟩
  constructor
  · intro x out hx hout
    change x.length = a.cols at hx
    have hrows : a.rows.mapM (fun r => Vec.dot? r x) =
        some (a.rows.map fun r => Vec.laneSum (List.zipWith (· * ·) r x)) :=
      mapM_eq_some_map fun r hr => hdot ((a.length_of_mem r hr).trans hx.symm)
    refine ⟨a.rows.map fun r => Vec.laneSum (List.zipWith (· * ·) r x), ?_⟩
    show (a.mulVec? x out).bind out.write? = _
    rw [Matrix.mulVec?, if_pos hx, hrows]
    exact hwrite ((List.length_map _).trans hout.symm)
  · intro y out hy hout
    change y.length = a.rows.length at hy
    have hcolumn : ∀ j, a.columnDot? j y = some ((if a.cols = 1 then Vec.laneSum else Vec.sum)
        (List.zipWith (· * ·) (a.column j) y)) := by
      intro j
      have hl : (a.column j).length = y.length := (List.length_map _).trans hy.symm
      unfold Matrix.columnDot?
      split
      · exact hdot hl
      · exact hdot hl
    have hcols := mapM_eq_some_map (l := List.range a.cols) fun j _ => hcolumn j
    refine ⟨(List.range a.cols).map fun j => (if a.cols = 1 then Vec.laneSum else Vec.sum)
      (List.zipWith (· * ·) (a.column j) y), ?_⟩
    show (a.transposeMulVec? y out).bind out.write? = _
    rw [Matrix.transposeMulVec?, if_pos hy, hcols]
    refine hwrite ?_
    rw [List.length_map, List.length_range]
    exact hout.symm

/-- The rounds of a power iteration come to an end. -/
theorem Responds.exists_powerRounds {op : LinearOperator S} (h : op.Responds) (tol : S) (rounds : Nat)
    {x image back : Vec S} (square : S) (hx : x.length = op.domainDim) (himage : image.length = op.rangeDim)
    (hback : back.length = op.domainDim) : ∃ n, op.powerRounds? tol rounds x image back square = some n := by
  induction rounds generalizing x image back square with
  | zero => exact ⟨_, rfl⟩
  | succ k ih =>
    obtain ⟨image', himage'⟩ := h.direct hx himage
    have hlimage : image'.length = op.rangeDim := (length_of_directInto himage').trans himage
    obtain ⟨back', hback'⟩ := h.adjoint hlimage hback
    have hlback : back'.length = op.domainDim := (length_of_adjointInto hback').trans hback
    simp only [powerRounds?, himage', hback', Option.bind_eq_bind, Option.bind_some]
    split
    · exact ⟨0, rfl⟩
    · split
      · exact ⟨_, rfl⟩
      · exact ih _ ((List.length_map _).trans hlback) hlimage hlback

variable [Scalar W] [Precision S W]

omit [Scalar S] in
theorem length_startEntries (n : Nat) (g : Generator) : (startEntries n g : Vec S).length = n := by
  induction n generalizing g with
  | zero => rfl
  | succ n ih => exact congrArg (· + 1) (ih _)

/-- **The norm of an operator that responds can be had.** -/
theorem Responds.exists_norm {op : LinearOperator S} (h : op.knownNorm = none → op.Responds) :
    ∃ n, op.norm? = some n := by
  unfold norm?
  cases hknown : op.knownNorm with
  | some n => exact ⟨n, rfl⟩
  | none =>
    simp only [powerMethod?, powerMethodFrom?]
    split
    · exact ⟨0, rfl⟩
    · exact (h hknown).exists_powerRounds _ _ _ ((List.length_map _).trans (length_startEntries _ _))
        (Vec.length_zeros _) (Vec.length_zeros _)

variable {ops : List (LinearOperator S)}

theorem norms?_eq_some_iff {ns : List S} : norms? ops = some ns ↔ ops.map norm? = ns.map some := by
  induction ops generalizing ns with
  | nil => cases ns <;> simp [norms?]
  | cons op rest ih =>
    simp only [norms?, Option.bind_eq_bind, Option.bind_eq_some_iff, Option.pure_def, Option.some.injEq,
      List.map_cons]
    constructor
    · rintro ⟨n, hn, ns, hns, rfl⟩
      rw [hn, ih.mp hns, List.map_cons]
    · intro h
      obtain ⟨n, ns', rfl, hn, hns⟩ := List.map_eq_cons_iff.mp h.symm
      exact ⟨n, hn.symm, ns', ih.mpr hns.symm, rfl⟩

/-- Several operators have norms if each has one. -/
theorem exists_norms?_iff : (∃ ns, norms? ops = some ns) ↔ ∀ op ∈ ops, ∃ n, op.norm? = some n := by
  simp only [norms?_eq_some_iff]
  constructor
  · rintro ⟨ns, hns⟩ op hop
    have hmem : op.norm? ∈ ns.map some := hns ▸ List.mem_map_of_mem hop
    obtain ⟨n, -, hn⟩ := List.mem_map.mp hmem
    exact ⟨n, hn.symm⟩
  · intro h
    have hall : ops.map norm? ∈ Set.range (List.map some) := by
      rw [Set.range_list_map]
      intro o ho
      obtain ⟨op, hop, rfl⟩ := List.mem_map.mp ho
      obtain ⟨n, hn⟩ := h op hop
      exact ⟨n, hn.symm⟩
    obtain ⟨ns, hns⟩ := hall
    exact ⟨ns, hns.symm⟩

theorem exists_norms (h : ∀ op ∈ ops, op.knownNorm = none → op.Responds) : ∃ ns, norms? ops = some ns :=
  exists_norms?_iff.mpr fun op hop => Responds.exists_norm (h op hop)

end LinearOperator

/-! ## The norms of a stack -/

namespace OperatorStack

variable [Scalar S] [Scalar W] [Precision S W] {k : OperatorStack S} {ns : List S}

theorem norms?_of_known (h : k.knownNorms = some ns) : k.norms? = some (ns, k) := by
  unfold norms?
  split
  · next ns' hns' =>
    rw [h] at hns'
    cases hns'
    rfl
  · next hnone =>
    rw [h] at hnone
    cases hnone

theorem norms?_of_unknown (h : k.knownNorms = none) (hns : LinearOperator.norms? k.blocks = none) :
    k.norms? = none := by
  unfold norms?
  split
  · next hsome =>
    rw [h] at hsome
    cases hsome
  · split
    · rfl
    · next hsome =>
      rw [hns] at hsome
      cases hsome

theorem norms?_of_estimated (h : k.knownNorms = none) (hns : LinearOperator.norms? k.blocks = some ns) :
    ∃ k', k.norms? = some (ns, k') ∧ k'.blocks = k.blocks ∧ k'.knownNorms = some ns := by
  unfold norms?
  split
  · next hsome =>
    rw [h] at hsome
    cases hsome
  · split
    · next hnone =>
      rw [hns] at hnone
      cases hnone
    · next ns' hns' =>
      rw [hns] at hns'
      cases hns'
      exact ⟨_, rfl, rfl, rfl⟩

end OperatorStack

end Splitting
