import Splitting.Proofs.Exact.ExtendedReals
import Splitting.Proofs.LossHistory

/-!
# `Splitting.Proofs.PrimalDual.OrderFree` — what the order of the blocks does not change

Three numbers are computed from all blocks at once: the least ratio behind a derived primal step, the sum of the
adjoints, and the two objectives. Each is a walk over the blocks from the first to the last, and in floating point
the order of the walk shows. In exact arithmetic it does not.

* `OrderFree` — the arithmetic in question; the real and the extended real numbers are examples;
* `PrimalDual.least?_perm` — the least of some numbers;
* `LinearOperator.adjointSum?_perm` — the sum of the adjoints, if the operators overwrite their buffer;
* `Spdhg.blockObjectives?_perm` — the part of the blocks in the objectives;
* `Spdhg.exists_record_iff` — the objectives are recorded exactly when they are there.
-/

namespace Splitting

/-! ## Arithmetic without an order -/

/-- Arithmetic in which terms may be added and taken off in any order, and minima be taken in any order. -/
class OrderFree (S : Type) [Scalar S] : Prop where
  add_right_comm : ∀ a b c : S, a + b + c = a + c + b
  sub_right_comm : ∀ a b c : S, a - b - c = a - c - b
  min_comm : ∀ a b : S, Scalar.min a b = Scalar.min b a
  min_right_comm : ∀ a b c : S, Scalar.min (Scalar.min a b) c = Scalar.min (Scalar.min a c) b

instance : OrderFree ℝ where
  add_right_comm := add_right_comm
  sub_right_comm := sub_right_comm
  min_comm := min_comm
  min_right_comm := min_right_comm

instance : OrderFree EReal where
  add_right_comm := add_right_comm
  sub_right_comm a b c := by
    show a + -b + -c = a + -c + -b
    exact add_right_comm a (-b) (-c)
  min_comm := min_comm
  min_right_comm := min_right_comm

variable {S W σ : Type} [Scalar S]

/-! ## The least ratio -/

namespace PrimalDual

theorem least?_eq_foldl (rs : List S) :
    least? rs = rs.foldl (fun best r => some (best.elim r (Scalar.min · r))) none := by
  have hbest : ∀ (rs : List S) (a : S),
      rs.foldl (fun best r => some (best.elim r (Scalar.min · r))) (some a) = some (rs.foldl Scalar.min a) := by
    intro rs
    induction rs with
    | nil => exact fun a => rfl
    | cons r rs ih => exact fun a => ih (Scalar.min a r)
  cases rs with
  | nil => rfl
  | cons r rs => exact (hbest rs r).symm

/-- **The least of some numbers** does not depend on their order. -/
theorem least?_perm [OrderFree S] {rs rs' : List S} (h : rs.Perm rs') : least? rs = least? rs' := by
  rw [least?_eq_foldl, least?_eq_foldl]
  refine h.foldl_eq' (fun a _ b _ best => ?_) none
  cases best with
  | none => exact congrArg some (OrderFree.min_comm a b)
  | some c => exact congrArg some (OrderFree.min_right_comm c a b)

end PrimalDual

/-! ## The sum of the adjoints -/

/-- Two vectors are added to a third in any order. -/
theorem Vec.add_right_comm [OrderFree S] (a b c : Vec S) :
    List.zipWith (· + ·) (List.zipWith (· + ·) a b) c = List.zipWith (· + ·) (List.zipWith (· + ·) a c) b := by
  induction a generalizing b c with
  | nil => simp
  | cons x a ih =>
    cases b with
    | nil => simp
    | cons y b =>
      cases c with
      | nil => simp
      | cons z c => simp only [List.zipWith_cons_cons, OrderFree.add_right_comm x y z, ih b c]

namespace LinearOperator

/-- What an operator and a vector add to a sum of `n` entries. -/
def addend? (n : Nat) (scratch : Vec S) (p : LinearOperator S × Vec S) : Option (Vec S) :=
  (p.1.adjointInto p.2 scratch).bind (Vec.spread? n)

variable {p : LinearOperator S × Vec S} {pairs pairs' : List (LinearOperator S × Vec S)} {total scratch : Vec S}

/-- The buffer of the adjoints matters by its length only. -/
theorem adjointSum?_of_length {scratch' : Vec S} (hall : ∀ p ∈ pairs, p.1.Overwrites)
    (hl : scratch'.length = scratch.length) :
    adjointSum? total scratch' pairs = adjointSum? total scratch pairs := by
  cases pairs with
  | nil => rfl
  | cons p rest =>
    have hfills := (hall p List.mem_cons_self).fills?_adjointInto p.2
    rw [adjointSum?, adjointSum?, hfills.eq_of_length hl]

/-- So the sum is a walk over the pairs in which each adds what it would add to any other sum as long. -/
theorem adjointSum?_cons (hall : ∀ q ∈ pairs, q.1.Overwrites) :
    adjointSum? total scratch (p :: pairs) = (addend? total.length scratch p).bind fun t =>
      adjointSum? (List.zipWith (· + ·) total t) scratch pairs := by
  simp only [adjointSum?, addend?, Option.bind_eq_bind]
  cases hs : p.1.adjointInto p.2 scratch with
  | none => rfl
  | some s =>
    simp only [Option.bind_some]
    cases ht : Vec.spread? total.length s with
    | none => rfl
    | some t =>
      have hzip : Vec.zip? (· + ·) total t = some (List.zipWith (· + ·) total t) :=
        Vec.zip?_eq_some_iff.mpr ⟨(Vec.length_of_spread? ht).symm, rfl⟩
      simp only [Option.bind_some, hzip]
      exact adjointSum?_of_length hall (length_of_adjointInto hs)

/-- **The sum of the adjoints** does not depend on the order of the operators. -/
theorem adjointSum?_perm [OrderFree S] (h : pairs.Perm pairs') (hall : ∀ p ∈ pairs, p.1.Overwrites) :
    adjointSum? total scratch pairs = adjointSum? total scratch pairs' := by
  induction h generalizing total with
  | nil => rfl
  | cons p h ih =>
    have hrest := fun q hq => hall q (List.mem_cons_of_mem p hq)
    rw [adjointSum?_cons hrest, adjointSum?_cons fun q hq => hrest q (h.mem_iff.mpr hq)]
    exact congrArg _ (funext fun t => ih hrest)
  | swap p q rest =>
    have hrest : ∀ r ∈ rest, r.1.Overwrites := fun r hr =>
      hall r (List.mem_cons_of_mem q (List.mem_cons_of_mem p hr))
    have hp : ∀ r ∈ p :: rest, r.1.Overwrites := fun r hr => hall r (List.mem_cons_of_mem q hr)
    have hq : ∀ r ∈ q :: rest, r.1.Overwrites :=
      List.forall_mem_cons.mpr ⟨hall q List.mem_cons_self, hrest⟩
    have hlength : ∀ {r : LinearOperator S × Vec S} {t : Vec S}, addend? total.length scratch r = some t →
        (List.zipWith (· + ·) total t).length = total.length := by
      intro r t ht
      obtain ⟨s, -, hs⟩ := Option.bind_eq_some_iff.mp ht
      exact Vec.length_zipWith_of_length rfl (Vec.length_of_spread? hs)
    simp only [adjointSum?_cons hp, adjointSum?_cons hq, adjointSum?_cons hrest]
    -- each of the two adds the same in either place, and the additions commute
    cases ht : addend? total.length scratch p with
    | none =>
      cases hu : addend? total.length scratch q with
      | none => rfl
      | some u => simp only [Option.bind_some, Option.bind_none, hlength hu, ht]
    | some t =>
      cases hu : addend? total.length scratch q with
      | none => simp only [Option.bind_some, Option.bind_none, hlength ht, hu]
      | some u => simp only [Option.bind_some, hlength ht, hlength hu, ht, hu, Vec.add_right_comm total t u]
  | trans h _ ih ih' => exact (ih hall).trans (ih' fun q hq => hall q (h.mem_iff.mpr hq))

end LinearOperator

/-! ## The objectives -/

theorem Except.toOption_eq_some_iff {ε α : Type} {c : Except ε α} {a : α} : c.toOption = some a ↔ c = .ok a := by
  cases c <;> simp [Except.toOption]

namespace Spdhg

/-- What a block adds to the primal objective, and takes off the dual one. -/
def share? (x : Vec S) (b : DualBlock S) : Option (S × S) := do
  let v ← b.term.value (← b.operator.direct? x)
  let c ← (b.term.conjugate b.dual).toOption
  return (v, c)

variable {x : Vec S} {p d : S} {b : DualBlock S} {bs bs' : List (DualBlock S)}

theorem blockObjectives?_cons : blockObjectives? x p d (b :: bs) =
    (share? x b).bind fun s => blockObjectives? x (p + s.1) (d - s.2) bs := by
  simp only [blockObjectives?, share?, Option.bind_eq_bind, Option.bind_assoc, Option.pure_def, Option.bind_some]

/-- **The part of the blocks in the objectives** does not depend on their order. -/
theorem blockObjectives?_perm [OrderFree S] (h : bs.Perm bs') :
    blockObjectives? x p d bs = blockObjectives? x p d bs' := by
  induction h generalizing p d with
  | nil => rfl
  | cons b _ ih => simp only [blockObjectives?_cons, ih]
  | swap b c rest =>
    simp only [blockObjectives?_cons]
    cases share? x b with
    | none => cases share? x c <;> rfl
    | some s =>
      cases share? x c with
      | none => rfl
      | some t =>
        simp only [Option.bind_some, OrderFree.add_right_comm p s.1 t.1, OrderFree.sub_right_comm d s.2 t.2]
  | trans _ _ ih ih' => exact ih.trans ih'

/-- The image buffers have no part in it. -/
theorem blockObjectives?_map_imageless :
    blockObjectives? x p d (bs.map fun b => b.imageless.1) = blockObjectives? x p d bs := by
  induction bs generalizing p d with
  | nil => rfl
  | cons b bs ih =>
    rw [List.map_cons, blockObjectives?_cons, blockObjectives?_cons]
    simp only [ih]
    rfl

/-- Where the part of the blocks is there, the blocks can be walked through. -/
theorem exists_of_blockObjectives? {n : Nat} {v : S × S} (hshaped : ∀ b ∈ bs, b.Shaped n)
    (hfills : ∀ b ∈ bs, ∀ x, Fills? (b.operator.direct x)) (h : blockObjectives? x p d bs = some v) :
    ∃ bs', blockObjectives x p d bs = .ok v bs' := by
  induction bs generalizing p d with
  | nil => exact ⟨[], congrArg (Outcome.ok · []) (Option.some.inj h)⟩
  | cons b rest ih =>
    simp only [blockObjectives?, Option.bind_eq_bind, Option.bind_eq_some_iff] at h
    obtain ⟨image, himage, a, hvalue, c, hconjugate, hrest⟩ := h
    have hlength : b.image.length = (Vec.zeros b.operator.rangeDim : Vec S).length :=
      (hshaped b List.mem_cons_self).image.trans (Vec.length_zeros _).symm
    have hdirect : b.operator.directInto x b.image = some image :=
      LinearOperator.fills?_into (hfills b List.mem_cons_self x) hlength himage
    obtain ⟨bs', hbs'⟩ := ih (fun b hb => hshaped b (List.mem_cons_of_mem _ hb))
      (fun b hb => hfills b (List.mem_cons_of_mem _ hb)) hrest
    simp only [blockObjectives, hdirect, hvalue, Except.toOption_eq_some_iff.mp hconjugate, hbs']
    exact ⟨_, rfl⟩

/-- **The objectives are recorded exactly when they are there.** -/
theorem exists_record_iff {m : Spdhg S σ} (hshaped : m.Shaped) (hfills : m.FillsImages) :
    (∃ m', m.recordObjective = .ok () m') ↔ ∃ v, m.objectives? = some v := by
  constructor
  · rintro ⟨m', h⟩
    obtain ⟨v, hv, -⟩ := record_eq_ok hshaped hfills h
    exact ⟨v, hv⟩
  · rintro ⟨v, h⟩
    simp only [objectives?, Option.bind_eq_bind, Option.bind_eq_some_iff] at h
    obtain ⟨g, hg, ⟨primal, dual⟩, hblocks, adjoint, hadjoint, c, hc, -⟩ := h
    obtain ⟨bs', hbs'⟩ := exists_of_blockObjectives? hshaped.block hfills hblocks
    have hafter : negatedAdjoint? { m with blocks := bs' } = some adjoint :=
      (negatedAdjoint?_of_map_outline rfl (outline_of_blockObjectives (by rw [hbs']; rfl))).trans hadjoint
    exact ⟨_, recordObjective_eq_ok_iff.mpr
      ⟨g, primal, dual, bs', adjoint, c, hg, hbs', hafter, Except.toOption_eq_some_iff.mp hc, rfl⟩⟩

end Spdhg

end Splitting
