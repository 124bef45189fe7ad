import Splitting.Functional.LeastSquares
import Splitting.Functional.OneNorm
import Splitting.Functional.SquaredDistance
import Splitting.Operator.Matrix

/-!
# `Splitting.Proofs.Buffers` — what a buffer held does not matter

Functions and operators write into buffers that earlier calls have left behind. One that overwrites its
buffer and does not read it gives the same for all buffers of one length; what it computes can then be said
without a buffer. The functions and operators of this library are of this kind, and what is built from such
ones is again.

* `Fills`, `Fills?` — a step that overwrites its buffer, with an outcome or an optional value;
* `Spares` — a step that fails, if it does, before it writes into its buffer;
* `Functional.Overwrites`, `LinearOperator.Overwrites` — the law for a function and for an operator;
* `Functional.Sparing` — every operation of a function fails before it writes;
* `Functional.proximal?`, `Functional.gradientAt?`, `LinearOperator.direct?` and so on — what is computed,
  in a fresh buffer, and the lemmas that any other buffer gives the same;
* `SquaredDistance.overwrites`, `OneNorm.overwrites`, `LeastSquares.overwrites`, `SquaredDistance.sparing`,
  `LinearOperator.overwrites_matrix` and so on — the functions and operators of this library.
-/

namespace Splitting

variable {S : Type}

/-! ## Steps that overwrite their buffer -/

/-- A step on a buffer that succeeds for all buffers of one length or for none of them, and with one
    result. -/
def Fills (op : Vec S → Outcome (Vec S) Unit) : Prop :=
  ∀ ⦃out out' v⦄, out'.length = out.length → op out = .ok () v → op out' = .ok () v

/-- The same for a step that has a value or none. -/
def Fills? (op : Vec S → Option (Vec S)) : Prop :=
  ∀ ⦃out out' v⦄, out'.length = out.length → op out = some v → op out' = some v

/-- A step on a buffer that fails with one error for all buffers of one length or for none of them, and then has
    not written into the buffer. -/
def Spares (op : Vec S → Outcome (Vec S) Unit) : Prop :=
  ∀ ⦃out out' v e⦄, out'.length = out.length → op out = .error e v → v = out ∧ op out' = .error e out'

/-- A step that never fails spares its buffer. -/
theorem spares_of_ne_error {op : Vec S → Outcome (Vec S) Unit} (h : ∀ out e v, op out ≠ .error e v) :
    Spares op := by
  intro out out' v e _ hv
  exact absurd hv (h out e v)

/-- A step that overwrites its buffer, and spares it if it fails, ends in the same way for all buffers of one
    length. -/
theorem Fills.cases_of_spares {op : Vec S → Outcome (Vec S) Unit} (hfills : Fills op) (hspares : Spares op)
    {out out' : Vec S} (hl : out'.length = out.length) : (∃ v, op out = .ok () v ∧ op out' = .ok () v) ∨
      (∃ e, op out = .error e out ∧ op out' = .error e out') ∨ op out = .mismatch ∧ op out' = .mismatch := by
  cases ho : op out with
  | ok _ v => exact Or.inl ⟨v, rfl, hfills hl ho⟩
  | error e v =>
    obtain ⟨rfl, ho'⟩ := hspares hl ho
    exact Or.inr (Or.inl ⟨e, rfl, ho'⟩)
  | mismatch =>
    -- an end of the other kind would carry over from the second buffer to the first
    cases ho' : op out' with
    | ok _ v => rw [hfills hl.symm ho'] at ho; cases ho
    | error e v => rw [(hspares hl.symm ho').2] at ho; cases ho
    | mismatch => exact Or.inr (Or.inr ⟨rfl, rfl⟩)

theorem Fills?.put {op : Vec S → Option (Vec S)} (h : Fills? op) : Fills fun out => .put (op out) := by
  intro out out' v hl hv
  rw [Outcome.put_eq_ok_iff] at hv ⊢
  exact h hl hv

theorem fills?_write? (new : Option (Vec S)) : Fills? fun out => new.bind (Vec.write? out) := by
  intro out out' v hl hv
  obtain ⟨w, hw, hv⟩ := Option.bind_eq_some_iff.mp hv
  refine Option.bind_eq_some_iff.mpr ⟨w, hw, ?_⟩
  rw [Vec.write?_eq_some_iff] at hv ⊢
  exact ⟨hv.1.trans hl.symm, hv.2⟩

namespace Functional

theorem fills_overwrite (new : Option (Vec S)) : Fills fun out => overwrite out new :=
  (fills?_write? new).put

theorem fills_unsupported (operation : String) : Fills fun out : Vec S => unsupported operation out := by
  intro out out' v _ h
  cases h

theorem fills_sameLength {op : Vec S → Outcome (Vec S) Unit} (h : Fills op) :
    Fills fun out => sameLength out (op out) := by
  intro out out' v hl hv
  rw [sameLength_eq_ok_iff] at hv ⊢
  exact ⟨h hl hv.1, hv.2.trans hl.symm⟩

theorem spares_overwrite (new : Option (Vec S)) : Spares fun out => overwrite out new :=
  spares_of_ne_error fun _ _ _ => Outcome.put_ne_error

theorem spares_unsupported (operation : String) : Spares fun out : Vec S => unsupported operation out := by
  intro out out' v e _ h
  cases h
  exact ⟨rfl, rfl⟩

theorem spares_sameLength {op : Vec S → Outcome (Vec S) Unit} (h : Spares op) :
    Spares fun out => sameLength out (op out) := by
  intro out out' v e hl hv
  rw [sameLength_eq_error_iff] at hv ⊢
  obtain ⟨rfl, hfails⟩ := h hl hv.1
  exact ⟨rfl, hfails, rfl⟩

/-- All operations of a function fail, if they do, before they write into their buffer. -/
structure Sparing (f : Functional S) : Prop where
  gradient : ∀ x, Spares (f.gradient x)
  proximal : ∀ x tau, Spares (f.proximal x tau)
  proximalConjugate : ∀ x tau, Spares (f.proximalConjugate x tau)

/-- All operations of a function overwrite their buffer. -/
structure Overwrites (f : Functional S) : Prop where
  gradient : ∀ x, Fills (f.gradient x)
  proximal : ∀ x tau, Fills (f.proximal x tau)
  proximalConjugate : ∀ x tau, Fills (f.proximalConjugate x tau)

variable [Scalar S]

/-- What a step leaves in a fresh buffer, if it succeeds. -/
def fresh? (op : Vec S → Outcome (Vec S) Unit) (n : Nat) : Option (Vec S) :=
  (op (Vec.zeros n)).success?.map Prod.snd

/-- A step that fills its buffer leaves in every buffer what it leaves in a fresh one. -/
theorem fresh?_eq_some_iff {op : Vec S → Outcome (Vec S) Unit} (h : Fills op) {n : Nat} {out v : Vec S}
    (hout : out.length = n) : fresh? op n = some v ↔ op out = .ok () v := by
  have hfresh : (Vec.zeros n : Vec S).length = out.length := (Vec.length_zeros n).trans hout.symm
  rw [fresh?, Option.map_eq_some_iff]
  constructor
  · rintro ⟨⟨⟨⟩, w⟩, hw, rfl⟩
    exact h hfresh.symm (Outcome.success?_eq_some_iff.mp hw)
  · intro hv
    exact ⟨((), v), Outcome.success?_eq_some_iff.mpr (h hfresh hv), rfl⟩

/-- The gradient at `x`. -/
def gradientAt? (f : Functional S) (x : Vec S) : Option (Vec S) := fresh? (f.gradientInto x) x.length

/-- The proximal map at `x`. -/
def proximal? (f : Functional S) (x : Vec S) (tau : S) : Option (Vec S) :=
  fresh? (f.proximalInto x tau) x.length

/-- The proximal map of the conjugate at `x`. -/
def proximalConjugate? (f : Functional S) (x : Vec S) (tau : S) : Option (Vec S) :=
  fresh? (f.proximalConjugateInto x tau) x.length

variable {f : Functional S} {x out v : Vec S} {tau : S}

/-- Any buffer gives the gradient. -/
theorem gradientAt?_eq_some_iff (h : Fills (f.gradient x)) (hout : out.length = x.length) :
    f.gradientAt? x = some v ↔ f.gradientInto x out = .ok () v :=
  fresh?_eq_some_iff (fills_sameLength h) hout

/-- Any buffer gives the proximal map. -/
theorem proximal?_eq_some_iff (h : Fills (f.proximal x tau)) (hout : out.length = x.length) :
    f.proximal? x tau = some v ↔ f.proximalInto x tau out = .ok () v :=
  fresh?_eq_some_iff (fills_sameLength h) hout

/-- Any buffer gives the proximal map of the conjugate. -/
theorem proximalConjugate?_eq_some_iff (h : Fills (f.proximalConjugate x tau))
    (hout : out.length = x.length) :
    f.proximalConjugate? x tau = some v ↔ f.proximalConjugateInto x tau out = .ok () v :=
  fresh?_eq_some_iff (fills_sameLength h) hout

/-- The proximal map of the conjugate that is derived from a proximal map overwrites its buffer if that
    does. -/
theorem fills_moreau {proximal : Vec S → S → Vec S → Outcome (Vec S) Unit}
    (h : ∀ x tau, Fills (proximal x tau)) (x : Vec S) (tau : S) : Fills (moreau proximal x tau) := by
  intro out out' v hl hv
  unfold moreau at hv ⊢
  -- the proximal map has overwritten the buffer before it is read
  obtain ⟨⟨⟩, w, hw, hv⟩ := Outcome.bind_eq_ok_iff.mp hv
  exact Outcome.bind_eq_ok_iff.mpr ⟨(), w, fills_sameLength (h _ _) hl hw, hv⟩

/-- It fails before it writes if that does. -/
theorem spares_moreau {proximal : Vec S → S → Vec S → Outcome (Vec S) Unit}
    (h : ∀ x tau, Spares (proximal x tau)) (x : Vec S) (tau : S) :
    Spares (moreau proximal x tau) := by
  intro out out' v e hl hv
  unfold moreau at hv ⊢
  rcases Outcome.bind_eq_error_iff.mp hv with hv | ⟨⟨⟩, w, -, hv⟩
  · obtain ⟨rfl, hfails⟩ := spares_sameLength (h _ _) hl hv
    exact ⟨rfl, Outcome.bind_eq_error_iff.mpr (Or.inl hfails)⟩
  · -- what follows the proximal map does not fail
    exact absurd hv Outcome.put_ne_error

theorem sparing_ofProximal {value : Vec S → Option S} {proximal : Vec S → S → Vec S → Outcome (Vec S) Unit}
    (h : ∀ x tau, Spares (proximal x tau)) : (ofProximal value proximal).Sparing :=
  ⟨fun _ => spares_unsupported _, h, spares_moreau h⟩

theorem overwrites_ofProximal {value : Vec S → Option S} {proximal : Vec S → S → Vec S → Outcome (Vec S) Unit}
    (h : ∀ x tau, Fills (proximal x tau)) : (ofProximal value proximal).Overwrites :=
  ⟨fun _ => fills_unsupported _, h, fills_moreau h⟩

end Functional

/-! ## Operators -/

namespace LinearOperator

/-- Both maps of an operator overwrite their buffer. -/
structure Overwrites (op : LinearOperator S) : Prop where
  direct : ∀ x, Fills? (op.direct x)
  adjoint : ∀ y, Fills? (op.adjoint y)

theorem fills?_into {op : Vec S → Option (Vec S)} (h : Fills? op) :
    Fills? fun out => (op out).bind out.write? := by
  intro out out' v hl hv
  obtain ⟨w, hw, hv⟩ := Option.bind_eq_some_iff.mp hv
  exact Option.bind_eq_some_iff.mpr ⟨w, h hl hw, fills?_write? (some w) hl hv⟩

variable [Scalar S]

/-- `K x`. -/
def direct? (op : LinearOperator S) (x : Vec S) : Option (Vec S) := op.directInto x (Vec.zeros op.rangeDim)

/-- `Kᵀ y`. -/
def adjoint? (op : LinearOperator S) (y : Vec S) : Option (Vec S) := op.adjointInto y (Vec.zeros op.domainDim)

namespace Overwrites

variable {op : LinearOperator S} {x out v : Vec S}

omit [Scalar S] in
theorem fills?_directInto (h : op.Overwrites) (x : Vec S) : Fills? (op.directInto x) :=
  fills?_into (h.direct x)

omit [Scalar S] in
theorem fills?_adjointInto (h : op.Overwrites) (y : Vec S) : Fills? (op.adjointInto y) :=
  fills?_into (h.adjoint y)

/-- Any buffer gives `K x`. -/
theorem direct?_eq_some_iff (h : op.Overwrites) (hout : out.length = op.rangeDim) :
    op.direct? x = some v ↔ op.directInto x out = some v := by
  have hfresh : (Vec.zeros op.rangeDim : Vec S).length = out.length := (Vec.length_zeros _).trans hout.symm
  exact ⟨fun hv => h.fills?_directInto x hfresh.symm hv, fun hv => h.fills?_directInto x hfresh hv⟩

/-- Any buffer gives `Kᵀ y`. -/
theorem adjoint?_eq_some_iff (h : op.Overwrites) (hout : out.length = op.domainDim) :
    op.adjoint? x = some v ↔ op.adjointInto x out = some v := by
  have hfresh : (Vec.zeros op.domainDim : Vec S).length = out.length := (Vec.length_zeros _).trans hout.symm
  exact ⟨fun hv => h.fills?_adjointInto x hfresh.symm hv, fun hv => h.fills?_adjointInto x hfresh hv⟩

end Overwrites

theorem overwrites_matrix (a : Matrix S) : (matrix a).Overwrites := by
  constructor
  · intro x out out' v hl hv
    by_cases hx : x.length = a.cols
    · simp only [matrix, Matrix.mulVec?, if_pos hx] at hv ⊢
      exact fills?_write? _ hl hv
    · simp only [matrix, Matrix.mulVec?, if_neg hx] at hv
      cases hv
  · intro y out out' v hl hv
    by_cases hy : y.length = a.rows.length
    · simp only [matrix, Matrix.transposeMulVec?, if_pos hy] at hv ⊢
      exact fills?_write? _ hl hv
    · simp only [matrix, Matrix.transposeMulVec?, if_neg hy] at hv
      cases hv

theorem overwrites_identity (dim : Nat) : (identity dim : LinearOperator S).Overwrites := by
  have hspread : ∀ x : Vec S, Fills? fun out => Vec.spread? out.length x := by
    intro x out out' v hl hv
    dsimp only at hv ⊢
    rwa [hl]
  exact ⟨hspread, hspread⟩

theorem overwrites_diagonal (d : Vec S) : (diagonal d).Overwrites :=
  ⟨fun x => fills?_write? (Vec.zip? (· * ·) d x), fun y => fills?_write? (Vec.zip? (· * ·) d y)⟩

end LinearOperator

/-! ## Functions -/

variable [Scalar S]

theorem OneNorm.overwrites (f : OneNorm S) : f.functional.Overwrites :=
  ⟨fun _ => Functional.fills_unsupported _, fun _ _ => Functional.fills_overwrite _,
    fun _ _ => Functional.fills_overwrite _⟩

theorem SquaredDistance.overwrites (f : SquaredDistance S) : f.functional.Overwrites :=
  ⟨fun _ => Functional.fills_overwrite _, fun _ _ => Functional.fills_overwrite _,
    fun _ _ => Functional.fills_overwrite _⟩

theorem OneNorm.sparing (f : OneNorm S) : f.functional.Sparing :=
  ⟨fun _ => Functional.spares_unsupported _, fun _ _ => Functional.spares_overwrite _,
    fun _ _ => Functional.spares_overwrite _⟩

theorem SquaredDistance.sparing (f : SquaredDistance S) : f.functional.Sparing :=
  ⟨fun _ => Functional.spares_overwrite _, fun _ _ => Functional.spares_overwrite _,
    fun _ _ => Functional.spares_overwrite _⟩

theorem LeastSquares.sparing (f : LeastSquares S) : f.functional.Sparing := by
  have hderived : (Functional.ofProximal f.value? fun _ _ out =>
    Functional.unsupported "proximal" out).Sparing :=
    Functional.sparing_ofProximal fun _ _ => Functional.spares_unsupported _
  exact ⟨fun _ => spares_of_ne_error fun _ _ _ => Outcome.put_ne_error, hderived.proximal,
    hderived.proximalConjugate⟩

/-- The gradient of a least-squares term overwrites its buffer if the operator's adjoint does. -/
theorem LeastSquares.overwrites {f : LeastSquares S} (h : f.operator.Overwrites) :
    f.functional.Overwrites := by
  have hderived : (Functional.ofProximal f.value? fun _ _ out =>
    Functional.unsupported "proximal" out).Overwrites :=
    Functional.overwrites_ofProximal fun _ _ => Functional.fills_unsupported _
  refine ⟨fun x => Fills?.put ?_, hderived.proximal, hderived.proximalConjugate⟩
  intro out out' v hl hv
  simp only [LeastSquares.gradient?, Option.bind_eq_bind, Option.bind_eq_some_iff] at hv ⊢
  -- the residual does not depend on the buffer, and the adjoint overwrites it
  obtain ⟨r, hr, back, hback, hv⟩ := hv
  exact ⟨r, hr, back, h.fills?_adjointInto r hl hback, hv⟩

end Splitting
