import Splitting.Error

/-!
# `Splitting.Outcome` — steps that keep their state when they fail

A step of a method changes a state that outlives its failures: a buffer half written, a sampler already
advanced. An `Outcome σ α` is therefore a value or an error, each with the state that it leaves behind. Only
vectors whose lengths do not fit leave no state: nothing can go on after them.

* `Outcome.bind` — one step after another; an error skips the rest and keeps the state it arose in;
* `Outcome.mapState` — a step on a part of a larger state;
* `Outcome.ofOption`, `Outcome.ofExcept` — computations without a state of their own.
-/

namespace Splitting

/-- How a step that acts on a state of type `σ` ends. -/
inductive Outcome (σ : Type) (α : Type) where
  | ok (value : α) (state : σ)
  | error (cause : Error) (state : σ)
  /-- The lengths of two vectors do not fit. -/
  | mismatch
deriving Repr

namespace Outcome

variable {σ τ α β γ : Type}

/-- The next step starts from the state that this one leaves, unless this one failed. -/
def bind (o : Outcome σ α) (next : α → σ → Outcome σ β) : Outcome σ β :=
  match o with
  | .ok a s => next a s
  | .error e s => .error e s
  | .mismatch => .mismatch

/-- Changes the value. -/
def map (f : α → β) (o : Outcome σ α) : Outcome σ β :=
  match o with
  | .ok a s => .ok (f a) s
  | .error e s => .error e s
  | .mismatch => .mismatch

/-- Puts the state into a larger one, whether the step failed or not. -/
def mapState (f : σ → τ) (o : Outcome σ α) : Outcome τ α :=
  match o with
  | .ok a s => .ok a (f s)
  | .error e s => .error e (f s)
  | .mismatch => .mismatch

/-- A computation that only mismatched lengths can stop, and that leaves the state alone. -/
def ofOption (s : σ) : Option α → Outcome σ α
  | some a => .ok a s
  | none => .mismatch

/-- A computation that leaves the state alone. -/
def ofExcept (s : σ) : Except Fault α → Outcome σ α
  | .ok a => .ok a s
  | .error (.error e) => .error e s
  | .error .mismatch => .mismatch

/-- A state that is computed, or else a mismatch. -/
def put : Option σ → Outcome σ Unit
  | some s => .ok () s
  | none => .mismatch

/-- The state that is left, if any. -/
def state? : Outcome σ α → Option σ
  | .ok _ s => some s
  | .error _ s => some s
  | .mismatch => none

/-- The value and the state of a success. -/
def success? : Outcome σ α → Option (α × σ)
  | .ok a s => some (a, s)
  | _ => none

/-- Refuses a state that fails a test, as a mismatch. -/
def guard (p : σ → Bool) (o : Outcome σ α) : Outcome σ α :=
  match o with
  | .ok a s => if p s then .ok a s else .mismatch
  | .error e s => if p s then .error e s else .mismatch
  | .mismatch => .mismatch

@[simp] theorem bind_ok (a : α) (s : σ) (next : α → σ → Outcome σ β) : (ok a s).bind next = next a s := rfl

@[simp] theorem bind_error (e : Error) (s : σ) (next : α → σ → Outcome σ β) :
    (error e s : Outcome σ α).bind next = error e s := rfl

@[simp] theorem bind_mismatch (next : α → σ → Outcome σ β) : (mismatch : Outcome σ α).bind next = mismatch :=
  rfl

@[simp] theorem mapState_ok (f : σ → τ) (a : α) (s : σ) : (ok a s).mapState f = ok a (f s) := rfl

@[simp] theorem mapState_error (f : σ → τ) (e : Error) (s : σ) :
    (error e s : Outcome σ α).mapState f = error e (f s) := rfl

@[simp] theorem mapState_mismatch (f : σ → τ) : (mismatch : Outcome σ α).mapState f = mismatch := rfl

@[simp] theorem map_ok (f : α → β) (a : α) (s : σ) : (ok a s).map f = ok (f a) s := rfl

theorem bind_assoc (o : Outcome σ α) (f : α → σ → Outcome σ β) (g : β → σ → Outcome σ γ) :
    (o.bind f).bind g = o.bind fun a s => (f a s).bind g := by
  cases o <;> rfl

/-- **A sequence succeeds exactly when both its steps do.** -/
theorem bind_eq_ok_iff {o : Outcome σ α} {next : α → σ → Outcome σ β} {b : β} {t : σ} :
    o.bind next = ok b t ↔ ∃ a s, o = ok a s ∧ next a s = ok b t := by
  cases o with
  | ok a s => exact ⟨fun h => ⟨a, s, rfl, h⟩, fun ⟨_, _, h, hn⟩ => by cases h; exact hn⟩
  | error e s => simp
  | mismatch => simp

theorem mapState_eq_ok_iff {o : Outcome σ α} {f : σ → τ} {a : α} {t : τ} :
    o.mapState f = ok a t ↔ ∃ s, o = ok a s ∧ f s = t := by
  cases o with
  | ok b s =>
    constructor
    · intro h
      cases h
      exact ⟨s, rfl, rfl⟩
    · rintro ⟨_, h, rfl⟩
      cases h
      rfl
  | error e s => simp
  | mismatch => simp

theorem map_eq_ok_iff {o : Outcome σ α} {f : α → β} {b : β} {s : σ} :
    o.map f = ok b s ↔ ∃ a, o = ok a s ∧ f a = b := by
  cases o with
  | ok a t =>
    simp only [map, ok.injEq]
    constructor
    · rintro ⟨rfl, rfl⟩
      exact ⟨a, ⟨rfl, rfl⟩, rfl⟩
    · rintro ⟨_, ⟨rfl, rfl⟩, rfl⟩
      exact ⟨rfl, rfl⟩
  | error e t => simp [map]
  | mismatch => simp [map]

theorem map_eq_error_iff {o : Outcome σ α} {f : α → β} {e : Error} {s : σ} :
    o.map f = error e s ↔ o = error e s := by
  cases o <;> simp [map]

/-- **A sequence fails in its first step, or after it in the second.** -/
theorem bind_eq_error_iff {o : Outcome σ α} {next : α → σ → Outcome σ β} {e : Error} {t : σ} :
    o.bind next = error e t ↔ o = error e t ∨ ∃ a s, o = ok a s ∧ next a s = error e t := by
  cases o with
  | ok a s =>
    constructor
    · intro h
      exact Or.inr ⟨a, s, rfl, h⟩
    · rintro (h | ⟨_, _, h, hn⟩)
      · cases h
      · cases h
        exact hn
  | error e' s => simp
  | mismatch => simp

theorem mapState_eq_error_iff {o : Outcome σ α} {f : σ → τ} {e : Error} {t : τ} :
    o.mapState f = error e t ↔ ∃ s, o = error e s ∧ f s = t := by
  cases o with
  | ok b s => simp
  | error e' s =>
    constructor
    · intro h
      cases h
      exact ⟨s, rfl, rfl⟩
    · rintro ⟨_, h, rfl⟩
      cases h
      rfl
  | mismatch => simp

theorem mapState_eq_mismatch_iff {o : Outcome σ α} {f : σ → τ} : o.mapState f = mismatch ↔ o = mismatch := by
  cases o <;> simp

theorem put_eq_ok_iff {o : Option σ} {s : σ} : put o = ok () s ↔ o = some s := by
  cases o <;> simp [put]

@[simp] theorem put_ne_error {o : Option σ} {e : Error} {s : σ} : put o ≠ error e s := by
  cases o <;> simp [put]

theorem guard_eq_ok_iff {o : Outcome σ α} {p : σ → Bool} {a : α} {s : σ} :
    o.guard p = ok a s ↔ o = ok a s ∧ p s = true := by
  cases o with
  | ok b t =>
    by_cases hp : p t = true
    · simp only [guard, hp, if_true, ok.injEq]
      exact ⟨fun h => ⟨h, h.2 ▸ hp⟩, fun h => h.1⟩
    · simp only [guard, hp, Bool.false_eq_true, if_false, ok.injEq, reduceCtorEq, false_iff]
      rintro ⟨⟨_, rfl⟩, h⟩
      exact hp h
  | error e t => by_cases hp : p t = true <;> simp [guard, hp]
  | mismatch => simp [guard]

theorem guard_eq_error_iff {o : Outcome σ α} {p : σ → Bool} {e : Error} {s : σ} :
    o.guard p = error e s ↔ o = error e s ∧ p s = true := by
  cases o with
  | ok b t => by_cases hp : p t = true <;> simp [guard, hp]
  | error e' t =>
    by_cases hp : p t = true
    · simp only [guard, hp, if_true, error.injEq]
      exact ⟨fun h => ⟨h, h.2 ▸ hp⟩, fun h => h.1⟩
    · simp only [guard, hp, Bool.false_eq_true, if_false, error.injEq, reduceCtorEq, false_iff]
      rintro ⟨⟨_, rfl⟩, h⟩
      exact hp h
  | mismatch => simp [guard]

/-- A state is left by a success or by an error. -/
theorem state?_eq_some_iff {o : Outcome σ α} {s : σ} :
    o.state? = some s ↔ (∃ a, o = ok a s) ∨ ∃ e, o = error e s := by
  cases o <;> simp [state?]

theorem state?_mapState {o : Outcome σ α} {f : σ → τ} : (o.mapState f).state? = o.state?.map f := by
  cases o <;> rfl

theorem success?_eq_some_iff {o : Outcome σ α} {a : α} {s : σ} : o.success? = some (a, s) ↔ o = ok a s := by
  cases o <;> simp [success?]

end Outcome

/-! ## Computations without a state -/

theorem Except.bind_eq_ok_iff {ε α β : Type} {c : Except ε α} {f : α → Except ε β} {b : β} :
    (c >>= f) = .ok b ↔ ∃ a, c = .ok a ∧ f a = .ok b := by
  cases c with
  | error e => simp [bind, Except.bind]
  | ok a => simp [bind, Except.bind]

theorem Except.map_eq_ok_iff {ε α β : Type} {c : Except ε α} {f : α → β} {b : β} :
    f <$> c = .ok b ↔ ∃ a, c = .ok a ∧ f a = b := by
  cases c with
  | error e => simp [Functor.map, Except.map]
  | ok a => simp [Functor.map, Except.map]

theorem Except.bind_eq_error_iff {ε α β : Type} {c : Except ε α} {f : α → Except ε β} {e : ε} :
    (c >>= f) = .error e ↔ c = .error e ∨ ∃ a, c = .ok a ∧ f a = .error e := by
  cases c with
  | error e' => simp [bind, Except.bind]
  | ok a => simp [bind, Except.bind]

theorem Except.map_eq_error_iff {ε α β : Type} {c : Except ε α} {f : α → β} {e : ε} :
    f <$> c = .error e ↔ c = .error e := by
  cases c with
  | error e' => simp [Functor.map, Except.map]
  | ok a => simp [Functor.map, Except.map]

theorem Fault.lift_eq_ok_iff {α : Type} {c : Except Error α} {a : α} : Fault.lift c = .ok a ↔ c = .ok a := by
  cases c <;> simp [Fault.lift]

theorem Fault.ofOption_eq_ok_iff {α : Type} {o : Option α} {a : α} :
    Fault.ofOption o = .ok a ↔ o = some a := by
  cases o <;> simp [Fault.ofOption]

end Splitting
