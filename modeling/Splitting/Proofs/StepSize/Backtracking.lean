import Splitting.Functional.SquaredDistance
import Splitting.Proofs.Exact.Reals
import Splitting.StepSize.Armijo

/-!
# `Splitting.Proofs.StepSize.Backtracking` — the first step that is enough

A search goes through the steps `a₀ = alpha`, `a₁ = a₀ · beta`, `a₂ = a₁ · beta`, …, and answers the first that
decreases the term enough. Steps after it are not looked at. The buffer of trial points is written before it is read, so
what was searched before has no influence. All this holds in any arithmetic: a comparison with a value that is no number
is false, and the step is refused.

* `Armijo.trialStep` — the steps;
* `Armijo.Made`, `Armijo.Searched` — the rules that can be made, and a rule after any searches;
* `StepContext.Trial`, `StepContext.Admits`, `StepContext.Refuses` — what is looked at for a step, and the two answers;
* `Armijo.search_of_first`, `Armijo.search_of_refused` — the rounds of a search, one by one;
* `Armijo.mapState_query`, `Armijo.query_of_first`, `Armijo.query_of_refused`, `Armijo.query_cases` — a search;
* `Armijo.exists_of_query` — what is known of a step that was answered;
* `armijo_answers_first_admissible` — the main statement.
-/

namespace Splitting

variable {S : Type} [Scalar S]

/-! ## One trial -/

namespace StepContext

/-- What is looked at for the step `a`: the trial point, and the values of the smooth term before and there. -/
structure Trial (ctx : StepContext S) (a : S) (trial : Vec S) (fx fTrial : S) : Prop where
  value : valueOrZero ctx.smooth ctx.point = some fx
  point : Vec.zip? (fun x g => x - a * g) ctx.point ctx.gradient = some trial
  value_trial : valueOrZero ctx.smooth trial = some fTrial

/-- The step `a` has a trial, with a decrease by at least half of the step times the squared norm of the gradient. -/
def Admits (ctx : StepContext S) (a : S) : Prop :=
  ∃ trial fx fTrial, ctx.Trial a trial fx fTrial ∧ fTrial - fx ≤ -(0.5 * a) * ctx.gradient.normSq

/-- The step `a` has a trial, without such a decrease. -/
def Refuses (ctx : StepContext S) (a : S) : Prop :=
  ∃ trial fx fTrial, ctx.Trial a trial fx fTrial ∧ ¬ fTrial - fx ≤ -(0.5 * a) * ctx.gradient.normSq

/-- Every step has a trial: the lengths fit, and the term, unless it is absent, has values at vectors of this length. -/
structure Evaluates (ctx : StepContext S) : Prop where
  length_eq : ctx.point.length = ctx.gradient.length
  value : ∀ x, x.length = ctx.point.length → ∃ v, valueOrZero ctx.smooth x = some v

variable {ctx : StepContext S} {a fx fx' fTrial fTrial' : S} {trial trial' : Vec S}

/-- A step has one trial at most. -/
theorem Trial.unique (h : ctx.Trial a trial fx fTrial) (h' : ctx.Trial a trial' fx' fTrial') :
    trial = trial' ∧ fx = fx' ∧ fTrial = fTrial' := by
  obtain rfl : trial = trial' := Option.some.inj (h.point.symm.trans h'.point)
  exact ⟨rfl, Option.some.inj (h.value.symm.trans h'.value), Option.some.inj (h.value_trial.symm.trans h'.value_trial)⟩

theorem Trial.admits_iff (h : ctx.Trial a trial fx fTrial) :
    ctx.Admits a ↔ fTrial - fx ≤ -(0.5 * a) * ctx.gradient.normSq := by
  refine ⟨?_, fun hle => ⟨trial, fx, fTrial, h, hle⟩⟩
  rintro ⟨trial', fx', fTrial', h', hle⟩
  obtain ⟨rfl, rfl, rfl⟩ := h.unique h'
  exact hle

theorem Trial.refuses_iff (h : ctx.Trial a trial fx fTrial) : ctx.Refuses a ↔ ¬ ctx.Admits a := by
  rw [h.admits_iff]
  refine ⟨?_, fun hnot => ⟨trial, fx, fTrial, h, hnot⟩⟩
  rintro ⟨trial', fx', fTrial', h', hnot⟩
  obtain ⟨rfl, rfl, rfl⟩ := h.unique h'
  exact hnot

theorem Evaluates.exists_trial (h : ctx.Evaluates) (a : S) : ∃ trial fx fTrial, ctx.Trial a trial fx fTrial := by
  have hpoint := Vec.zip?_eq_some_iff.mpr ⟨h.length_eq, Eq.refl (List.zipWith (fun x g => x - a * g) _ _)⟩
  obtain ⟨fx, hfx⟩ := h.value ctx.point rfl
  obtain ⟨fTrial, hvalue⟩ := h.value _ (Vec.length_of_zip? hpoint)
  exact ⟨_, fx, fTrial, hfx, hpoint, hvalue⟩

/-- A step is refused or it is enough. -/
theorem Evaluates.refuses_iff (h : ctx.Evaluates) : ctx.Refuses a ↔ ¬ ctx.Admits a := by
  obtain ⟨trial, fx, fTrial, htrial⟩ := h.exists_trial a
  exact htrial.refuses_iff

end StepContext

/-! ## The rounds of a search -/

namespace Armijo

variable {ctx : StepContext S} {fx fTrial beta a : S} {n k : ℕ} {trial buffer : Vec S}

/-- A step that is enough ends the search. -/
theorem search_of_admits (h : ctx.Trial a trial fx fTrial) (hle : fTrial - fx ≤ -(0.5 * a) * ctx.gradient.normSq) :
    search ctx fx ctx.gradient.normSq beta (n + 1) a buffer = some (some a, trial) := by
  simp [search, trialPoint?, accepts, h.point, h.value_trial, hle]

/-- A step that is not enough is followed by the next one. -/
theorem search_of_refuses (hfx : valueOrZero ctx.smooth ctx.point = some fx) (h : ctx.Refuses a) (beta : S) (n : ℕ)
    (buffer : Vec S) : ∃ trial, search ctx fx ctx.gradient.normSq beta (n + 1) a buffer =
      search ctx fx ctx.gradient.normSq beta n (a * beta) trial := by
  obtain ⟨trial, fx', fTrial, htrial, hnot⟩ := h
  obtain rfl : fx = fx' := Option.some.inj (hfx.symm.trans htrial.value)
  refine ⟨trial, ?_⟩
  simp [search, trialPoint?, accepts, htrial.point, htrial.value_trial, hnot]

/-- **The first step that is enough ends the search.** -/
theorem search_of_first (hk : k < n) (hearlier : ∀ j < k, ctx.Refuses ((· * beta)^[j] a))
    (h : ctx.Trial ((· * beta)^[k] a) trial fx fTrial)
    (hle : fTrial - fx ≤ -(0.5 * (· * beta)^[k] a) * ctx.gradient.normSq) :
    search ctx fx ctx.gradient.normSq beta n a buffer = some (some ((· * beta)^[k] a), trial) := by
  induction n generalizing a k buffer with
  | zero => exact absurd hk (Nat.not_lt_zero k)
  | succ n ih =>
    cases k with
    | zero => exact search_of_admits h hle
    | succ k =>
      -- the trials after the first are those of a search that begins with the second step
      have hrefuses : ctx.Refuses a := hearlier 0 (Nat.succ_pos k)
      obtain ⟨first, hfirst⟩ := search_of_refuses h.value hrefuses beta n buffer
      rw [hfirst]
      exact ih (Nat.lt_of_succ_lt_succ hk) (fun j hj => hearlier (j + 1) (Nat.succ_lt_succ hj)) h hle

/-- **Steps that are all refused** use up the budget. -/
theorem search_of_refused (hfx : valueOrZero ctx.smooth ctx.point = some fx)
    (h : ∀ j < n, ctx.Refuses ((· * beta)^[j] a)) (buffer : Vec S) :
    ∃ trial, search ctx fx ctx.gradient.normSq beta n a buffer = some (none, trial) := by
  induction n generalizing a buffer with
  | zero => exact ⟨buffer, rfl⟩
  | succ n ih =>
    have hrefuses : ctx.Refuses a := h 0 (Nat.succ_pos n)
    obtain ⟨first, hfirst⟩ := search_of_refuses hfx hrefuses beta n buffer
    rw [hfirst]
    exact ih (fun j hj => h (j + 1) (Nat.succ_lt_succ hj)) first

/-- The step that a search ends with is one of the trial steps, and is enough. -/
theorem exists_of_search (hfx : valueOrZero ctx.smooth ctx.point = some fx) {b : S}
    (h : search ctx fx ctx.gradient.normSq beta n a buffer = some (some b, trial)) :
    ∃ k < n, b = (· * beta)^[k] a ∧ ∃ fTrial, ctx.Trial b trial fx fTrial ∧
      fTrial - fx ≤ -(0.5 * b) * ctx.gradient.normSq := by
  induction n generalizing a buffer with
  | zero => simp [search] at h
  | succ n ih =>
    simp only [search, Option.bind_eq_bind, Option.bind_eq_some_iff] at h
    obtain ⟨point, hpoint, fTrial, hvalue, h⟩ := h
    by_cases haccepts : accepts fx ctx.gradient.normSq a fTrial = true
    · rw [if_pos haccepts] at h
      cases h
      exact ⟨0, Nat.succ_pos n, rfl, fTrial, ⟨hfx, hpoint, hvalue⟩, of_decide_eq_true haccepts⟩
    · rw [if_neg haccepts] at h
      obtain ⟨k, hk, hb, htrial⟩ := ih h
      exact ⟨k + 1, Nat.succ_lt_succ hk, hb, htrial⟩

/-! ## Rules -/

/-- Trial step `k`: the first step, shrunk `k` times. -/
def trialStep (rule : Armijo S) (k : ℕ) : S := (· * rule.beta)^[k] rule.alpha

@[simp] theorem trialStep_zero (rule : Armijo S) : rule.trialStep 0 = rule.alpha := rfl

@[simp] theorem trialStep_succ (rule : Armijo S) (k : ℕ) : rule.trialStep (k + 1) = rule.trialStep k * rule.beta :=
  Function.iterate_succ_apply' _ _ _

/-- In exact arithmetic, the first step times a power of the factor. -/
theorem trialStep_eq (rule : Armijo ℝ) (k : ℕ) : rule.trialStep k = rule.alpha * rule.beta ^ k :=
  mul_right_iterate_apply _ _

/-- A rule as it can be made: with parameters that were accepted, or the standard ones, any number of trials, and the
    trial point that a search has left. -/
inductive Made {S : Type} [Scalar S] : Armijo S → Prop where
  | of {alpha beta : S} {rule : Armijo S} : Armijo.of alpha beta = .ok rule → Made rule
  | standard : Made standard
  | withMaxTrials {rule : Armijo S} (n : ℕ) : Made rule → Made (rule.withMaxTrials n)
  | searched {rule rule' : Armijo S} {ctx : StepContext S} : Made rule → (rule.query ctx).state? = some rule' →
      Made rule'

/-- The first trial step is positive, and so is the factor. -/
theorem Made.pos {rule : Armijo ℝ} (h : Made rule) : 0 < rule.alpha ∧ 0 < rule.beta := by
  induction h with
  | of h =>
    unfold Armijo.of at h
    split at h
    · cases h
    · next halpha =>
      split at h
      · cases h
      · next hbeta =>
        cases h
        exact ⟨not_not.mp halpha, (not_not.mp hbeta).1⟩
  | standard =>
    constructor
    · show (0 : ℝ) < ((1000000 : ℕ) : ℝ)
      norm_num
    · show (0 : ℝ) < 0.5
      norm_num
  | withMaxTrials n _ ih => exact ih
  | searched _ h ih =>
    obtain ⟨trial, rfl⟩ := frame_of_query h
    exact ih

/-- All trial steps are positive. -/
theorem Made.trialStep_pos {rule : Armijo ℝ} (h : Made rule) (k : ℕ) : 0 < rule.trialStep k := by
  obtain ⟨halpha, hbeta⟩ := h.pos
  rw [rule.trialStep_eq]
  exact mul_pos halpha (pow_pos hbeta k)

/-- A rule after any searches, wherever they were and whether or not they succeeded. -/
inductive Searched (rule₀ : Armijo S) : Armijo S → Prop where
  | start : Searched rule₀ rule₀
  | query {rule rule' : Armijo S} (ctx : StepContext S) : Searched rule₀ rule →
      (rule.query ctx).state? = some rule' → Searched rule₀ rule'

variable {rule rule₀ : Armijo S}

/-- Searches leave a trial point, and nothing else. -/
theorem Searched.frame (h : Searched rule₀ rule) : ∃ trial, rule = { rule₀ with trial := trial } := by
  induction h with
  | start => exact ⟨rule₀.trial, rfl⟩
  | query ctx _ hquery ih =>
    obtain ⟨trial, rfl⟩ := ih
    obtain ⟨trial', rfl⟩ := frame_of_query hquery
    exact ⟨trial', rfl⟩

/-! ## A search -/

/-- **The answer does not depend on what the buffer holds.** -/
theorem mapState_query (rule : Armijo S) (buffer : Vec S) (ctx : StepContext S) :
    ({ rule with trial := buffer }.query ctx).mapState (fun _ => ()) = (rule.query ctx).mapState fun _ => () := by
  obtain ⟨alpha, beta, maxTrials, trial⟩ := rule
  unfold query
  cases valueOrZero ctx.smooth ctx.point with
  | none => rfl
  | some fx =>
    -- without a trial there is an error, and with one the buffer is overwritten
    cases maxTrials with
    | zero => rfl
    | succ n => rfl

theorem query_of_first (rule : Armijo S) (hk : k < rule.maxTrials) (hearlier : ∀ j < k, ctx.Refuses (rule.trialStep j))
    (h : ctx.Admits (rule.trialStep k)) :
    ∃ trial, rule.query ctx = .ok (rule.trialStep k) { rule with trial := trial } := by
  obtain ⟨trial, fx, fTrial, htrial, hle⟩ := h
  refine ⟨trial, ?_⟩
  simp only [query, htrial.value, search_of_first hk hearlier htrial hle]
  rfl

/-- **What a search answers** is a trial step that is enough, and the rule keeps its trial point. -/
theorem exists_of_query {rule' : Armijo S} {b : S} (h : rule.query ctx = .ok b rule') :
    ∃ k < rule.maxTrials, b = rule.trialStep k ∧ ∃ fx fTrial, ctx.Trial b rule'.trial fx fTrial ∧
      fTrial - fx ≤ -(0.5 * b) * ctx.gradient.normSq := by
  unfold query at h
  split at h
  · cases h
  · next fx hfx =>
    split at h
    · cases h
    · next a trial hsearch =>
      cases h
      obtain ⟨k, hk, hb, fTrial, htrial, hle⟩ := exists_of_search hfx hsearch
      exact ⟨k, hk, hb, fx, fTrial, htrial, hle⟩
    · cases h

theorem query_of_refused (rule : Armijo S) (hfx : valueOrZero ctx.smooth ctx.point = some fx)
    (h : ∀ j < rule.maxTrials, ctx.Refuses (rule.trialStep j)) :
    ∃ trial, rule.query ctx = .error (.stepSizeSearchFailed rule.maxTrials) { rule with trial := trial } := by
  obtain ⟨trial, hsearch⟩ := search_of_refused hfx h (rule.resized ctx.point)
  refine ⟨trial, ?_⟩
  simp only [query, hfx, hsearch]

/-- **Where every step has a trial,** the first that is enough is the answer, or there is none. -/
theorem query_cases (h : ctx.Evaluates) (rule : Armijo S) :
    (∃ k < rule.maxTrials, (∀ j < k, ¬ ctx.Admits (rule.trialStep j)) ∧ ctx.Admits (rule.trialStep k) ∧
      ∃ trial, rule.query ctx = .ok (rule.trialStep k) { rule with trial := trial }) ∨
    ((∀ k < rule.maxTrials, ¬ ctx.Admits (rule.trialStep k)) ∧
      ∃ trial, rule.query ctx = .error (.stepSizeSearchFailed rule.maxTrials) { rule with trial := trial }) := by
  by_cases hexists : ∃ k, k < rule.maxTrials ∧ ctx.Admits (rule.trialStep k)
  · classical
    obtain ⟨hk, hadmits⟩ := Nat.find_spec hexists
    have hearlier : ∀ j < Nat.find hexists, ¬ ctx.Admits (rule.trialStep j) := fun j hj hj' =>
      Nat.find_min hexists hj ⟨hj.trans hk, hj'⟩
    have hok := query_of_first rule hk (fun j hj => h.refuses_iff.mpr (hearlier j hj)) hadmits
    exact Or.inl ⟨_, hk, hearlier, hadmits, hok⟩
  · have hnone : ∀ k < rule.maxTrials, ¬ ctx.Admits (rule.trialStep k) := fun k hk hadmits =>
      hexists ⟨k, hk, hadmits⟩
    obtain ⟨fx, hfx⟩ := h.value ctx.point rfl
    have herror := query_of_refused rule hfx fun j hj => h.refuses_iff.mpr (hnone j hj)
    exact Or.inr ⟨hnone, herror⟩

end Armijo

/-- **A search answers the first step that is enough.** Take a rule after any searches, at points of any lengths, and
    any term, or none. Let `aₖ` be the first step, shrunk `k` times.

    * The answer is the one that the rule would have given at first.
    * If `aₖ` decreases the term enough and the steps before it do not, it is the answer; nothing is asked of the term
      at later trial points.
    * If every step has a trial, `aₖ` is the answer for the least `k` within the budget for which it is enough. The
      search fails if and only if there is none.

    A search changes the trial point only. -/
theorem armijo_answers_first_admissible {rule₀ rule : Armijo S} (h : Armijo.Searched rule₀ rule)
    (ctx : StepContext S) :
    ((rule.query ctx).mapState fun _ => ()) = ((rule₀.query ctx).mapState fun _ => ()) ∧
    (∀ k < rule₀.maxTrials, (∀ j < k, ctx.Refuses (rule₀.trialStep j)) → ctx.Admits (rule₀.trialStep k) →
      ∃ trial, rule.query ctx = .ok (rule₀.trialStep k) { rule₀ with trial := trial }) ∧
    (ctx.Evaluates →
      (∀ k, IsLeast {k | k < rule₀.maxTrials ∧ ctx.Admits (rule₀.trialStep k)} k →
        ∃ trial, rule.query ctx = .ok (rule₀.trialStep k) { rule₀ with trial := trial }) ∧
      ((∃ trial, rule.query ctx = .error (.stepSizeSearchFailed rule₀.maxTrials) { rule₀ with trial := trial }) ↔
        ∀ k < rule₀.maxTrials, ¬ ctx.Admits (rule₀.trialStep k))) := by
  obtain ⟨buffer, rfl⟩ := h.frame
  refine ⟨rule₀.mapState_query buffer ctx, ?_, fun heval => ?_⟩
  · exact fun k hk hearlier hadmits => Armijo.query_of_first { rule₀ with trial := buffer } hk hearlier hadmits
  · have hcases := Armijo.query_cases heval { rule₀ with trial := buffer }
    constructor
    · rintro k ⟨⟨hk, hadmits⟩, hleast⟩
      obtain ⟨k', hk', hearlier, hadmits', hok⟩ | ⟨hnone, -⟩ := hcases
      · -- both are the least
        have hle : k ≤ k' := hleast ⟨hk', hadmits'⟩
        have hge : k' ≤ k := not_lt.mp fun hlt => hearlier k hlt hadmits
        obtain rfl : k = k' := le_antisymm hle hge
        exact hok
      · exact absurd hadmits (hnone k hk)
    · constructor
      · rintro ⟨trial, herror⟩
        obtain ⟨k', -, -, -, trial', hok⟩ | ⟨hnone, -⟩ := hcases
        · cases hok.symm.trans herror
        · exact hnone
      · intro hnone
        obtain ⟨k', hk', -, hadmits, -⟩ | ⟨-, herror⟩ := hcases
        · exact absurd hadmits (hnone k' hk')
        · exact herror

/-- A rule that tries the step `1` and its half. -/
noncomputable def halvedOnce (trial : Vec ℝ) : Armijo ℝ := ⟨1, 0.5, 2, trial⟩

/-- The square on the real line, for which half of the first step is enough, after a failed search in the plane. -/
theorem armijo_answers_first_admissible_on_the_line :
    ∃ (rule : Armijo ℝ) (ctx : StepContext ℝ), (halvedOnce []).Searched rule ∧ rule.trial.length = 2 ∧
      ctx.point.length = 1 ∧ ctx.Evaluates ∧
      IsLeast {k | k < 2 ∧ ctx.Admits ((halvedOnce []).trialStep k)} 1 ∧
      ∃ trial, rule.query ctx = .ok (1 * 0.5) (halvedOnce trial) := by
  have hplane : (halvedOnce []).query ⟨0, none, [1, 1], [1, 1]⟩ =
      .error (.stepSizeSearchFailed 2) (halvedOnce [0.5, 0.5]) := by
    norm_num [halvedOnce, Armijo.query, Armijo.search, Armijo.trialPoint?, Armijo.accepts, valueOrZero, Vec.zip?,
      Vec.normSq_eq_pairing, Vec.pairing]
  have hsearched : (halvedOnce []).Searched (halvedOnce [0.5, 0.5]) :=
    .query _ .start (congrArg Outcome.state? hplane)
  let ctx : StepContext ℝ := ⟨0, some SquaredDistance.unit.functional, [1], [2]⟩
  have hvalue : ∀ x : Vec ℝ, valueOrZero ctx.smooth x = some (1 * x.normSq) := fun _ => rfl
  have hevaluates : ctx.Evaluates := ⟨rfl, fun x _ => ⟨_, hvalue x⟩⟩
  have hadmits : ∀ a : ℝ, ctx.Admits a ↔ (1 - a * 2) * (1 - a * 2) - 1 ≤ -(0.5 * a) * 4 := by
    intro a
    have htrial : ctx.Trial a [1 - a * 2] _ _ := ⟨hvalue _, rfl, hvalue _⟩
    rw [htrial.admits_iff]
    norm_num [ctx, Vec.normSq_eq_pairing, Vec.pairing]
  have hleast : IsLeast {k | k < 2 ∧ ctx.Admits ((halvedOnce []).trialStep k)} 1 := by
    refine ⟨⟨one_lt_two, ?_⟩, ?_⟩
    · rw [Armijo.trialStep_succ, Armijo.trialStep_zero, hadmits]
      norm_num [halvedOnce]
    · rintro (_ | k) ⟨-, hk⟩
      · rw [Armijo.trialStep_zero, hadmits] at hk
        norm_num [halvedOnce] at hk
      · exact Nat.succ_pos k
  exact ⟨_, ctx, hsearched, rfl, rfl, hevaluates, hleast,
    ((armijo_answers_first_admissible hsearched ctx).2.2 hevaluates).1 1 hleast⟩

end Splitting
