import Mathlib
import Splitting.Subsets.DigitReversal

/-!
# `Splitting.Proofs.Subsets.TrialDivision` — prime factors by trial division

Trial division takes the divisors one after the other, so that what is left has no factor below the divisor. A
divisor that divides is a prime for that reason, and so is what is left once the square of the divisor exceeds
it. A square that a word has lost some of its bits of only makes the division go on longer.

* `TrialDivision.Sound` — what is known at every turn;
* `TrialDivision.Sound.turn` — a turn keeps it;
* `TrialDivision.Sound.run_eq` — it makes the run find the prime factors;
* `factors_eq` — the factors are the prime factors;
* `hermanMeyerOrder_eq`, `hermanMeyerOrder_eq_error_iff` — the numbers of subsets that have a Herman-Meyer order, and
  those that have none.
-/

namespace Splitting

/-! ## Prime factors -/

/-- What is left has no factor below the divisor; if it is less than the square of the divisor, and more than
    one, it is a prime. -/
theorem prime_of_lt_sq {n i : ℕ} (hn : 1 < n) (hleast : ∀ p, p.Prime → p ∣ n → i ≤ p) (h : n < i * i) :
    n.Prime := by
  by_contra hnot
  have hfactor : i ≤ n.minFac := hleast _ (Nat.minFac_prime (by omega)) (Nat.minFac_dvd n)
  have hsq : n.minFac ^ 2 ≤ n := Nat.minFac_sq_le_self (by omega) hnot
  have : i * i ≤ n.minFac * n.minFac := Nat.mul_le_mul hfactor hfactor
  rw [pow_two] at hsq
  omega

/-- A number has two prime factors or more exactly when it is composite. -/
theorem two_le_length_primeFactorsList_iff {n : ℕ} :
    2 ≤ n.primeFactorsList.length ↔ 1 < n ∧ ¬n.Prime := by
  constructor
  · intro h
    have hn : 1 < n := (Nat.primeFactorsList_ne_nil n).mp (List.ne_nil_of_length_pos (by omega))
    refine ⟨hn, fun hprime => ?_⟩
    rw [Nat.primeFactorsList_prime hprime, List.length_singleton] at h
    omega
  · rintro ⟨hn, hcomposite⟩
    by_contra hlength
    have hne := (Nat.primeFactorsList_ne_nil n).mpr hn
    obtain ⟨p, hp⟩ := List.length_eq_one_iff.mp
      (show n.primeFactorsList.length = 1 by have := List.length_pos_of_ne_nil hne; omega)
    have hprod := Nat.prod_primeFactorsList (n := n) (by omega)
    rw [hp, List.prod_singleton] at hprod
    exact hcomposite (hprod ▸ Nat.prime_of_mem_primeFactorsList (hp ▸ List.mem_singleton_self p))

namespace TrialDivision

variable {n : ℕ} {t : TrialDivision}

theorem wordSquare_le (i : ℕ) : wordSquare i ≤ i * i := Nat.mod_le _ _

/-! ## What is known at every turn -/

/-- What is left has no factor below the divisor, and with the factors that are found it makes up the number. -/
structure Sound (n : ℕ) (t : TrialDivision) : Prop where
  two_le : 2 ≤ t.divisor
  least : ∀ p, p.Prime → p ∣ t.left → t.divisor ≤ p
  factors : t.found ++ t.left.primeFactorsList = n.primeFactorsList

theorem sound_start (n : ℕ) : Sound n (start n) := ⟨le_refl 2, fun _ hp _ => hp.two_le, rfl⟩

theorem turn_of_dvd (h : t.divisor ∣ t.left) :
    t.turn = ⟨t.found ++ [t.divisor], t.left / t.divisor, t.divisor⟩ :=
  if_pos (Nat.mod_eq_zero_of_dvd h)

theorem turn_of_not_dvd (h : ¬t.divisor ∣ t.left) : t.turn = ⟨t.found, t.left, t.divisor + 1⟩ :=
  if_neg (mt Nat.dvd_of_mod_eq_zero h)

namespace Sound

/-- There is another turn only if something is left. -/
theorem left_ne_zero (h : Sound n t) (hgo : t.Continues) : t.left ≠ 0 := by
  intro hzero
  have hle : t.divisor ≤ 2 := h.least 2 Nat.prime_two (hzero ▸ dvd_zero 2)
  rw [Continues, hzero, show t.divisor = 2 from le_antisymm hle h.two_le] at hgo
  revert hgo
  decide

theorem divisor_le_minFac (h : Sound n t) (hleft : t.left ≠ 1) : t.divisor ≤ t.left.minFac :=
  h.least _ (Nat.minFac_prime hleft) (Nat.minFac_dvd _)

/-- A divisor that divides what is left is its least factor. -/
theorem minFac_eq (h : Sound n t) (hleft : t.left ≠ 1) (hdvd : t.divisor ∣ t.left) :
    t.left.minFac = t.divisor :=
  le_antisymm (Nat.minFac_le_of_dvd h.two_le hdvd) (h.divisor_le_minFac hleft)

/-- **A turn keeps what is known.** -/
theorem turn (h : Sound n t) (hleft : t.left ≠ 0) : Sound n t.turn := by
  by_cases hdvd : t.divisor ∣ t.left
  · have hle : t.divisor ≤ t.left := Nat.le_of_dvd (by omega) hdvd
    have htwo := h.two_le
    rw [turn_of_dvd hdvd]
    refine ⟨h.two_le, fun p hp hpn => h.least p hp (hpn.trans (Nat.div_dvd_of_dvd hdvd)), ?_⟩
    rw [← h.factors, List.append_assoc, ← h.minFac_eq (by omega) hdvd]
    obtain ⟨m, hm⟩ := Nat.exists_eq_add_of_le' (show 2 ≤ t.left by omega)
    rw [hm, Nat.primeFactorsList_add_two]
    rfl
  · rw [turn_of_not_dvd hdvd]
    refine ⟨Nat.le_succ_of_le h.two_le, fun p hp hpn => ?_, h.factors⟩
    refine Nat.lt_of_le_of_ne (h.least p hp hpn) ?_
    rintro rfl
    exact hdvd hpn

/-- What is found at the end, when the divisor is beyond the root of what is left. -/
theorem result_eq (h : Sound n t) (hlt : t.left < t.divisor * t.divisor) : t.result = n.primeFactorsList := by
  rw [result, ← h.factors]
  congr 1
  split
  · rename_i hleft
    rw [Nat.primeFactorsList_prime (prime_of_lt_sq hleft h.least hlt)]
  · exact ((Nat.primeFactorsList_eq_nil _).mpr (by omega)).symm

/-- **Trial division finds the prime factors,** from every state on of which this is known. -/
theorem run_eq (h : Sound n t) : t.run = n.primeFactorsList := by
  fun_induction run t with
  | case1 t hgo ih =>
    have htwo := hgo.1.1
    exact ih (h.turn (by omega))
  | case2 t hstop =>
    refine h.result_eq ?_
    have htwo := h.two_le
    by_cases hle : t.divisor ≤ t.left
    · have hlt : t.left < wordSquare t.divisor := Nat.lt_of_not_le fun hgo => hstop ⟨⟨htwo, hle⟩, hgo⟩
      exact hlt.trans_le (wordSquare_le _)
    · exact (Nat.lt_of_not_le hle).trans_le (Nat.le_mul_self _)

theorem ne_zero (h : Sound n t) (hleft : 2 ≤ t.left) : n ≠ 0 := by
  rintro rfl
  have hnil := h.factors
  rw [Nat.primeFactorsList_zero, List.append_eq_nil_iff, Nat.primeFactorsList_eq_nil] at hnil
  omega

/-- What is found and what is left make up the number. -/
theorem prod_mul_left (h : Sound n t) (hleft : 2 ≤ t.left) : t.found.prod * t.left = n := by
  rw [← Nat.prod_primeFactorsList (h.ne_zero hleft), ← h.factors, List.prod_append,
    Nat.prod_primeFactorsList (by omega)]

theorem left_le (h : Sound n t) (hleft : 2 ≤ t.left) : t.left ≤ n :=
  Nat.le_of_dvd (Nat.pos_of_ne_zero (h.ne_zero hleft)) ⟨_, (h.prod_mul_left hleft).symm.trans (Nat.mul_comm _ _)⟩

end Sound

end TrialDivision

/-- **The factors are the prime factors** in increasing order, each as often as it divides. -/
theorem factors_eq (n : ℕ) : factors n = n.primeFactorsList := (TrialDivision.sound_start n).run_eq

/-- There is a Herman-Meyer order for composite numbers, in terms of their prime factors. -/
theorem hermanMeyerOrder_eq (n : ℕ) : hermanMeyerOrder n =
    if 1 < n ∧ ¬n.Prime then .ok ((Array.range n).map (digitReversed n.primeFactorsList))
    else .error (.invalidSampler (.notComposite n)) := by
  rw [hermanMeyerOrder, factors_eq]
  by_cases hcomposite : 1 < n ∧ ¬n.Prime
  · have hlength := two_le_length_primeFactorsList_iff.mpr hcomposite
    rw [if_pos hcomposite, if_neg (by omega)]
  · have hlength := mt two_le_length_primeFactorsList_iff.mp hcomposite
    rw [if_neg hcomposite, if_pos (by omega)]

/-- **The Herman-Meyer order is refused exactly where it would be the sequential order.** -/
theorem hermanMeyerOrder_eq_error_iff {n : ℕ} :
    hermanMeyerOrder n = .error (.invalidSampler (.notComposite n)) ↔ n < 2 ∨ n.Prime := by
  rw [hermanMeyerOrder_eq]
  by_cases hcomposite : 1 < n ∧ ¬n.Prime
  · simp only [if_pos hcomposite, reduceCtorEq, false_iff]
    exact not_or.mpr ⟨by omega, hcomposite.2⟩
  · simp only [if_neg hcomposite, true_iff]
    by_cases hn : n < 2
    · exact Or.inl hn
    · exact Or.inr (of_not_not fun hprime => hcomposite ⟨by omega, hprime⟩)

end Splitting
