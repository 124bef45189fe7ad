import Splitting.Proofs.Subsets.TrialDivision

/-!
# `Splitting.Proofs.Subsets.WordDivision` — trial division in words of 64 bits

Trial division computes the squares of its divisors in words. For most numbers that fit a word all these squares
fit as well. If the number is a prime near the end of the words, the divisor comes to `2 ^ 32`, whose square is
one too large. Then the division misses the root, and goes on until what a word has of a square happens to exceed
the number. The factors are the same, but for the greatest prime of a word that takes 907063251908329108 turns in
place of 4294967294.

* `TrialDivision.two_pow_dvd_sub_or_add` — odd numbers whose squares end in the same bits;
* `TrialDivision.Reached` — the states at which a square is compared;
* `TrialDivision.InWord`, `TrialDivision.Reached.inWord` — what is known of them for a number that fits a word;
* `TrialDivision.Reached.exists_end` — the turns come to an end, and the factors are what is found there;
* `TrialDivision.squares_fit_iff` — the numbers all squares fit for;
* `TrialDivision.lastOddSquares`, `TrialDivision.wordSquare_le_of_lt` — the squares near the end of the words, and the
  squares that do not exceed the greatest prime;
* `trial_division_in_words` — the main statement.
-/

namespace Splitting

namespace TrialDivision

variable {n : ℕ} {t : TrialDivision}

/-! ## Squares in words -/

theorem mul_self_lt_word {i : ℕ} (h : i < 2 ^ 32) : i * i < 2 ^ 64 := by
  have : i * i < 2 ^ 32 * 2 ^ 32 := Nat.mul_lt_mul'' h h
  omega

theorem wordSquare_of_lt {i : ℕ} (h : i < 2 ^ 32) : wordSquare i = i * i :=
  Nat.mod_eq_of_lt (mul_self_lt_word h)

/-- **Odd numbers whose squares end in the same bits are the same or opposite in all of them but one.** -/
theorem two_pow_dvd_sub_or_add {m : ℕ} {x r : ℤ} (hx : Odd x) (hr : Odd r) (h : 2 ^ (m + 1) ∣ x * x - r * r) :
    2 ^ m ∣ x - r ∨ 2 ^ m ∣ x + r := by
  obtain ⟨a, ha⟩ := (hx.sub_odd hr).two_dvd
  obtain ⟨b, hb⟩ := (hx.add_odd hr).two_dvd
  rw [show x * x - r * r = 2 * (2 * (a * b)) by linear_combination b * 2 * ha + (x - r) * hb, pow_succ'] at h
  have hab : 2 ^ m ∣ 2 * (a * b) := Int.dvd_of_mul_dvd_mul_left (by decide) h
  rw [ha, hb]
  -- the sum of the two is twice an odd number, so one of the halves is odd
  by_cases hodd : (2 : ℤ) ∣ a
  · have hrest : ¬(2 : ℤ) ∣ b := by
      rw [Int.odd_iff] at hx
      omega
    rw [← mul_assoc] at hab
    exact Or.inl (Int.prime_two.pow_dvd_of_dvd_mul_right m hrest hab)
  · rw [mul_left_comm] at hab
    exact Or.inr (Int.prime_two.pow_dvd_of_dvd_mul_left m hodd hab)

/-- **The square of a prime is neither zero nor one,** also in a word. The other words whose squares are have a small
    factor. -/
theorem one_lt_wordSquare {p : ℕ} (hp : p.Prime) (hlt : p < 2 ^ 64) : 1 < wordSquare p := by
  by_contra hle
  have hdivision : 2 ^ 64 * (p * p / 2 ^ 64) + wordSquare p = p * p := Nat.div_add_mod _ _
  rcases hp.eq_two_or_odd' with rfl | hodd
  · revert hle
    decide
  · have hsquare : p * p % 2 = 1 := Nat.odd_iff.mp (hodd.mul hodd)
    have hends : (2 : ℤ) ^ (63 + 1) ∣ p * p - 1 * 1 := ⟨(p * p / 2 ^ 64 : ℕ), by zify at hdivision; omega⟩
    have hwords : p = 1 ∨ p = 2 ^ 63 + 1 ∨ p = 2 ^ 63 - 1 ∨ p = 2 ^ 64 - 1 := by
      rcases two_pow_dvd_sub_or_add (by exact_mod_cast hodd) odd_one hends with ⟨c, hc⟩ | ⟨c, hc⟩ <;> omega
    rcases hwords with rfl | rfl | rfl | rfl <;> revert hp <;> norm_num

/-! ## The turns that are taken -/

/-- The states at which, in the division of `n`, the square of the divisor is compared with what is left. -/
inductive Reached (n : ℕ) : TrialDivision → Prop
  | start : Reached n (start n)
  | turn {t : TrialDivision} : Reached n t → t.Continues → Reached n t.turn

/-- What is known besides of a number that fits a word: so does the divisor, and it is a prime where nothing is left
    but one. -/
structure InWord (n : ℕ) (t : TrialDivision) : Prop extends Sound n t where
  divisor_lt_word : t.divisor < 2 ^ 64
  prime_of_done : t.left = 1 → t.divisor.Prime

namespace InWord

theorem two_le_left (h : InWord n t) (hgo : t.Continues) : 2 ≤ t.left := by
  have hzero : t.left ≠ 0 := h.left_ne_zero hgo
  have hone : t.left ≠ 1 := by
    intro hone
    have hlt : 1 < wordSquare t.divisor := one_lt_wordSquare (h.prime_of_done hone) h.divisor_lt_word
    rw [Continues, hone] at hgo
    omega
  omega

/-- **A divisor above what is left does not come up** where there is another turn. -/
theorem divisor_le (h : InWord n t) (hgo : t.Continues) : t.divisor ≤ t.left := by
  have hleft := h.two_le_left hgo
  exact (h.divisor_le_minFac (by omega)).trans (Nat.minFac_le (by omega))

/-- **A turn keeps what is known of a number that fits a word.** -/
theorem turn (hn : n < 2 ^ 64) (h : InWord n t) (hgo : t.Continues) : InWord n t.turn := by
  have hleft := h.two_le_left hgo
  have hsound : Sound n t.turn := h.toSound.turn (by omega)
  by_cases hdvd : t.divisor ∣ t.left
  · rw [turn_of_dvd hdvd] at hsound ⊢
    refine ⟨hsound, h.divisor_lt_word, fun hdone => ?_⟩
    have hfactor : t.left = t.divisor := by
      rw [← Nat.div_mul_cancel hdvd, show t.left / t.divisor = 1 from hdone, Nat.one_mul]
    rw [← h.minFac_eq (by omega) hdvd]
    exact Nat.minFac_prime (by omega)
  · rw [turn_of_not_dvd hdvd] at hsound ⊢
    have hne : t.divisor ≠ t.left := fun heq => hdvd (heq ▸ dvd_refl _)
    have hlt : t.divisor < t.left := Nat.lt_of_le_of_ne (h.divisor_le hgo) hne
    have hle : t.left ≤ n := h.left_le hleft
    exact ⟨hsound, by dsimp only; omega, fun hdone => absurd hdone (by dsimp only; omega)⟩

end InWord

namespace Reached

theorem inWord (hn : n < 2 ^ 64) (h : Reached n t) : InWord n t := by
  induction h with
  | start => exact ⟨sound_start n, (by decide : 2 < 2 ^ 64), fun _ => Nat.prime_two⟩
  | turn _ hgo ih => exact ih.turn hn hgo

/-- **The turns come to an end,** and a run has the factors that are found there. -/
theorem exists_end (hn : n < 2 ^ 64) (h : Reached n t) :
    ∃ last, Reached n last ∧ ¬last.Continues ∧ t.run = last.result := by
  fun_induction run t with
  | case1 t hgo ih => exact ih (h.turn hgo.2)
  | case2 t hstop =>
    have hword := h.inWord hn
    exact ⟨t, h, fun hgo => hstop ⟨⟨hword.two_le, hword.divisor_le hgo⟩, hgo⟩, rfl⟩

end Reached

/-! ## The squares that fit a word -/

/-- The divisor goes past the last one whose square fits a word only if the whole number is left, which is then a
    prime above that square. -/
theorem prime_of_last_divisor (hn : n < 2 ^ 64) (h : Sound n t) (hgo : t.Continues)
    (hlast : t.divisor = 2 ^ 32 - 1) (hdvd : ¬t.divisor ∣ t.left) : n.Prime ∧ (2 ^ 32 - 1) ^ 2 < n := by
  have hsq : (2 ^ 32 - 1) * (2 ^ 32 - 1) ≤ t.left := by
    rw [Continues, wordSquare_of_lt (by omega), hlast] at hgo
    exact hgo
  have hprod : t.found.prod * t.left = n := h.prod_mul_left (by omega)
  have hfound : t.found.prod = 1 := by
    have hpos : t.found.prod ≠ 0 := left_ne_zero_of_mul (hprod ▸ h.ne_zero (by omega))
    by_contra hne
    have htwice : 2 * t.left ≤ t.found.prod * t.left := Nat.mul_le_mul_right _ (by omega)
    omega
  rw [hfound, Nat.one_mul] at hprod
  rw [hlast, hprod] at hdvd
  refine ⟨prime_of_lt_sq (i := 2 ^ 32) (by omega) (fun p hp hpn => ?_) (by omega), ?_⟩
  · have hle := h.least p hp (hprod ▸ hpn)
    have hne : p ≠ 2 ^ 32 - 1 := fun heq => hdvd (heq ▸ hpn)
    omega
  · have hne : n ≠ (2 ^ 32 - 1) * (2 ^ 32 - 1) := fun heq => hdvd ⟨_, heq⟩
    rw [pow_two]
    omega

/-- **All squares fit a word** unless the number is a prime above the last square that does. -/
theorem Reached.divisor_lt (hn : n < 2 ^ 64) (hfits : ¬(n.Prime ∧ (2 ^ 32 - 1) ^ 2 < n)) (h : Reached n t) :
    t.divisor < 2 ^ 32 := by
  induction h with
  | start => exact (by decide : 2 < 2 ^ 32)
  | @turn t hreached hgo ih =>
    by_cases hdvd : t.divisor ∣ t.left
    · rw [turn_of_dvd hdvd]
      exact ih
    · rw [turn_of_not_dvd hdvd]
      have hne : t.divisor ≠ 2 ^ 32 - 1 := fun hlast =>
        hfits (prime_of_last_divisor hn (hreached.inWord hn).toSound hgo hlast hdvd)
      dsimp only
      omega

/-- **A prime is tried with one divisor after the other,** as long as no square in a word exceeds it. -/
theorem reached_of_prime {i : ℕ} (hprime : n.Prime) (htwo : 2 ≤ i) (hi : i ≤ n)
    (hgo : ∀ j < i, wordSquare j ≤ n) : Reached n ⟨[], n, i⟩ := by
  induction i, htwo using Nat.le_induction with
  | base => exact .start
  | succ i htwo ih =>
    have hreached := ih (by omega) fun j hj => hgo j (by omega)
    have hdvd : ¬i ∣ n := fun hdvd => by
      have := hprime.eq_one_or_self_of_dvd i hdvd
      omega
    have hturn := hreached.turn (hgo i (Nat.lt_succ_self i))
    rwa [turn_of_not_dvd hdvd] at hturn

/-- **All squares fit a word unless the number is a prime above the last square that does.** Arithmetic that checks
    whether its products fit breaks off for these numbers, and for no others. -/
theorem squares_fit_iff (hn : n < 2 ^ 64) :
    (∀ t, Reached n t → t.divisor * t.divisor < 2 ^ 64) ↔ ¬(n.Prime ∧ (2 ^ 32 - 1) ^ 2 < n) := by
  constructor
  · rintro hfits ⟨hprime, hlarge⟩
    have hgo : ∀ j < 2 ^ 32, wordSquare j ≤ n := fun j hj => by
      have hsq : j * j ≤ (2 ^ 32 - 1) * (2 ^ 32 - 1) := Nat.mul_le_mul (by omega) (by omega)
      have hword := wordSquare_le j
      omega
    have hfit : 2 ^ 32 * 2 ^ 32 < 2 ^ 64 := hfits _ (reached_of_prime hprime (by norm_num) (by omega) hgo)
    omega
  · exact fun hfits t ht => mul_self_lt_word (ht.divisor_lt hn hfits)

/-! ## The greatest prime of a word -/

/-- A number is a prime if one residue has the greatest order that there can be: the prime factors of `n - 1` say
    that no smaller power is one. -/
theorem prime_of_residue {n : ℕ} (a : ZMod n) (ps : List ℕ) (hps : ∀ p ∈ ps, p.Prime) (hprod : ps.prod = n - 1)
    (hone : a ^ (n - 1) = 1) (hne : ∀ p ∈ ps, a ^ ((n - 1) / p) ≠ 1) : n.Prime := by
  refine lucas_primality n a hone fun q hq hdvd => hne q ?_
  exact mem_list_primes_of_dvd_prod hq.prime (fun p hp => (hps p hp).prime) (hprod ▸ hdvd)

/-- The prime factors of `2 ^ 64 - 60` are 2, 11, 137, 547 and this one. -/
theorem prime_5594472617641 : Nat.Prime 5594472617641 := by
  refine prime_of_residue 13 [2, 2, 2, 3, 5, 1427, 2131, 15331] ?_ (by norm_num) (by reduce_mod_char) ?_
  · norm_num
  · norm_num
    reduce_mod_char
    decide

/-- No prime is nearer to the end of the words than `2 ^ 64 - 59`. -/
theorem prime_18446744073709551557 : Nat.Prime 18446744073709551557 := by
  refine prime_of_residue 2 [2, 2, 11, 137, 547, 5594472617641] ?_ (by norm_num) (by reduce_mod_char) ?_
  · simp only [List.forall_mem_cons, prime_5594472617641]
    norm_num
  · norm_num
    reduce_mod_char
    decide

/-- A number that is less than a square root of `-k`, and than its opposite, is no such root itself. -/
theorem not_dvd_sq_add {m i r k : ℕ} (hr : Odd r) (hroot : 2 ^ (m + 2) ∣ r * r + k) (hlow : i < r)
    (hhigh : i + r < 2 ^ (m + 1)) : ¬2 ^ (m + 2) ∣ i * i + k := by
  intro hdvd
  have hends : (2 : ℤ) ^ (m + 1 + 1) ∣ i * i - r * r := by
    have h := Int.dvd_sub (Int.natCast_dvd_natCast.mpr hdvd) (Int.natCast_dvd_natCast.mpr hroot)
    push_cast at h
    rwa [add_sub_add_right_eq_sub] at h
  have hodd : Odd (i : ℤ) := by
    have heven : Even ((i : ℤ) * i - r * r) := even_iff_two_dvd.mpr ((dvd_pow_self 2 (by omega)).trans hends)
    have hsum := heven.add_odd ((Int.odd_coe_nat r).mpr hr |>.mul ((Int.odd_coe_nat r).mpr hr))
    rw [sub_add_cancel] at hsum
    exact (Int.odd_mul.mp hsum).1
  zify at hlow hhigh
  rcases two_pow_dvd_sub_or_add hodd ((Int.odd_coe_nat r).mpr hr) hends with h | h
  · have := Int.le_of_dvd (by omega) (dvd_sub_comm.mp h)
    omega
  · have := Int.le_of_dvd (by omega) h
    omega

/-- How far before the end of the words the square of an odd number can lie, up to 58, with the least such number. -/
def lastOddSquares : List (ℕ × ℕ) :=
  [(7, 1852311383259529397), (15, 1215244570335492903), (23, 4254847139108525011), (31, 1735557714909505679),
    (39, 2025957358496416667), (47, 2087343169315219913), (55, 4258566776166955869)]

theorem lastOddSquares_sound : ∀ s ∈ lastOddSquares,
    Odd s.2 ∧ 2 ^ 64 ∣ s.2 * s.2 + s.1 ∧ 907063251908329110 ≤ s.2 ∧ s.2 + 907063251908329110 ≤ 2 ^ 63 := by
  decide

/-- There are no others, and for even numbers only 28. Seven bits of a square tell so much. -/
theorem mem_lastOddSquares {i k : ℕ} (hpos : 0 < k) (hk : k < 59) (hdvd : 2 ^ 7 ∣ i * i + k) :
    k = 28 ∨ ∃ s ∈ lastOddSquares, s.1 = k := by
  have htable : ∀ r < 128, r * r % 128 < 70 ∨ 128 - r * r % 128 = 28 ∨
      ∃ s ∈ lastOddSquares, s.1 = 128 - r * r % 128 := by decide
  have hbits := htable (i % 128) (Nat.mod_lt _ (by decide))
  rw [← Nat.mul_mod, show 128 - i * i % 128 = k by omega] at hbits
  exact hbits.resolve_left (by omega)

/-- **No square before that of 907063251908329110 exceeds the greatest prime,** as far as a word has it. -/
theorem wordSquare_le_of_lt {i : ℕ} (h : i < 907063251908329110) : wordSquare i ≤ 18446744073709551557 := by
  by_contra hlt
  have hword : wordSquare i < 2 ^ 64 := Nat.mod_lt _ (by decide)
  have hdivision : 2 ^ 64 * (i * i / 2 ^ 64) + wordSquare i = i * i := Nat.div_add_mod _ _
  obtain ⟨k, hk, hpos, hsum⟩ : ∃ k < 59, 0 < k ∧ wordSquare i + k = 2 ^ 64 :=
    ⟨2 ^ 64 - wordSquare i, by omega, by omega, by omega⟩
  have hdvd : 2 ^ 64 ∣ i * i + k := ⟨i * i / 2 ^ 64 + 1, by omega⟩
  rcases mem_lastOddSquares hpos hk ((pow_dvd_pow 2 (by norm_num)).trans hdvd) with rfl | ⟨s, hs, rfl⟩
  · -- the number is even, and a quarter of its square ends as the square of an odd number does
    obtain ⟨j, rfl⟩ : 2 ∣ i := (Nat.prime_two.dvd_mul.mp (by omega : 2 ∣ i * i)).elim id id
    have hfour : 2 * j * (2 * j) = 4 * (j * j) := by ring
    have hquarter : 2 ^ (60 + 2) ∣ j * j + 7 := ⟨2 * j * (2 * j) / 2 ^ 64 + 1, by omega⟩
    have hroot : 2 ^ (60 + 2) ∣ 453531625954164555 * 453531625954164555 + 7 := by norm_num
    exact not_dvd_sq_add (by decide) hroot (by omega) (by omega) hquarter
  · obtain ⟨hodd, hroot, hlow, hhigh⟩ := lastOddSquares_sound s hs
    exact not_dvd_sq_add (m := 62) hodd hroot (by omega) (by omega) hdvd

end TrialDivision

/-! ## The main statement -/

open TrialDivision in
/-- **Trial division on words of 64 bits.** For every number that fits a word, the turns come to an end, and what is
    found there are the prime factors: primes in increasing order, with the number for their product, and none for
    zero and one. No divisor is less than two or exceeds a word. The square of every divisor fits a word, unless the
    number is a prime above the last square that does. The Herman-Meyer order is refused for primes and for numbers
    below two, and for no others. -/
theorem trial_division_in_words {n : ℕ} (hn : n < 2 ^ 64) :
    (∃ last, Reached n last ∧ ¬last.Continues ∧ factors n = last.result) ∧
    (factors n).Pairwise (· ≤ ·) ∧ (∀ p ∈ factors n, p.Prime) ∧ (1 ≤ n → (factors n).prod = n) ∧
    (n ≤ 1 → factors n = []) ∧
    (∀ t, Reached n t → 2 ≤ t.divisor ∧ t.divisor < 2 ^ 64) ∧
    ((∀ t, Reached n t → t.divisor * t.divisor < 2 ^ 64) ↔ ¬(n.Prime ∧ (2 ^ 32 - 1) ^ 2 < n)) ∧
    (hermanMeyerOrder n = .error (.invalidSampler (.notComposite n)) ↔ n < 2 ∨ n.Prime) := by
  refine ⟨Reached.start.exists_end hn, ?_, ?_, ?_, ?_, ?_, squares_fit_iff hn, hermanMeyerOrder_eq_error_iff⟩
  · rw [factors_eq]
    exact n.primeFactorsList_sorted.pairwise
  · rw [factors_eq]
    exact fun p hp => Nat.prime_of_mem_primeFactorsList hp
  · rw [factors_eq]
    exact fun h => Nat.prod_primeFactorsList (by omega)
  · rw [factors_eq, Nat.primeFactorsList_eq_nil]
    omega
  · exact fun t ht => ⟨(ht.inWord hn).two_le, (ht.inWord hn).divisor_lt_word⟩

open TrialDivision in
/-- The greatest number of a word, `3 · 5 · 17 · 257 · 641 · 65537 · 6700417`: its factors make it up, and all squares
    fit a word. -/
theorem trial_division_of_greatest_word :
    2 ^ 64 - 1 < 2 ^ 64 ∧ (∃ last, Reached (2 ^ 64 - 1) last ∧ ¬last.Continues ∧ factors (2 ^ 64 - 1) = last.result) ∧
    (factors (2 ^ 64 - 1)).prod = 2 ^ 64 - 1 ∧
    (∀ t, Reached (2 ^ 64 - 1) t → t.divisor * t.divisor < 2 ^ 64) ∧
    hermanMeyerOrder (2 ^ 64 - 1) ≠ .error (.invalidSampler (.notComposite (2 ^ 64 - 1))) := by
  have hcomposite : ¬Nat.Prime (2 ^ 64 - 1) := by norm_num
  obtain ⟨hend, -, -, hprod, -, -, hfit, horder⟩ := trial_division_in_words (n := 2 ^ 64 - 1) (by norm_num)
  refine ⟨by norm_num, hend, hprod (by norm_num), hfit.mpr fun h => hcomposite h.1, fun h => ?_⟩
  exact (horder.mp h).elim (by norm_num) hcomposite

open TrialDivision in
/-- The greatest prime of a word is tried with the divisor `2 ^ 32`, whose square does not fit, and with all others up
    to 907063251908329110, although the root is below `2 ^ 32`. There the division ends. -/
theorem squares_lost_for_greatest_prime :
    18446744073709551557 < 2 ^ 64 ∧ Nat.Prime 18446744073709551557 ∧
    (∃ t, Reached 18446744073709551557 t ∧ ¬t.divisor * t.divisor < 2 ^ 64) ∧
    (∀ i, 2 ≤ i → i ≤ 907063251908329110 → Reached 18446744073709551557 ⟨[], 18446744073709551557, i⟩) ∧
    ¬Continues ⟨[], 18446744073709551557, 907063251908329110⟩ := by
  have hreached : ∀ i, 2 ≤ i → i ≤ 907063251908329110 →
      Reached 18446744073709551557 ⟨[], 18446744073709551557, i⟩ := fun i htwo hi =>
    reached_of_prime prime_18446744073709551557 htwo (by omega) fun j hj => wordSquare_le_of_lt (by omega)
  have hlost : Reached 18446744073709551557 ⟨[], 18446744073709551557, 2 ^ 32⟩ :=
    hreached (2 ^ 32) (by norm_num) (by norm_num)
  exact ⟨by norm_num, prime_18446744073709551557, ⟨_, hlost, by norm_num⟩, hreached, by decide⟩

end Splitting
