import Splitting.Proofs.Scalars

/-!
# `Splitting.Proofs.Rounding` — products in rounded arithmetic that are not rounded to zero

The product of two positive numbers is rounded to zero only if its exponent is below the least one of the format. Where
the exponents of the factors sum to no less, the product is a positive number again, or infinite. This is the same for
double and for single precision.

* `mantissa_shiftRight`, `le_roundedMantissa` — what bringing a mantissa to an exponent and rounding it do to it;
* `roundWithAccuracy_eq_finite` — a mantissa at an exponent that is not below the least is not rounded to zero;
* `zero_lt_pack` — nor is the result when it is packed;
* `zero_lt_mul`, `float_mul_pos`, `float32_mul_pos` — the product.
-/

namespace Splitting

open Float.Model Float.Model.UnpackedFloat

variable {F : Format}

/-! ## Mantissas -/

theorem mantissa_shiftRight (em : ExtendedMantissa) (k : ℕ) : (em >>> k).mantissa = em.mantissa / 2 ^ k := by
  induction k with
  | zero => exact (Nat.div_one _).symm
  | succ k ih =>
    show (em >>> k).mantissa / 2 = _
    rw [ih, Nat.div_div_eq_div_mul, Nat.pow_succ]

theorem mantissa_ofMantissaAndAccuracy (m : ℕ) (a : Accuracy) :
    (ExtendedMantissa.ofMantissaAndAccuracy m a).mantissa = m := by
  rcases a with _ | _ | _ | _ <;> rfl

/-- Rounding does not make a mantissa smaller. -/
theorem le_roundedMantissa (em : ExtendedMantissa) : em.mantissa ≤ em.roundedMantissa := by
  unfold ExtendedMantissa.roundedMantissa
  rcases em.accuracy with _ | _ | _ | _
  · exact le_rfl
  · exact le_rfl
  · exact Nat.le_add_right _ _
  · exact Nat.le_add_right _ _

/-- The mantissa that is left of a positive one when it is brought to its exponent. -/
theorem shiftToTargetExponent_bounds {m : ℕ} {e : ℤ} (a : Accuracy) (hm : 0 < m) (he : F.minExponent ≤ e) :
    0 < (shiftToTargetExponent F m e a).1.mantissa ∧
      (shiftToTargetExponent F m e a).1.mantissa < 2 ^ F.mantissaBits ∧
      F.minExponent ≤ (shiftToTargetExponent F m e a).2 := by
  -- the mantissa loses the bits that it has in excess
  have hshift : (F.targetExponent (totalExponent m e) - e).toNat = m.log2 + 1 - F.mantissaBits := by
    rw [Format.targetExponent, totalExponent]
    omega
  have hbits : 0 < F.mantissaBits := Nat.add_pos_left Nat.one_pos _
  have hlow : 2 ^ (m.log2 + 1 - F.mantissaBits) ≤ m :=
    (Nat.pow_le_pow_right two_pos (by omega)).trans (Nat.log2_self_le hm.ne')
  have hhigh : m < 2 ^ F.mantissaBits * 2 ^ (m.log2 + 1 - F.mantissaBits) := by
    rw [← Nat.pow_add]
    exact Nat.lt_log2_self.trans_le (Nat.pow_le_pow_right two_pos (by omega))
  simp only [shiftToTargetExponent, shiftToExponent, mantissa_shiftRight, mantissa_ofMantissaAndAccuracy, hshift]
  refine ⟨Nat.div_pos hlow (Nat.two_pow_pos _), (Nat.div_lt_iff_lt_mul (Nat.two_pow_pos _)).mpr hhigh, ?_⟩
  omega

/-- **A positive mantissa is not rounded to zero** at an exponent that is not below the least. -/
theorem roundWithAccuracy_eq_finite {s : Sign} {m : ℕ} {e : ℤ} (a : Accuracy) (hm : 0 < m) (he : F.minExponent ≤ e) :
    ∃ m' e' hm', roundWithAccuracy F s m e a = .finite s m' e' hm' ∧ m' < 2 ^ F.mantissaBits ∧
      F.minExponent ≤ e' := by
  obtain ⟨hfirst, -, hexponent⟩ := shiftToTargetExponent_bounds a hm he
  have hrounded := hfirst.trans_le (le_roundedMantissa _)
  -- rounding may have added a bit, which a second shift takes away
  obtain ⟨hpos, hlt, hfinal⟩ := shiftToTargetExponent_bounds .exact hrounded hexponent
  exact ⟨_, _, hpos, dif_neg hpos.ne', hlt, hfinal⟩

/-! ## Numbers above zero -/

theorem zero_lt_finite {m : ℕ} {e : ℤ} (hm : 0 < m) : (zero .positive).lt (finite .positive m e hm) = true := rfl

/-- The numbers above a positive one are infinite, or finite with no smaller exponent. -/
theorem eq_of_finite_lt {m : ℕ} {e : ℤ} {hm : 0 < m} {u : UnpackedFloat}
    (h : (finite .positive m e hm).lt u = true) :
    u = infinity .positive ∨ ∃ m' e' hm', u = finite .positive m' e' hm' ∧ e ≤ e' := by
  cases u with
  | infinity s =>
    cases s with
    | positive => exact Or.inl rfl
    | negative => cases h
  | notANumber => cases h
  | zero s => cases h
  | finite s m' e' hm' =>
    cases s with
    | positive =>
      refine Or.inr ⟨m', e', hm', rfl, ?_⟩
      by_contra hlt
      have hexponents : compare e e' = .gt := compare_gt_iff_gt.mpr (by omega)
      simp [UnpackedFloat.lt, UnpackedFloat.compare, hexponents] at h
    | negative => cases h

theorem zero_lt_packedInfinity :
    (zero .positive).lt (UnpackedFloat.unpack F (UnpackedFloat.pack F (infinity .positive))) = true := by
  show (zero .positive).lt (UnpackedFloat.unpack F (packComponents F .positive (-1#_) 0#_)) = true
  unfold UnpackedFloat.unpack
  simp only [unpackMantissa_packComponents, unpackExponent_packComponents, unpackSign_packComponents,
    Sign.ofBitVec_toBitVec, if_true]
  rfl

/-- Components are unpacked to a positive number if they are neither those of zero nor beyond the largest number. -/
theorem zero_lt_unpack {x : BitVec F.exponentBits} {y : BitVec F.mantissaBitsWithoutImplicit} (hx : x ≠ -1#_)
    (hxy : x ≠ 0#_ ∨ y ≠ 0#_) :
    (zero .positive).lt (UnpackedFloat.unpack F (packComponents F .positive x y)) = true := by
  unfold UnpackedFloat.unpack
  simp only [unpackMantissa_packComponents, unpackExponent_packComponents, unpackSign_packComponents,
    Sign.ofBitVec_toBitVec, if_neg hx]
  split
  · next hzero =>
    rw [dif_neg (hxy.resolve_left (not_not.mpr hzero))]
    exact zero_lt_finite _
  · exact zero_lt_finite _

/-- An exponent that is not below the least is biased to a positive number. -/
theorem one_le_biased {e : ℤ} (he : F.minExponent ≤ e) :
    1 ≤ e + (F.exponentBias : ℤ) + (F.mantissaBitsWithoutImplicit : ℤ) := by
  have hpow : 0 < 2 ^ (F.exponentBits - 1) := Nat.two_pow_pos _
  have hcast : ((2 ^ (F.exponentBits - 1) : ℕ) : ℤ) = 2 ^ (F.exponentBits - 1) := Nat.cast_pow _ _
  rw [Format.minExponent, Format.mantissaBits] at he
  rw [Format.exponentBias]
  omega

/-- **Packing does not lose a positive number.** -/
theorem zero_lt_pack {m : ℕ} {e : ℤ} (hm : 0 < m) (hlt : m < 2 ^ F.mantissaBits) (he : F.minExponent ≤ e) :
    (zero .positive).lt (UnpackedFloat.unpack F (UnpackedFloat.pack F (finite .positive m e hm))) = true := by
  have hbiased := one_le_biased he
  unfold UnpackedFloat.pack
  dsimp only
  split
  · exact zero_lt_packedInfinity
  · next hbelow =>
    split
    · -- a normal number has an exponent
      have hsmall : (e + F.exponentBias + F.mantissaBitsWithoutImplicit).toNat % 2 ^ F.exponentBits =
          (e + F.exponentBias + F.mantissaBitsWithoutImplicit).toNat := Nat.mod_eq_of_lt (by omega)
      refine zero_lt_unpack (fun h => ?_) (Or.inl fun h => ?_)
      · have hvalue := congrArg BitVec.toNat h
        rw [BitVec.toNat_ofNat, hsmall, BitVec.neg_one_eq_allOnes, BitVec.toNat_allOnes] at hvalue
        omega
      · have hvalue := congrArg BitVec.toNat h
        rw [BitVec.toNat_ofNat, hsmall, BitVec.toNat_ofNat, Nat.zero_mod] at hvalue
        omega
    · -- a subnormal number has a mantissa
      next hlog =>
      have hshort : m.log2 < F.mantissaBitsWithoutImplicit := by
        have hbits : F.mantissaBits = 1 + F.mantissaBitsWithoutImplicit := rfl
        have := (Nat.log2_lt hm.ne').mpr hlt
        omega
      have hexponent : (0#F.exponentBits) ≠ -1#_ := by
        intro h
        have hvalue := congrArg BitVec.toNat h
        have htwo : 1 < 2 ^ F.exponentBits := Nat.one_lt_two_pow F.he.ne'
        rw [BitVec.toNat_ofNat, Nat.zero_mod, BitVec.neg_one_eq_allOnes, BitVec.toNat_allOnes] at hvalue
        omega
      refine zero_lt_unpack hexponent (Or.inr fun h => hm.ne' ?_)
      have hvalue := congrArg BitVec.toNat h
      rwa [BitVec.toNat_ofNat, Nat.mod_eq_of_lt ((Nat.log2_lt hm.ne').mp hshort), BitVec.toNat_ofNat,
        Nat.zero_mod] at hvalue

/-! ## Products -/

/-- The product of two positive numbers, one of them perhaps infinite. -/
theorem zero_lt_mul {u v : UnpackedFloat} {e f : ℤ}
    (hu : u = infinity .positive ∨ ∃ m e' hm, u = finite .positive m e' hm ∧ e ≤ e')
    (hv : v = infinity .positive ∨ ∃ n f' hn, v = finite .positive n f' hn ∧ f ≤ f')
    (hsum : F.minExponent ≤ e + f) :
    (zero .positive).lt (UnpackedFloat.unpack F (UnpackedFloat.pack F (UnpackedFloat.mul F u v))) = true := by
  rcases hu with rfl | ⟨m, e', hm, rfl, he⟩
  · rcases hv with rfl | ⟨n, f', hn, rfl, hf⟩
    · exact zero_lt_packedInfinity
    · exact zero_lt_packedInfinity
  · rcases hv with rfl | ⟨n, f', hn, rfl, hf⟩
    · exact zero_lt_packedInfinity
    · obtain ⟨k, g, hk, hround, hlow, hg⟩ := roundWithAccuracy_eq_finite (F := F) (s := .positive) .exact
        (Nat.mul_pos hm hn) (e := e' + f') (by omega)
      have hproduct : UnpackedFloat.mul F (finite .positive m e' hm) (finite .positive n f' hn) =
          finite .positive k g hk := hround
      rw [hproduct]
      exact zero_lt_pack hk hlow hg

/-- **The product of two numbers is positive** if each is above a positive number, as long as the exponents of these
    sum to no less than the least one. -/
theorem float_mul_pos {a b c d : Float} {m n : ℕ} {e f : ℤ} {hm : 0 < m} {hn : 0 < n}
    (hc : c.toModel.unpack = finite .positive m e hm) (hd : d.toModel.unpack = finite .positive n f hn)
    (hsum : Format.binary64.minExponent ≤ e + f) (ha : c < a) (hb : d < b) : 0 < a * b := by
  have hleft : (finite .positive m e hm).lt a.toModel.unpack = true := hc ▸ of_decide_eq_true ha
  have hright : (finite .positive n f hn).lt b.toModel.unpack = true := hd ▸ of_decide_eq_true hb
  exact decide_eq_true (zero_lt_mul (eq_of_finite_lt hleft) (eq_of_finite_lt hright) hsum)

/-- The same in single precision. -/
theorem float32_mul_pos {a b c d : Float32} {m n : ℕ} {e f : ℤ} {hm : 0 < m} {hn : 0 < n}
    (hc : c.toModel.unpack = finite .positive m e hm) (hd : d.toModel.unpack = finite .positive n f hn)
    (hsum : Format.binary32.minExponent ≤ e + f) (ha : c < a) (hb : d < b) : 0 < a * b := by
  have hleft : (finite .positive m e hm).lt a.toModel.unpack = true := hc ▸ of_decide_eq_true ha
  have hright : (finite .positive n f hn).lt b.toModel.unpack = true := hd ▸ of_decide_eq_true hb
  exact decide_eq_true (zero_lt_mul (eq_of_finite_lt hleft) (eq_of_finite_lt hright) hsum)

end Splitting
