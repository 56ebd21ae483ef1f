import SolidScene.Proofs.Number.Rounding
import Mathlib

/-!
# Packing and rounding of doubles

A double unpacks to a mantissa and an exponent that its bits determine (`unpack_of_lt`), and packing
puts them back. Rounding keeps the bits that it shifts out as a residue (`Residue`), so what
arithmetic packs are the bits nearest to the exact result (`toNat_pack_roundWithAccuracy`).
-/

namespace SolidScene.Binary64

open Float.Model Float.Model.UnpackedFloat

/-! ## Packing -/

theorem toNat_unpackMantissa (b : BitVec 64) :
    (@unpackMantissa .binary64 b).toNat = b.toNat % 2 ^ 52 := by
  simp [unpackMantissa, BitVec.extractLsb_toNat]

theorem toNat_unpackExponent (b : BitVec 64) :
    (@unpackExponent .binary64 b).toNat = b.toNat / 2 ^ 52 % 2 ^ 11 := by
  simp [unpackExponent, BitVec.extractLsb_toNat, Nat.shiftRight_eq_div_pow]

theorem toNat_unpackSign (b : BitVec 64) :
    (@unpackSign .binary64 b).toNat = b.toNat / 2 ^ 63 := by
  have := b.isLt
  simp [unpackSign, BitVec.extractLsb_toNat, Nat.shiftRight_eq_div_pow]
  omega

def signBits : Sign → ℕ
  | .negative => signBit
  | .positive => 0

theorem toNat_packComponents (s : Sign) (e : BitVec 11) (m : BitVec 52) :
    (packComponents .binary64 s e m : BitVec 64).toNat =
      signBits s + e.toNat * 2 ^ 52 + m.toNat := by
  have he := e.isLt
  have hm := m.isLt
  have h (a i b : ℕ) (hb : b < 2 ^ i) : a <<< i ||| b = a * 2 ^ i + b := by
    rw [← Nat.shiftLeft_add_eq_or_of_lt hb, Nat.shiftLeft_eq]
  unfold packComponents
  rw [BitVec.toNat_append, BitVec.toNat_append, h _ _ _ hm, h _ _ _ he]
  cases s <;> simp [Sign.toBitVec, signBits, signBit]
  omega

def signOf (negative : Bool) : Sign := if negative then .negative else .positive

/-- The unpacked double with these bits and this sign. -/
def unpacked (negative : Bool) (bits : ℕ) : UnpackedFloat :=
  if h : bits = 0 then .zero (signOf negative)
  else if bits < 2 ^ 52 then .finite (signOf negative) bits (-1074) (Nat.pos_of_ne_zero h)
  else .finite (signOf negative) (2 ^ 52 + bits % 2 ^ 52) ((bits / 2 ^ 52 : ℕ) - 1075) (by omega)

theorem ofBitVec_unpackSign (b : BitVec 64) :
    Sign.ofBitVec (@unpackSign .binary64 b) = signOf (decide (signBit ≤ b.toNat)) := by
  have hs := toNat_unpackSign b
  have hb := b.isLt
  have h0 : @unpackSign .binary64 b = 0#1 ↔ ¬ signBit ≤ b.toNat := by
    rw [← BitVec.toNat_inj, hs]
    simp only [signBit, BitVec.toNat_ofNat]
    omega
  simp only [Sign.ofBitVec, signOf, h0, decide_eq_true_eq]
  split_ifs <;> rfl

theorem unpackExponent_eq_allOnes_iff (b : BitVec 64) :
    @unpackExponent .binary64 b = -1#_ ↔ infinityBits ≤ b.toNat % signBit := by
  rw [← BitVec.toNat_inj, toNat_unpackExponent]
  simp only [infinityBits, signBit, BitVec.neg_one_eq_allOnes, BitVec.toNat_allOnes]
  omega

theorem unpackExponent_eq_zero_iff (b : BitVec 64) :
    @unpackExponent .binary64 b = 0#_ ↔ b.toNat % signBit < 2 ^ 52 := by
  rw [← BitVec.toNat_inj, toNat_unpackExponent]
  simp only [signBit, BitVec.toNat_ofNat]
  omega

theorem unpack_of_lt {b : BitVec 64} (h : b.toNat % signBit < infinityBits) :
    UnpackedFloat.unpack .binary64 b
      = unpacked (decide (signBit ≤ b.toNat)) (b.toNat % signBit) := by
  have hM := toNat_unpackMantissa b
  have hE := toNat_unpackExponent b
  have h1 := (unpackExponent_eq_allOnes_iff b).not.2 (Nat.not_le.2 h)
  have h0 := unpackExponent_eq_zero_iff b
  have hM0 : @unpackMantissa .binary64 b = 0#52 ↔ b.toNat % 2 ^ 52 = 0 := by
    rw [← BitVec.toNat_inj, hM, BitVec.toNat_ofNat, Nat.zero_mod]
  unfold UnpackedFloat.unpack unpacked
  simp only [h1, if_false, ofBitVec_unpackSign, h0, hM0, hM, hE]
  split_ifs with ha hb hc hd he
  · rfl
  · simp only [signBit] at *; omega
  · simp only [signBit] at *; omega
  · congr 1
    · simp only [signBit] at *; omega
    · simp only [signBit, Format.exponentBias] at *; omega
  · simp only [signBit] at *; omega
  · congr 1
    · rw [BitVec.toNat_append, hM, ← Nat.shiftLeft_add_eq_or_of_lt (Nat.mod_lt _ (by decide))]
      simp only [signBit] at *
      simp
    · simp only [signBit, infinityBits, Format.exponentBias] at *
      omega

theorem unpack_of_eq {b : BitVec 64} (h : b.toNat % signBit = infinityBits) :
    UnpackedFloat.unpack .binary64 b = .infinity (signOf (decide (signBit ≤ b.toNat))) := by
  have hM := toNat_unpackMantissa b
  have hM0 : @unpackMantissa .binary64 b = 0#52 := by
    rw [← BitVec.toNat_inj, hM]
    simp only [signBit, infinityBits, BitVec.toNat_ofNat] at *
    omega
  unfold UnpackedFloat.unpack
  rw [if_pos ((unpackExponent_eq_allOnes_iff b).2 h.ge), if_pos hM0, ofBitVec_unpackSign]

theorem signBits_signOf (negative : Bool) :
    signBits (signOf negative) = if negative then signBit else 0 := by
  cases negative <;> rfl

/-- Packing writes the steps of the binade behind those of all binades before it. -/
theorem toNat_pack_finite {s : Sign} {m : ℕ} {e : ℤ} (hm : 0 < m) (he : -1074 ≤ e)
    (hhigh : m < 2 ^ 53) (hlow : 2 ^ 52 ≤ m ∨ e = -1074) :
    (UnpackedFloat.pack .binary64 (.finite s m e hm) : BitVec 64).toNat
      = signBits s + min ((e + 1074).toNat * 2 ^ 52 + m) infinityBits := by
  have hlog : m.log2 + 1 = Format.binary64.mantissaBits ↔ 2 ^ 52 ≤ m := by
    have h52 : 52 ≤ m.log2 ↔ 2 ^ 52 ≤ m := Nat.le_log2 hm.ne'
    have h53 : m.log2 < 53 := (Nat.log2_lt hm.ne').2 hhigh
    rw [← h52]
    simp only [Format.mantissaBits]
    omega
  have hbias : (e + (Format.binary64.exponentBias : ℤ)
      + (Format.binary64.mantissaBitsWithoutImplicit : ℤ)).toNat = (e + 1074).toNat + 1 := by
    simp only [Format.exponentBias]
    omega
  unfold UnpackedFloat.pack
  simp only [hbias, hlog]
  generalize hk : (e + 1074).toNat = k at *
  split_ifs with hinf hnormal
  · unfold packedInfinity
    rw [toNat_packComponents]
    simp [infinityBits]
    omega
  · rw [toNat_packComponents]
    simp [infinityBits]
    omega
  · rw [toNat_packComponents]
    simp [infinityBits]
    omega


/-! ## Rounding -/

/-- The mantissa and the residual bits of `m / d`. -/
def Residue (em : ExtendedMantissa) (m d : ℕ) : Prop :=
  em.mantissa = m / d ∧ (em.roundBit = true ↔ d ≤ 2 * (m % d)) ∧
    (em.stickyBit = true ↔ 2 * (m % d) % d ≠ 0)

theorem residue_exact (m : ℕ) : Residue (.ofMantissaAndAccuracy m .exact) m 1 := by
  simp [Residue, ExtendedMantissa.ofMantissaAndAccuracy, Nat.mod_one]

theorem Residue.shiftRightOne {em : ExtendedMantissa} {m d : ℕ} (hd : 0 < d)
    (h : Residue em m d) : Residue em.shiftRightOne m (2 * d) := by
  obtain ⟨hm, hr, hs⟩ := h
  have hlt := Nat.mod_lt m hd
  have hmod : m % (2 * d) = m % d + d * (m / d % 2) := by
    rw [Nat.mul_comm, Nat.mod_mul]
  have hdiv : m / (2 * d) = m / d / 2 := by rw [Nat.mul_comm, Nat.div_div_eq_div_mul]
  have hsticky : (em.roundBit || em.stickyBit) = true ↔ m % d ≠ 0 := by
    rw [Bool.or_eq_true, hr, hs]
    rcases Nat.lt_or_ge (2 * (m % d)) d with hlow | hlow
    · rw [Nat.mod_eq_of_lt hlow]
      omega
    · omega
  refine ⟨by rw [hdiv, ← hm]; rfl, ?_, ?_⟩
  · rw [hmod]
    simp only [ExtendedMantissa.shiftRightOne, hm, bne_iff_ne]
    rcases Nat.mod_two_eq_zero_or_one (m / d) with h2 | h2 <;> rw [h2] <;> omega
  · rw [Nat.mul_mod_mul_left]
    simp only [ExtendedMantissa.shiftRightOne, hsticky]
    rw [hmod, Nat.add_mul_mod_self_left, Nat.mod_mod]
    omega

theorem Residue.shiftRight {em : ExtendedMantissa} {m d : ℕ} (hd : 0 < d) (h : Residue em m d) :
    ∀ n : ℕ, Residue (em >>> n) m (2 ^ n * d)
  | 0 => by simpa [HShiftRight.hShiftRight, Nat.repeat] using h
  | n + 1 => by
    have ih := (Residue.shiftRight hd h n).shiftRightOne (by positivity)
    rwa [← Nat.mul_assoc, ← Nat.pow_succ'] at ih

theorem Residue.roundedMantissa {em : ExtendedMantissa} {m d : ℕ} (hd : 0 < d)
    (h : Residue em m d) : em.roundedMantissa = roundHalfEven m d := by
  obtain ⟨hm, hr, hs⟩ := h
  have hlt := Nat.mod_lt m hd
  obtain ⟨q, r, s⟩ := em
  simp only at hm hr hs
  subst hm
  unfold roundHalfEven ExtendedMantissa.roundedMantissa
  rcases Nat.lt_trichotomy (2 * (m % d)) d with h | h | h
  · have hr' : r = false := by simpa using hr.not.2 (by omega)
    rw [Nat.mod_eq_of_lt h] at hs
    rw [if_pos h, hr']
    cases s <;> rfl
  · have hr' : r = true := hr.2 h.ge
    have hs' : s = false := by simpa [h] using hs
    rw [if_neg (by omega), if_pos h, hr', hs']
    rfl
  · have hr' : r = true := hr.2 h.le
    have hs' : s = true := by
      refine hs.2 ?_
      rw [Nat.mod_eq_sub_mod h.le, Nat.mod_eq_of_lt (by omega)]
      omega
    rw [if_neg (by omega), if_neg (by omega), hr', hs']
    rfl

theorem roundedMantissa_shiftRight (m n : ℕ) :
    (ExtendedMantissa.ofMantissaAndAccuracy m .exact >>> n).roundedMantissa
      = roundHalfEven m (2 ^ n) := by
  have h := (residue_exact m).shiftRight Nat.one_pos n
  rw [Nat.mul_one] at h
  exact h.roundedMantissa (by positivity)


theorem targetExponent_binary64 (m : ℕ) (e : ℤ) :
    Format.binary64.targetExponent (totalExponent m e) = max (m.log2 + e - 52) (-1074) := by
  simp only [Format.targetExponent, totalExponent, Format.minExponent, Format.mantissaBits]
  omega

theorem log2_mul_pow_div_pow {m : ℕ} (hm : 0 < m) (a b : ℕ) :
    (m * 2 ^ a / 2 ^ b).log2 = m.log2 + a - b := by
  have hmul : ∀ a, (m * 2 ^ a).log2 = m.log2 + a := by
    intro a
    induction a with
    | zero => simp
    | succ a ih =>
      rw [Nat.pow_succ', Nat.mul_left_comm, Nat.log2_two_mul (by positivity), ih, Nat.add_assoc]
  rw [← hmul, Nat.log2_eq_log_two, Nat.log2_eq_log_two, Nat.log_div_base_pow]

/-- The end of rounding, where a mantissa that has become a bit too long is shifted once more. -/
def carried (s : Sign) (r : ℕ) (t : ℤ) : UnpackedFloat :=
  if h : (shiftToTargetExponent .binary64 r t .exact).1.mantissa = 0 then .zero s
  else .finite s (shiftToTargetExponent .binary64 r t .exact).1.mantissa
    (shiftToTargetExponent .binary64 r t .exact).2 (Nat.pos_of_ne_zero h)

theorem roundWithAccuracy_eq (s : Sign) {m : ℕ} {e t : ℤ} (accuracy : Accuracy)
    (ht : max ((m.log2 : ℤ) + e - 52) (-1074) = t) (he : e ≤ t) :
    roundWithAccuracy .binary64 s m e accuracy = carried s
      (ExtendedMantissa.ofMantissaAndAccuracy m accuracy >>> (t - e).toNat).roundedMantissa t := by
  have hfirst : shiftToTargetExponent .binary64 m e accuracy
      = (ExtendedMantissa.ofMantissaAndAccuracy m accuracy >>> (t - e).toNat, t) := by
    unfold shiftToTargetExponent shiftToExponent
    simp only [targetExponent_binary64, ht, Prod.mk.injEq, true_and]
    omega
  unfold roundWithAccuracy carried
  rw [hfirst]

theorem roundWithAccuracy_eq_carried (s : Sign) {m : ℕ} {e t : ℤ}
    (ht : max ((m.log2 : ℤ) + e - 52) (-1074) = t) (he : e ≤ t) :
    roundWithAccuracy .binary64 s m e .exact
      = carried s (roundHalfEven m (2 ^ (t - e).toNat)) t := by
  rw [roundWithAccuracy_eq s .exact ht he, roundedMantissa_shiftRight]

theorem toNat_pack_carried (s : Sign) {r : ℕ} {t : ℤ} (ht : -1074 ≤ t) (hhigh : r ≤ 2 ^ 53)
    (hlow : 2 ^ 52 ≤ r ∨ t = -1074) :
    (UnpackedFloat.pack .binary64 (carried s r t) : BitVec 64).toNat
      = signBits s + min ((t + 1074).toNat * 2 ^ 52 + r) infinityBits := by
  unfold carried
  simp only [shiftToTargetExponent, shiftToExponent, targetExponent_binary64]
  rcases Nat.lt_or_eq_of_le hhigh with hlt | rfl
  · have hlog : r.log2 < 53 := by
      rcases Nat.eq_zero_or_pos r with rfl | hr
      · decide
      · exact (Nat.log2_lt hr.ne').2 hlt
    have hshift : (max ((r.log2 : ℤ) + t - 52) (-1074) - t).toNat = 0 := by omega
    simp only [hshift, HShiftRight.hShiftRight, Nat.repeat, ExtendedMantissa.ofMantissaAndAccuracy]
    split_ifs with h0
    · subst h0
      obtain rfl : t = -1074 := by omega
      simp [UnpackedFloat.pack, packedZero, toNat_packComponents]
    · rw [toNat_pack_finite _ (by omega) hlt (by omega)]
      simp
  · have hlog : (2 ^ 53 : ℕ).log2 = 53 := Nat.log2_two_pow
    have hshift : (max (((2 ^ 53 : ℕ).log2 : ℤ) + t - 52) (-1074) - t).toNat = 1 := by
      rw [hlog]; omega
    simp only [hshift, HShiftRight.hShiftRight, Nat.repeat, ExtendedMantissa.shiftRightOne,
      ExtendedMantissa.ofMantissaAndAccuracy]
    rw [dif_neg (by decide), toNat_pack_finite _ (by omega) (by decide) (.inl (by decide))]
    have hcarry : (t + ((1 : ℕ) : ℤ) + 1074).toNat * 2 ^ 52 + 2 ^ 53 / 2
        = (t + 1074).toNat * 2 ^ 52 + 2 ^ 53 := by
      rw [show (t + ((1 : ℕ) : ℤ) + 1074).toNat = (t + 1074).toNat + 1 by omega, Nat.add_mul]
      omega
    rw [hcarry]

/-- Rounding and packing `m * 2 ^ e` gives the bits nearest to it. -/
theorem toNat_pack_roundWithAccuracy (s : Sign) {m E k : ℕ} {e : ℤ} (hm : 0 < m)
    (hE : (E : ℤ) = e + 1074 + k) (he : e ≤ max (m.log2 + e - 52) (-1074)) :
    (UnpackedFloat.pack .binary64 (roundWithAccuracy .binary64 s m e .exact) : BitVec 64).toNat
      = signBits s + nearestBits (m * 2 ^ E) (2 ^ k) := by
  have hk : 0 < 2 ^ k := by positivity
  have hlog := log2_mul_pow_div_pow hm E k
  obtain ⟨hhigh, hlow⟩ := binade_bounds (m * 2 ^ E) hk
  rw [hlog] at hhigh hlow
  obtain ⟨hR, hR'⟩ := roundHalfEven_binade hk hhigh hlow
  obtain ⟨t, ht⟩ : ∃ t, max ((m.log2 : ℤ) + e - 52) (-1074) = t := ⟨_, rfl⟩
  rw [ht] at he
  have hdoublings : m.log2 + E - k - 52 = (t + 1074).toNat := by omega
  have hscale : roundHalfEven (m * 2 ^ E) (2 ^ k * 2 ^ (t + 1074).toNat)
      = roundHalfEven m (2 ^ (t - e).toNat) := by
    have hpow : 2 ^ k * 2 ^ (t + 1074).toNat = 2 ^ E * 2 ^ (t - e).toNat := by
      rw [← Nat.pow_add, ← Nat.pow_add]
      congr 1
      omega
    rw [hpow, Nat.mul_comm m, roundHalfEven_mul (by positivity)]
  rw [hdoublings, hscale] at hR hR'
  rw [roundWithAccuracy_eq_carried s ht he, toNat_pack_carried s (by omega) hR (by omega)]
  simp only [nearestBits, fractionBits, hlog, hdoublings, hscale]

end SolidScene.Binary64
