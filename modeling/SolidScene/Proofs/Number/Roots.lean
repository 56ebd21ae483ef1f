import SolidScene.Proofs.Number.Addition

/-!
# Square roots and reciprocals of doubles

Rounding may carry a number to the end of its binade and no further
(`exists_pack_roundWithAccuracy`). A square root lies in the middle of the range of doubles, so its
reciprocal overflows nowhere and vanishes nowhere: the reciprocal of a root is a finite double above
zero exactly where the radicand is (`reciprocal_sqrt_iff`).
-/

namespace SolidScene.Binary64

open Float.Model Float.Model.UnpackedFloat

/-! ## Binades -/

theorem mantissa_shiftRight (em : ExtendedMantissa) (n : ℕ) :
    (em >>> n).mantissa = em.mantissa / 2 ^ n := by
  induction n with
  | zero => simp [HShiftRight.hShiftRight, Nat.repeat]
  | succ n ih =>
    have hstep : (em >>> (n + 1)).mantissa = (em >>> n).mantissa / 2 := rfl
    rw [hstep, ih, Nat.div_div_eq_div_mul, Nat.pow_succ]

theorem mantissa_ofMantissaAndAccuracy (m : ℕ) (accuracy : Accuracy) :
    (ExtendedMantissa.ofMantissaAndAccuracy m accuracy).mantissa = m := by
  rcases accuracy with _ | _ | _ | _ <;> rfl

theorem roundedMantissa_bounds (em : ExtendedMantissa) :
    em.mantissa ≤ em.roundedMantissa ∧ em.roundedMantissa ≤ em.mantissa + 1 := by
  obtain ⟨m, round, sticky⟩ := em
  have hparity := Nat.mod_lt m Nat.two_pos
  cases round <;> cases sticky <;>
    simp only [ExtendedMantissa.roundedMantissa, ExtendedMantissa.accuracy,
      Accuracy.roundToNearestEven] <;>
    omega

/-- Rounding keeps a number in its binade or carries it to the end of it, whatever is known of the
places that were cut off. -/
theorem exists_pack_roundWithAccuracy (s : Sign) {m : ℕ} {e top : ℤ} (accuracy : Accuracy)
    (hm : 0 < m) (htop : (m.log2 : ℤ) + e = top) (hlow : -1022 ≤ top) (hhigh : top ≤ 1022)
    (he : e ≤ top - 52) :
    ∃ bits, (top + 1023).toNat * 2 ^ 52 ≤ bits ∧ bits ≤ (top + 1024).toNat * 2 ^ 52 ∧
      (UnpackedFloat.pack .binary64 (roundWithAccuracy .binary64 s m e accuracy) : BitVec 64).toNat
        = signBits s + bits := by
  obtain ⟨k, hk⟩ : ∃ k, (top - 52 - e).toNat = k := ⟨_, rfl⟩
  obtain ⟨hle, hge⟩ := roundedMantissa_bounds
    (ExtendedMantissa.ofMantissaAndAccuracy m accuracy >>> k)
  rw [mantissa_shiftRight, mantissa_ofMantissaAndAccuracy] at hle hge
  -- what is left of the mantissa fills the binade's bits
  have hlog : m.log2 = 52 + k := by omega
  have hquotient : 2 ^ 52 ≤ m / 2 ^ k ∧ m / 2 ^ k < 2 ^ 53 := by
    have hpos : 0 < 2 ^ k := by positivity
    rw [Nat.le_div_iff_mul_le hpos, Nat.div_lt_iff_lt_mul hpos, ← Nat.pow_add, ← Nat.pow_add]
    exact ⟨(Nat.le_log2 hm.ne').1 (by omega), (Nat.log2_lt hm.ne').1 (by omega)⟩
  refine ⟨min ((top - 52 + 1074).toNat * 2 ^ 52 +
    (ExtendedMantissa.ofMantissaAndAccuracy m accuracy >>> k).roundedMantissa) infinityBits,
    ?_, ?_, ?_⟩
  · unfold infinityBits
    omega
  · omega
  · rw [roundWithAccuracy_eq s (t := top - 52) accuracy (by omega) he, hk]
    exact toNat_pack_carried s (by omega) (by omega) (.inl (by omega))

/-! ## Roots -/

theorem log2_sqrt (n : ℕ) : n.sqrt.log2 = n.log2 / 2 := by
  rcases Nat.eq_zero_or_pos n with rfl | hn
  · rfl
  have hroot : n.sqrt ≠ 0 := (Nat.sqrt_pos.2 hn).ne'
  refine (Nat.log2_eq_iff hroot).2 ⟨?_, ?_⟩
  · rw [Nat.le_sqrt', ← Nat.pow_mul]
    exact (Nat.le_log2 hn.ne').1 (by omega)
  · rw [Nat.sqrt_lt', ← Nat.pow_mul]
    exact (Nat.log2_lt hn.ne').1 (by omega)

theorem log2_shiftLeft {m : ℕ} (hm : 0 < m) (k : ℕ) : (m <<< k).log2 = m.log2 + k := by
  have h := log2_mul_pow_div_pow hm k 0
  simpa [Nat.shiftLeft_eq] using h

theorem sqrt_finite {m : ℕ} {e : ℤ} (hm : 0 < m) :
    UnpackedFloat.sqrt .binary64 (.finite (signOf false) m e hm)
      = roundWithAccuracy .binary64 .positive (sqrtCore .binary64 m e).1
        (sqrtCore .binary64 m e).2.1 (sqrtCore .binary64 m e).2.2 := rfl

/-- The root of a finite double above zero lies in the middle of the range of doubles. -/
theorem exists_pack_sqrt {bits : ℕ} (hpos : bits ≠ 0) (hfinite : bits < infinityBits) :
    ∃ root, 486 * 2 ^ 52 ≤ root ∧ root ≤ 1535 * 2 ^ 52 ∧
      (UnpackedFloat.pack .binary64 (UnpackedFloat.sqrt .binary64 (unpacked false bits)) :
        BitVec 64).toNat = root := by
  obtain ⟨m, e, hm, hu, hhigh, he, hlow, hbits⟩ := exists_unpacked false hpos
  obtain ⟨g, hg⟩ : ∃ g, min (e / 2)
    (Format.binary64.targetExponent ((totalExponent m e + 1) / 2)) = g := ⟨_, rfl⟩
  obtain ⟨k, hk⟩ : ∃ k, (e - 2 * g).toNat = k := ⟨_, rfl⟩
  have hcore : ∃ accuracy, sqrtCore .binary64 m e = ((m <<< k).sqrt, g, accuracy) := by
    subst hg hk
    exact ⟨_, rfl⟩
  obtain ⟨accuracy, hcore⟩ := hcore
  have hsqrt : UnpackedFloat.sqrt .binary64 (unpacked false bits)
      = roundWithAccuracy .binary64 .positive (m <<< k).sqrt g accuracy := by
    rw [hu, sqrt_finite, hcore]
  simp only [Format.targetExponent, totalExponent, Format.minExponent, Format.mantissaBits] at hg
  have hlog : m.log2 < 53 := (Nat.log2_lt hm.ne').2 hhigh
  have hroot : (m <<< k).sqrt.log2 = (m.log2 + k) / 2 := by
    rw [log2_sqrt, log2_shiftLeft hm]
  have hrootpos : 0 < (m <<< k).sqrt := by
    rw [Nat.sqrt_pos, Nat.shiftLeft_eq]
    positivity
  have hrange : e ≤ 971 := by
    unfold infinityBits at hfinite
    omega
  -- the root's binade is half way to the one of the radicand
  have htop : ((m <<< k).sqrt.log2 : ℤ) + g = ((m.log2 : ℤ) + e) / 2 := by omega
  obtain ⟨root, hge, hle, hpack⟩ := exists_pack_roundWithAccuracy .positive accuracy hrootpos htop
    (by omega) (by omega) (by omega)
  have hmiddle : 486 ≤ (((m.log2 : ℤ) + e) / 2 + 1023).toNat ∧
      (((m.log2 : ℤ) + e) / 2 + 1024).toNat ≤ 1535 := by omega
  rw [hsqrt, hpack]
  exact ⟨root, (Nat.mul_le_mul_right _ hmiddle.1).trans hge,
    hle.trans (Nat.mul_le_mul_right _ hmiddle.2), Nat.zero_add root⟩

/-! ## Reciprocals -/

theorem div_finite {m n : ℕ} {e f : ℤ} (hm : 0 < m) (hn : 0 < n) :
    UnpackedFloat.div .binary64 (.finite .positive m e hm) (.finite (signOf false) n f hn)
      = roundWithAccuracy .binary64 .positive (divCore .binary64 m e n f).1
        (divCore .binary64 m e n f).2.1 (divCore .binary64 m e n f).2.2 := rfl

/-- The reciprocal of a double in the middle of the range is a finite double above zero. -/
theorem exists_pack_reciprocal {bits : ℕ} (hlow : 486 * 2 ^ 52 ≤ bits)
    (hhigh : bits ≤ 1535 * 2 ^ 52) :
    ∃ bits', bits' ≠ 0 ∧ bits' < infinityBits ∧
      (UnpackedFloat.pack .binary64 (UnpackedFloat.div .binary64
        (.finite .positive (2 ^ 52) (-52) (Nat.two_pow_pos 52)) (unpacked false bits)) :
          BitVec 64).toNat = bits' := by
  obtain ⟨m, e, hm, hu, hmhigh, he, hmlow, hbits⟩ := exists_unpacked false
    (show bits ≠ 0 by omega)
  have hmlow : 2 ^ 52 ≤ m := by omega
  have hlog : m.log2 = 52 := (Nat.log2_eq_iff hm.ne').2 ⟨hmlow, hmhigh⟩
  have hone : (2 ^ 52 : ℕ).log2 = 52 := Nat.log2_two_pow
  have htarget : min (-52 - e) (Format.binary64.targetExponent
      (totalExponent (2 ^ 52) (-52) - totalExponent m e)) = -105 - e := by
    simp only [Format.targetExponent, totalExponent, Format.minExponent, Format.mantissaBits, hlog,
      hone]
    omega
  have hdiv : ∃ accuracy, UnpackedFloat.div .binary64
      (.finite .positive (2 ^ 52) (-52) (Nat.two_pow_pos 52)) (unpacked false bits)
        = roundWithAccuracy .binary64 .positive (2 ^ 105 / m) (-105 - e) accuracy := by
    have hshift : (-52 - e - (-105 - e)).toNat = 53 := by omega
    refine ⟨accuracyOfFraction (2 ^ 105 % m) m, ?_⟩
    rw [hu, div_finite, divCore, htarget, hshift]
    rfl
  obtain ⟨accuracy, hdiv⟩ := hdiv
  -- the quotient fills a mantissa, with one place more where it is large
  have hquotient : 2 ^ 52 ≤ 2 ^ 105 / m ∧ 2 ^ 105 / m < 2 ^ 54 := by
    rw [Nat.le_div_iff_mul_le hm, Nat.div_lt_iff_lt_mul hm]
    omega
  have hpos : 0 < 2 ^ 105 / m := by omega
  have hquotientlog : 52 ≤ (2 ^ 105 / m).log2 ∧ (2 ^ 105 / m).log2 < 54 :=
    ⟨(Nat.le_log2 hpos.ne').2 hquotient.1, (Nat.log2_lt hpos.ne').2 hquotient.2⟩
  have hrange : -589 ≤ e ∧ e ≤ 460 := by omega
  obtain ⟨bits', hge, hle, hpack⟩ := exists_pack_roundWithAccuracy .positive accuracy hpos
    (e := -105 - e) rfl (by omega) (by omega) (by omega)
  rw [hdiv, hpack]
  refine ⟨bits', ?_, ?_, Nat.zero_add bits'⟩
  · omega
  · unfold infinityBits
    omega

/-! ## Reciprocals of roots -/

section Reciprocal

variable {d : Float}

theorem zero_lt_iff_place_pos (hd : d.isNaN = false) : 0.0 < d ↔ 0 < place d := by
  rw [lt_iff_place_lt (isNaN_of_isFinite isFinite_zero) hd, place_zero]

/-- The reciprocal of the root of a finite double above zero is another one. -/
theorem reciprocal_sqrt_of_pos (hneg : isNegative d = false) (hpos : magnitudeBits d ≠ 0)
    (hfinite : magnitudeBits d < infinityBits) :
    (1.0 / d.sqrt).isFinite = true ∧ 0.0 < 1.0 / d.sqrt := by
  obtain ⟨root, hlow, hhigh, hroot⟩ := exists_pack_sqrt hpos hfinite
  obtain ⟨bits, hbits, hbitsfinite, hreciprocal⟩ := exists_pack_reciprocal hlow hhigh
  have hrootfinite : root < infinityBits := by
    unfold infinityBits
    omega
  have hunpack : d.toModel.unpack = unpacked false (magnitudeBits d) := by
    rw [unpack_of_isFinite (isFinite_iff.2 hfinite), hneg]
  have hsqrt : d.sqrt = ofSignBits false root := by
    refine eq_ofSignBits hrootfinite.le ?_
    show (UnpackedFloat.pack .binary64 (UnpackedFloat.sqrt .binary64 d.toModel.unpack) :
      BitVec 64).toNat = _
    rw [hunpack, hroot]
    simp
  have hrootunpack : (ofSignBits false root).toModel.unpack = unpacked false root := by
    rw [unpack_of_isFinite ((isFinite_ofSignBits_iff hrootfinite.le).2 hrootfinite),
      isNegative_ofSignBits hrootfinite.le, magnitudeBits_ofSignBits hrootfinite.le]
  have hquotient : 1.0 / d.sqrt = ofSignBits false bits := by
    refine eq_ofSignBits hbitsfinite.le ?_
    rw [hsqrt]
    show (UnpackedFloat.pack .binary64 (UnpackedFloat.div .binary64 (1.0 : Float).toModel.unpack
      (ofSignBits false root).toModel.unpack) : BitVec 64).toNat = _
    have hone : (1.0 : Float).toModel.unpack
        = .finite .positive (2 ^ 52) (-52) (Nat.two_pow_pos 52) := rfl
    rw [hone, hrootunpack, hreciprocal]
    simp
  have hquotientfinite : (ofSignBits false bits).isFinite = true :=
    (isFinite_ofSignBits_iff hbitsfinite.le).2 hbitsfinite
  rw [hquotient, zero_lt_iff_place_pos (isNaN_of_isFinite hquotientfinite), place,
    isNegative_ofSignBits hbitsfinite.le, magnitudeBits_ofSignBits hbitsfinite.le]
  exact ⟨hquotientfinite, Int.natCast_pos.2 (Nat.pos_of_ne_zero hbits)⟩

theorem not_isFinite_of_sqrt (h : UnpackedFloat.sqrt .binary64 d.toModel.unpack = .notANumber) :
    (1.0 / d.sqrt).isFinite = false := by
  show (UnpackedFloat.unpack .binary64 (UnpackedFloat.pack .binary64 (UnpackedFloat.div .binary64
    (1.0 : Float).toModel.unpack (UnpackedFloat.unpack .binary64 (UnpackedFloat.pack .binary64
      (UnpackedFloat.sqrt .binary64 d.toModel.unpack)))))).isFinite = false
  rw [h]
  decide

/-- The reciprocal of a root is a finite double above zero exactly where the radicand is. -/
theorem reciprocal_sqrt_iff (d : Float) :
    (1.0 / d.sqrt).isFinite = true ∧ 0.0 < 1.0 / d.sqrt ↔ d.isFinite = true ∧ 0.0 < d := by
  by_cases hnan : d.isNaN = true
  · have hunpack : d.toModel.unpack = .notANumber := isNaN_iff.1 hnan
    have hsqrt := not_isFinite_of_sqrt (d := d) (by rw [hunpack]; rfl)
    refine iff_of_false (by simp [hsqrt]) fun h => ?_
    rw [isNaN_of_isFinite h.1] at hnan
    cases hnan
  rw [Bool.not_eq_true] at hnan
  have hnegative (h : isNegative d = true) (h0 : magnitudeBits d ≠ 0) :
      (1.0 / d.sqrt).isFinite = false := by
    refine not_isFinite_of_sqrt ?_
    rcases unpacksAs_of_isNaN hnan with ⟨-, hu⟩ | ⟨-, hu⟩ <;> rw [hu, h]
    · obtain ⟨_, _, _, hv, -⟩ := exists_unpacked true h0
      rw [hv]
      rfl
    · rfl
  rw [zero_lt_iff_place_pos hnan, place, isFinite_iff (x := d)]
  by_cases h0 : magnitudeBits d = 0
  · have hd : d = ofSignBits (isNegative d) 0 := by
      rw [← h0, ofSignBits_isNegative (isFinite_iff.2 (h0 ▸ by decide))]
    have hsqrt : (1.0 / d.sqrt).isFinite = false := by
      rw [hd]
      cases isNegative d <;> decide
    refine iff_of_false (by simp [hsqrt]) fun h => ?_
    rw [h0, onLine_zero] at h
    exact h.2.false
  cases hneg : isNegative d with
  | true => exact iff_of_false (by simp [hnegative hneg h0]) (by simp [onLine])
  | false =>
    by_cases hfinite : magnitudeBits d < infinityBits
    · exact iff_of_true (reciprocal_sqrt_of_pos hneg h0 hfinite)
        ⟨hfinite, Int.natCast_pos.2 (Nat.pos_of_ne_zero h0)⟩
    · -- the root of infinity is infinity, and its reciprocal zero
      have hbits := (isNaN_eq_false_iff.1 hnan).antisymm (Nat.le_of_not_lt hfinite)
      have hd : d = ofSignBits false infinityBits := by
        refine eq_ofSignBits le_rfl ?_
        rw [toNat_toBits, hneg, hbits]
      refine iff_of_false (fun h => ?_) fun h => hfinite h.1
      rw [hd] at h
      exact absurd h.2 (by decide)

end Reciprocal

end SolidScene.Binary64
