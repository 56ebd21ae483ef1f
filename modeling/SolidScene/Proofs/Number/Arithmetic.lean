import SolidScene.Proofs.Number.Encoding

/-!
# Arithmetic of doubles

A finite double is its sign and the bits below it (`ofSignBits_isNegative`). Its products are
correctly rounded (`mul_eq`), and it is compared by its place among all doubles (`lt_iff`,
`beq_iff`). So halving undoes every doubling that stays finite (`mul_two_mul_half`), and a factor
without a sign turns no double negative (`lt_zero_of_mul_lt_zero`).
-/

namespace SolidScene.Binary64

open Float.Model Float.Model.UnpackedFloat

theorem float_ext {x y : Float} (h : x.toBits = y.toBits) : x = y := by
  obtain ⟨⟨a, ha⟩⟩ := x
  obtain ⟨⟨b, hb⟩⟩ := y
  cases (h : a = b)
  rfl

theorem isFinite_iff {x : Float} : x.isFinite = true ↔ magnitudeBits x < infinityBits := by
  have h1 := unpackExponent_eq_allOnes_iff x.toBits.toBitVec
  show (UnpackedFloat.unpack .binary64 x.toBits.toBitVec).isFinite = true ↔ _
  rcases Nat.lt_or_ge (magnitudeBits x) infinityBits with h | h
  · rw [unpack_of_lt h]
    refine iff_of_true ?_ h
    unfold unpacked
    split_ifs <;> rfl
  · refine iff_of_false ?_ (Nat.not_lt.2 h)
    unfold UnpackedFloat.unpack
    rw [if_pos (h1.2 h)]
    split_ifs <;> simp [UnpackedFloat.isFinite]

theorem unpack_of_isFinite {x : Float} (h : x.isFinite = true) :
    x.toModel.unpack = unpacked (isNegative x) (magnitudeBits x) :=
  unpack_of_lt (isFinite_iff.1 h)

theorem toNat_toBits (x : Float) :
    x.toBits.toNat = (if isNegative x then signBit else 0) + magnitudeBits x := by
  have h := x.toBits.toBitVec.isLt
  have h' : x.toBits.toNat < 2 ^ 64 := h
  unfold isNegative magnitudeBits signBit
  simp only [decide_eq_true_eq]
  split_ifs <;> omega

/-- A double other than zero is a whole number of steps of its binade. -/
theorem exists_unpacked (negative : Bool) {bits : ℕ} (h0 : bits ≠ 0) :
    ∃ m e hm, unpacked negative bits = .finite (signOf negative) m e hm ∧ m < 2 ^ 53 ∧
      -1074 ≤ e ∧ (2 ^ 52 ≤ m ∨ e = -1074) ∧ bits = (e + 1074).toNat * 2 ^ 52 + m := by
  unfold unpacked
  rw [dif_neg h0]
  split_ifs with hlow
  · exact ⟨bits, -1074, Nat.pos_of_ne_zero h0, rfl, by omega, by omega, .inr rfl, by omega⟩
  · exact ⟨2 ^ 52 + bits % 2 ^ 52, (bits / 2 ^ 52 : ℕ) - 1075, by omega, rfl, by omega, by omega,
      .inl (by omega), by omega⟩

theorem toNat_pack_unpacked (negative : Bool) {bits : ℕ} (h : bits < infinityBits) :
    (UnpackedFloat.pack .binary64 (unpacked negative bits) : BitVec 64).toNat
      = (if negative then signBit else 0) + bits := by
  rcases Nat.eq_zero_or_pos bits with rfl | hpos
  · simp [unpacked, UnpackedFloat.pack, packedZero, toNat_packComponents, signBits_signOf]
  · obtain ⟨m, e, hm, hu, hhigh, he, hlow, hbits⟩ := exists_unpacked negative hpos.ne'
    rw [hu, toNat_pack_finite hm he hhigh hlow, signBits_signOf, ← hbits, Nat.min_eq_left h.le]

/-! ## Doubles from a sign and bits -/

section OfSignBits

variable {negative : Bool} {bits : ℕ}

theorem toNat_toBits_ofSignBits (h : bits ≤ infinityBits) :
    (ofSignBits negative bits).toBits.toNat = (if negative then signBit else 0) + bits := by
  have hlt : (if negative then signBit + bits else bits) < 2 ^ 64 := by
    unfold infinityBits signBit at *
    split_ifs <;> omega
  have ha : (UInt64.ofNat (if negative then signBit + bits else bits)).toBitVec.toNat
      = (if negative then signBit else 0) + bits := by
    show (UInt64.ofNat _).toNat = _
    rw [UInt64.toNat_ofNat_of_lt' hlt]
    split_ifs <;> omega
  have hmod : ((if negative then signBit else 0) + bits) % signBit = bits := by
    unfold infinityBits signBit at *
    split_ifs <;> omega
  have hneg : decide (signBit ≤ (if negative then signBit else 0) + bits) = negative := by
    unfold infinityBits signBit at *
    cases negative
    · simp
      omega
    · simp
  show (UnpackedFloat.pack .binary64 (UnpackedFloat.unpack .binary64 _) : BitVec 64).toNat = _
  rcases Nat.lt_or_eq_of_le h with h | rfl
  · rw [unpack_of_lt (by rw [ha, hmod]; exact h), ha, hmod, hneg, toNat_pack_unpacked _ h]
  · rw [unpack_of_eq (by rw [ha, hmod]), ha, hneg]
    show (packComponents .binary64 (signOf negative) _ _ : BitVec 64).toNat = _
    rw [toNat_packComponents, signBits_signOf]
    simp [infinityBits]

theorem magnitudeBits_ofSignBits (h : bits ≤ infinityBits) :
    magnitudeBits (ofSignBits negative bits) = bits := by
  unfold magnitudeBits
  rw [toNat_toBits_ofSignBits h]
  unfold infinityBits signBit at *
  split_ifs <;> omega

theorem isNegative_ofSignBits (h : bits ≤ infinityBits) :
    isNegative (ofSignBits negative bits) = negative := by
  unfold isNegative
  rw [toNat_toBits_ofSignBits h]
  unfold infinityBits signBit at *
  cases negative
  · simp
    omega
  · simp

theorem isFinite_ofSignBits_iff (h : bits ≤ infinityBits) :
    (ofSignBits negative bits).isFinite = true ↔ bits < infinityBits := by
  rw [isFinite_iff, magnitudeBits_ofSignBits h]

end OfSignBits

/-- A double is its sign and the bits below it. -/
theorem eq_ofSignBits {x : Float} {negative : Bool} {bits : ℕ} (h : bits ≤ infinityBits)
    (hx : x.toBits.toNat = (if negative then signBit else 0) + bits) :
    x = ofSignBits negative bits := by
  refine float_ext (UInt64.toNat_inj.1 ?_)
  rw [hx, toNat_toBits_ofSignBits h]

theorem ofSignBits_isNegative {x : Float} (h : x.isFinite = true) :
    ofSignBits (isNegative x) (magnitudeBits x) = x :=
  (eq_ofSignBits (isFinite_iff.1 h).le (toNat_toBits x)).symm

/-! ## Multiplication -/

theorem mul_signOf (a b : Bool) : signOf a * signOf b = signOf (a ^^ b) := by
  cases a <;> cases b <;> rfl

/-- The exact product of two mantissas is long enough, or lies on the finest grid. -/
theorem mul_exponent_le {m n : ℕ} {e f : ℤ} (hm : 0 < m) (hn : 0 < n)
    (he : 2 ^ 52 ≤ m ∨ e = -1074) (hf : 2 ^ 52 ≤ n ∨ f = -1074) :
    e + f ≤ max (((m * n).log2 : ℤ) + (e + f) - 52) (-1074) := by
  have hmn : 0 < m * n := Nat.mul_pos hm hn
  have hlong (h : 2 ^ 52 ≤ m * n) : 52 ≤ (m * n).log2 := (Nat.le_log2 hmn.ne').2 h
  rcases he with he | rfl
  · have := hlong (he.trans (Nat.le_mul_of_pos_right m hn))
    omega
  rcases hf with hf | rfl
  · have := hlong (hf.trans (Nat.le_mul_of_pos_left n hm))
    omega
  · omega

theorem mul_unpacked_eq_zero {a b : Bool} {m n : ℕ} (h : m = 0 ∨ n = 0) :
    UnpackedFloat.mul .binary64 (unpacked a m) (unpacked b n) = .zero (signOf (a ^^ b)) := by
  have hzero (a : Bool) : unpacked a 0 = .zero (signOf a) := rfl
  rw [← mul_signOf]
  rcases h with rfl | rfl <;> rw [hzero] <;> unfold unpacked <;> split_ifs <;> rfl

/-- The product of finite doubles is the double nearest to the exact product. -/
theorem mul_eq {x y : Float} (hx : x.isFinite = true) (hy : y.isFinite = true) :
    x * y = ofSignBits (isNegative x ^^ isNegative y)
      (nearestBits (units x * units y) (2 ^ 1074)) := by
  refine eq_ofSignBits (nearestBits_le_infinityBits _ _) ?_
  show (UnpackedFloat.pack .binary64
    (UnpackedFloat.mul .binary64 x.toModel.unpack y.toModel.unpack) : BitVec 64).toNat = _
  rw [unpack_of_isFinite hx, unpack_of_isFinite hy, ← signBits_signOf]
  unfold units
  by_cases h0 : magnitudeBits x = 0 ∨ magnitudeBits y = 0
  · have hunits : unitsOfBits (magnitudeBits x) * unitsOfBits (magnitudeBits y)
        = unitsOfBits 0 * 2 ^ 1074 := by
      rcases h0 with h0 | h0
      · rw [h0, unitsOfBits_zero, Nat.zero_mul, Nat.zero_mul]
      · rw [h0, unitsOfBits_zero, Nat.mul_zero, Nat.zero_mul]
    rw [mul_unpacked_eq_zero h0, hunits, nearestBits_unitsOfBits 0 (Nat.two_pow_pos _)]
    simp [UnpackedFloat.pack, packedZero, toNat_packComponents]
  · obtain ⟨hx0, hy0⟩ := not_or.1 h0
    obtain ⟨m, e, hm, hu, hmhigh, he, hmlow, hmbits⟩ := exists_unpacked (isNegative x) hx0
    obtain ⟨n, f, hn, hv, hnhigh, hf, hnlow, hnbits⟩ := exists_unpacked (isNegative y) hy0
    have hexp := mul_exponent_le hm hn hmlow hnlow
    rw [hu, hv, hmbits, hnbits, unitsOfBits_binade (by omega) hmhigh.le,
      unitsOfBits_binade (by omega) hnhigh.le, ← mul_signOf]
    show (UnpackedFloat.pack .binary64
      (roundWithAccuracy .binary64 _ (m * n) (e + f) .exact) : BitVec 64).toNat = _
    rw [toNat_pack_roundWithAccuracy _ (Nat.mul_pos hm hn)
      (E := (e + 1074).toNat + (f + 1074).toNat) (k := 1074) (by omega) hexp, Nat.pow_add,
      Nat.mul_mul_mul_comm]

/-! ## Order -/

/-- The number that a sign and bits stand for on the line of all doubles. -/
def onLine (negative : Bool) (bits : ℕ) : ℤ := if negative then -(bits : ℤ) else bits

/-- The place of a double among all doubles. -/
def place (x : Float) : ℤ := onLine (isNegative x) (magnitudeBits x)

theorem compare_steps {m n : ℕ} {e f : ℤ} (he : -1074 ≤ e) (hf : -1074 ≤ f) (hm : m < 2 ^ 53)
    (hn : n < 2 ^ 53) (hm' : 2 ^ 52 ≤ m ∨ e = -1074) (hn' : 2 ^ 52 ≤ n ∨ f = -1074) :
    (compare e f).then (compare m n)
      = compare ((e + 1074).toNat * 2 ^ 52 + m) ((f + 1074).toNat * 2 ^ 52 + n) := by
  obtain ⟨a, ha⟩ : ∃ a, (e + 1074).toNat * 2 ^ 52 + m = a := ⟨_, rfl⟩
  obtain ⟨b, hb⟩ : ∃ b, (f + 1074).toNat * 2 ^ 52 + n = b := ⟨_, rfl⟩
  rw [ha, hb]
  rcases Int.lt_trichotomy e f with h | rfl | h
  · have hab : a < b := by omega
    rw [Int.compare_eq_lt.2 h, Nat.compare_eq_lt.2 hab]
    rfl
  · rw [Int.compare_eq_eq.2 rfl]
    rcases Nat.lt_trichotomy m n with h | rfl | h
    · have hab : a < b := by omega
      rw [Nat.compare_eq_lt.2 h, Nat.compare_eq_lt.2 hab]
      rfl
    · have hab : a = b := by omega
      rw [Nat.compare_eq_eq.2 rfl, Nat.compare_eq_eq.2 hab]
      rfl
    · have hab : b < a := by omega
      rw [Nat.compare_eq_gt.2 h, Nat.compare_eq_gt.2 hab]
      rfl
  · have hab : b < a := by omega
    rw [Int.compare_eq_gt.2 h, Nat.compare_eq_gt.2 hab]
    rfl

theorem compare_natCast (m n : ℕ) : compare (m : ℤ) (n : ℤ) = compare m n := by
  rcases Nat.lt_trichotomy m n with h | rfl | h
  · rw [Nat.compare_eq_lt.2 h, Int.compare_eq_lt.2 (by omega)]
  · rw [Nat.compare_eq_eq.2 rfl, Int.compare_eq_eq.2 rfl]
  · rw [Nat.compare_eq_gt.2 h, Int.compare_eq_gt.2 (by omega)]

theorem compare_unpacked (a b : Bool) (m n : ℕ) :
    (unpacked a m).compare (unpacked b n) = some (compare (onLine a m) (onLine b n)) := by
  have hlt {i j : ℤ} (h : i < j) : some Ordering.lt = some (compare i j) := by
    rw [Int.compare_eq_lt.2 h]
  have hgt {i j : ℤ} (h : j < i) : some Ordering.gt = some (compare i j) := by
    rw [Int.compare_eq_gt.2 h]
  rcases Nat.eq_zero_or_pos m with rfl | hm <;> rcases Nat.eq_zero_or_pos n with rfl | hn
  · cases a <;> cases b <;> rfl
  · obtain ⟨n', f, hn', hv, -⟩ := exists_unpacked b hn.ne'
    rw [hv]
    cases a <;> cases b
    · exact hlt (by simp [onLine]; omega)
    · exact hgt (by simp [onLine]; omega)
    · exact hlt (by simp [onLine]; omega)
    · exact hgt (by simp [onLine]; omega)
  · obtain ⟨m', e, hm', hu, -⟩ := exists_unpacked a hm.ne'
    rw [hu]
    cases a <;> cases b
    · exact hgt (by simp [onLine]; omega)
    · exact hgt (by simp [onLine]; omega)
    · exact hlt (by simp [onLine]; omega)
    · exact hlt (by simp [onLine]; omega)
  · obtain ⟨m', e, hm', hu, hmhigh, he, hmlow, hmbits⟩ := exists_unpacked a hm.ne'
    obtain ⟨n', f, hn', hv, hnhigh, hf, hnlow, hnbits⟩ := exists_unpacked b hn.ne'
    have hsteps := compare_steps he hf hmhigh hnhigh hmlow hnlow
    rw [← hmbits, ← hnbits] at hsteps
    rw [hu, hv]
    cases a <;> cases b
    · show some ((compare e f).then (compare m' n')) = some (compare (m : ℤ) n)
      rw [hsteps, compare_natCast]
    · exact hgt (by simp [onLine]; omega)
    · exact hlt (by simp [onLine]; omega)
    · show some ((compare e f).then (compare m' n')).swap = some (compare (-(m : ℤ)) (-(n : ℤ)))
      rw [hsteps, ← compare_natCast, Int.compare_swap]
      rcases Int.lt_trichotomy (n : ℤ) m with h | h | h
      · rw [Int.compare_eq_lt.2 h, Int.compare_eq_lt.2 (by omega)]
      · rw [Int.compare_eq_eq.2 h, Int.compare_eq_eq.2 (by omega)]
      · rw [Int.compare_eq_gt.2 h, Int.compare_eq_gt.2 (by omega)]

theorem compare_eq {x y : Float} (hx : x.isFinite = true) (hy : y.isFinite = true) :
    x.toModel.unpack.compare y.toModel.unpack = some (compare (place x) (place y)) := by
  rw [unpack_of_isFinite hx, unpack_of_isFinite hy, compare_unpacked]
  rfl

theorem lt_iff {x y : Float} (hx : x.isFinite = true) (hy : y.isFinite = true) :
    x < y ↔ place x < place y := by
  show decide ((x.toModel.unpack.compare y.toModel.unpack == some .lt) = true) = true ↔ _
  rw [compare_eq hx hy, decide_eq_true_eq, beq_iff_eq, Option.some.injEq, Int.compare_eq_lt]

theorem beq_iff {x y : Float} (hx : x.isFinite = true) (hy : y.isFinite = true) :
    (x == y) = true ↔ place x = place y := by
  show (x.toModel.unpack.compare y.toModel.unpack == some .eq) = true ↔ _
  rw [compare_eq hx hy, beq_iff_eq, Option.some.injEq, Int.compare_eq_eq]

theorem isNaN_of_isFinite {x : Float} (hx : x.isFinite = true) : x.isNaN = false := by
  show x.toModel.unpack.isNaN = false
  rw [unpack_of_isFinite hx]
  unfold unpacked
  split_ifs <;> rfl

theorem least_eq {x y : Float} (hx : x.isFinite = true) :
    least x y = if y < x then y else x := by
  rw [least, isNaN_of_isFinite hx, if_neg Bool.false_ne_true]

theorem isFinite_least {x y : Float} (hx : x.isFinite = true) (hy : y.isFinite = true) :
    (least x y).isFinite = true := by
  rw [least_eq hx]
  split_ifs
  · exact hy
  · exact hx

theorem isFinite_zero : (0.0 : Float).isFinite = true := by decide

theorem place_zero : place 0.0 = 0 := by decide

theorem lt_zero_iff {x : Float} (hx : x.isFinite = true) :
    x < 0.0 ↔ isNegative x = true ∧ magnitudeBits x ≠ 0 := by
  rw [lt_iff hx isFinite_zero, place_zero, place]
  cases isNegative x <;> simp [onLine, Nat.pos_iff_ne_zero]

/-- The lesser of two doubles is below zero only where one of them is. -/
theorem least_lt_zero_iff {x y : Float} (hx : x.isFinite = true) (hy : y.isFinite = true) :
    least x y < 0.0 ↔ x < 0.0 ∨ y < 0.0 := by
  rw [least_eq hx, lt_iff hx isFinite_zero, lt_iff hy isFinite_zero, place_zero]
  split_ifs with h
  · rw [lt_iff hy isFinite_zero, place_zero]
    rw [lt_iff hy hx] at h
    omega
  · rw [lt_iff hx isFinite_zero, place_zero]
    rw [lt_iff hy hx] at h
    omega

/-- A factor without a sign turns no double negative. -/
theorem lt_zero_of_mul_lt_zero {x y : Float} (hx : x.isFinite = true) (hy : y.isFinite = true)
    (hxy : (x * y).isFinite = true) (hsign : isNegative y = false) (h : x * y < 0.0) :
    x < 0.0 := by
  have hle := nearestBits_le_infinityBits (units x * units y) (2 ^ 1074)
  rw [lt_zero_iff hxy, mul_eq hx hy, isNegative_ofSignBits hle, magnitudeBits_ofSignBits hle,
    hsign, Bool.xor_false] at h
  refine (lt_zero_iff hx).2 ⟨h.1, fun h0 => h.2 ?_⟩
  rw [units, h0, unitsOfBits_zero, Nat.zero_mul, nearestBits_zero (Nat.two_pow_pos _)]

/-! ## Doubling and halving -/

theorem isFinite_two : (2.0 : Float).isFinite = true := by decide

theorem isFinite_half : (0.5 : Float).isFinite = true := by decide

theorem units_two : units 2.0 = 2 ^ 52 * 2 ^ 1023 := by
  have h : magnitudeBits 2.0 = 1023 * 2 ^ 52 + 2 ^ 52 := by decide
  rw [units, h, unitsOfBits_binade (.inl le_rfl) (by decide)]

theorem units_half : units 0.5 = 2 ^ 52 * 2 ^ 1021 := by
  have h : magnitudeBits 0.5 = 1021 * 2 ^ 52 + 2 ^ 52 := by decide
  rw [units, h, unitsOfBits_binade (.inl le_rfl) (by decide)]

-- the exponent stays a variable, so that no power of two is ever computed
theorem nearestBits_double (n j : ℕ) :
    nearestBits (n * (2 ^ 52 * 2 ^ j)) (2 ^ (j + 51)) = nearestBits (2 * n) 1 :=
  nearestBits_congr (Nat.two_pow_pos _) Nat.one_pos (by ring)

theorem nearestBits_halve (n j : ℕ) :
    nearestBits (n * (2 ^ 52 * 2 ^ j)) (2 ^ (j + 53)) = nearestBits n 2 :=
  nearestBits_congr (Nat.two_pow_pos _) Nat.two_pos (by ring)

theorem mul_two_eq {x : Float} (hx : x.isFinite = true) :
    x * 2.0 = ofSignBits (isNegative x) (nearestBits (2 * units x) 1) := by
  have hneg : isNegative 2.0 = false := by decide
  rw [mul_eq hx isFinite_two, hneg, Bool.xor_false, units_two, ← nearestBits_double _ 1023]

theorem mul_half_eq {x : Float} (hx : x.isFinite = true) :
    x * 0.5 = ofSignBits (isNegative x) (nearestBits (units x) 2) := by
  have hneg : isNegative 0.5 = false := by decide
  rw [mul_eq hx isFinite_half, hneg, Bool.xor_false, units_half, ← nearestBits_halve _ 1021]

/-- Halving undoes a doubling that stays finite. -/
theorem mul_two_mul_half {x : Float} (hx : x.isFinite = true) (h2 : (x * 2.0).isFinite = true) :
    x * 2.0 * 0.5 = x := by
  have hle := nearestBits_le_infinityBits (2 * units x) 1
  rw [mul_two_eq hx] at h2
  have hfin := (isFinite_ofSignBits_iff hle).1 h2
  -- a doubling without overflow is exact, since the double's units are twice as many
  have hunits : unitsOfBits (nearestBits (2 * units x) 1) = 2 * units x := by
    rw [units, two_mul_unitsOfBits] at hfin ⊢
    have h := nearestBits_unitsOfBits (if magnitudeBits x < 2 ^ 52 then 2 * magnitudeBits x
      else magnitudeBits x + 2 ^ 52) Nat.one_pos
    rw [Nat.mul_one] at h
    rw [h] at hfin ⊢
    rw [Nat.min_eq_left (by omega)]
  have hback := nearestBits_unitsOfBits (magnitudeBits x) Nat.one_pos
  rw [Nat.mul_one, Nat.min_eq_left (isFinite_iff.1 hx).le] at hback
  have hcancel : nearestBits (2 * units x) 2 = nearestBits (units x) 1 :=
    nearestBits_congr Nat.two_pos Nat.one_pos (by ring)
  rw [mul_two_eq hx, mul_half_eq h2, isNegative_ofSignBits hle, units,
    magnitudeBits_ofSignBits hle, hunits, hcancel, units, hback, ofSignBits_isNegative hx]

/-- Halving and doubling again stays finite. -/
theorem isFinite_mul_half {x : Float} (hx : x.isFinite = true) :
    (x * 0.5).isFinite = true ∧ (x * 0.5 * 2.0).isFinite = true := by
  have hb := isFinite_iff.1 hx
  -- a half is at most half of the greatest double, which doubles exactly
  have hhalf : nearestBits (units x) 2 ≤ infinityBits - 1 - 2 ^ 52 := by
    have hmono : unitsOfBits (magnitudeBits x) ≤ unitsOfBits (infinityBits - 1) :=
      unitsOfBits_strictMono.monotone (by omega)
    have htop : unitsOfBits (infinityBits - 1 - 2 ^ 52) * 2 = unitsOfBits (infinityBits - 1) := by
      rw [Nat.mul_comm, two_mul_unitsOfBits]
      rfl
    have h := nearestBits_unitsOfBits (infinityBits - 1 - 2 ^ 52) Nat.two_pos
    rw [htop] at h
    calc nearestBits (units x) 2 ≤ nearestBits (unitsOfBits (infinityBits - 1)) 2 :=
          nearestBits_mono Nat.two_pos Nat.two_pos (Nat.mul_le_mul_right 2 hmono)
      _ ≤ _ := h.le.trans (Nat.min_le_left _ _)
  have hle := nearestBits_le_infinityBits (units x) 2
  have hfin : (x * 0.5).isFinite = true := by
    rw [mul_half_eq hx, isFinite_ofSignBits_iff hle]
    unfold infinityBits at *
    omega
  refine ⟨hfin, ?_⟩
  rw [mul_two_eq hfin, isFinite_ofSignBits_iff (nearestBits_le_infinityBits _ _), units,
    mul_half_eq hx, magnitudeBits_ofSignBits hle, two_mul_unitsOfBits]
  have h := nearestBits_unitsOfBits (if nearestBits (units x) 2 < 2 ^ 52
    then 2 * nearestBits (units x) 2 else nearestBits (units x) 2 + 2 ^ 52) Nat.one_pos
  rw [Nat.mul_one] at h
  rw [h]
  unfold infinityBits at *
  split_ifs <;> omega

end SolidScene.Binary64
