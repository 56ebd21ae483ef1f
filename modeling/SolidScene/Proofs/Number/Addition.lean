import SolidScene.Proofs.Number.Extremes

/-!
# Addition of doubles

The sum of finite doubles is the double nearest to the exact one (`packsAt_add`), a difference is
the sum with the other sign, and an infinity absorbs every finite double. So a sum lies on the side
of its one term on which the other one lies of zero, overflow included (`exists_packsAt_add`):
adding what is not below zero lowers no double and taking it away raises none (`le_place_add`,
`place_sub_le`). Nor is a product with a finite factor other than zero a NaN (`isNaN_mul`).
-/

namespace SolidScene.Binary64

open Float.Model Float.Model.UnpackedFloat

/-- The place of the double nearest to a whole number of units. -/
def nearestPlace (n : ℤ) : ℤ := onLine (decide (n < 0)) (nearestBits n.natAbs 1)

/-! ## Rounded sums -/

theorem toNat_pack_round (s : Sign) {m : ℕ} {e : ℤ} (hm : 0 < m) (he : -1074 ≤ e) :
    (UnpackedFloat.pack .binary64 (UnpackedFloat.round .binary64 s m e) : BitVec 64).toNat
      = signBits s + nearestBits (m * 2 ^ (e + 1074).toNat) 1 := by
  obtain ⟨k, hk⟩ : ∃ k, (e - max ((m.log2 : ℤ) + e - 52) (-1074)).toNat = k := ⟨_, rfl⟩
  have hround : UnpackedFloat.round .binary64 s m e
      = roundWithAccuracy .binary64 s (m * 2 ^ k) (e - k) .exact := by
    simp only [UnpackedFloat.round, decreaseExponent, targetExponent_binary64, hk,
      Nat.shiftLeft_eq]
  have hlog : (m * 2 ^ k).log2 = m.log2 + k := by simpa using log2_mul_pow_div_pow hm k 0
  have hpow : m * 2 ^ k * 2 ^ ((e + 1074).toNat - k) = m * 2 ^ (e + 1074).toNat := by
    rw [Nat.mul_assoc, ← Nat.pow_add]
    congr 2
    omega
  rw [hround, toNat_pack_roundWithAccuracy s (by positivity) (E := (e + 1074).toNat - k) (k := 0)
    (by omega) (by rw [hlog]; omega), hpow, Nat.pow_zero]

/-- Packing gives the double at this place. -/
def PacksAt (u : UnpackedFloat) (n : ℤ) : Prop :=
  ∃ negative bits, bits ≤ infinityBits ∧ onLine negative bits = n ∧
    (UnpackedFloat.pack .binary64 u : BitVec 64).toNat = (if negative then signBit else 0) + bits

theorem packsAt_unpacked (negative : Bool) {bits : ℕ} (h : bits < infinityBits) :
    PacksAt (unpacked negative bits) (onLine negative bits) :=
  ⟨negative, bits, h.le, rfl, toNat_pack_unpacked negative h⟩

theorem onLine_zero (negative : Bool) : onLine negative 0 = 0 := by
  cases negative <;> rfl

theorem packsAt_infinity (negative : Bool) :
    PacksAt (.infinity (signOf negative)) (onLine negative infinityBits) := by
  refine ⟨negative, infinityBits, le_rfl, rfl, ?_⟩
  cases negative <;> rfl

theorem packsAt_normalize (n : ℤ) {e : ℤ} (he : -1074 ≤ e) :
    PacksAt (UnpackedFloat.normalize .binary64 n e .positive)
      (nearestPlace (n * 2 ^ (e + 1074).toNat)) := by
  have hpow : (0 : ℤ) < 2 ^ (e + 1074).toNat := by positivity
  have habs : (n * 2 ^ (e + 1074).toNat).natAbs = n.natAbs * 2 ^ (e + 1074).toNat := by
    rw [Int.natAbs_mul, Int.natAbs_pow]
    rfl
  have hsign : n * 2 ^ (e + 1074).toNat < 0 ↔ n < 0 := by
    simp [mul_neg_iff, hpow, hpow.not_gt]
  refine ⟨decide (n < 0), _, nearestBits_le_infinityBits (n.natAbs * 2 ^ (e + 1074).toNat) 1, ?_,
    ?_⟩
  · simp only [nearestPlace, habs, hsign]
  · unfold UnpackedFloat.normalize
    rcases Int.lt_trichotomy n 0 with h | rfl | h
    · rw [Int.compare_eq_lt.2 h]
      have hm : (-n).toNat = n.natAbs := by omega
      simp only [hm, toNat_pack_round _ (Int.natAbs_pos.2 h.ne) he, h, decide_true, signBits]
      rfl
    · simp [UnpackedFloat.pack, packedZero, toNat_packComponents, signBits,
        nearestBits_zero Nat.one_pos]
    · rw [Int.compare_eq_gt.2 h]
      have hm : n.toNat = n.natAbs := by omega
      simp only [hm, toNat_pack_round _ (Int.natAbs_pos.2 h.ne') he, h.not_gt, decide_false,
        signBits]
      rfl

theorem onLine_natAbs (negative : Bool) (bits : ℕ) : (onLine negative bits).natAbs = bits := by
  cases negative <;> simp [onLine]

theorem onLine_mul (negative : Bool) (bits k : ℕ) :
    onLine negative (bits * k) = onLine negative bits * k := by
  cases negative <;> simp [onLine]

theorem nearestPlace_unitsOfBits (negative : Bool) {bits : ℕ} (h : bits < infinityBits) :
    nearestPlace (onLine negative (unitsOfBits bits)) = onLine negative bits := by
  have hback := nearestBits_unitsOfBits bits Nat.one_pos
  rw [Nat.mul_one, Nat.min_eq_left h.le] at hback
  rw [nearestPlace, onLine_natAbs, hback]
  rcases Nat.eq_zero_or_pos bits with rfl | hpos
  · simp [onLine]
  · have hunits : 0 < unitsOfBits bits := unitsOfBits_zero ▸ unitsOfBits_strictMono hpos
    cases negative
    · simp [onLine]
    · simp [onLine, hunits]

/-- A mantissa brought to a lesser exponent is as many units. -/
theorem apply_shiftLeft (negative : Bool) (m : ℕ) {e g : ℤ} (hg : -1074 ≤ g) (hge : g ≤ e) :
    (signOf negative).apply ↑(m <<< (e - g).toNat) * 2 ^ (g + 1074).toNat
      = onLine negative (m * 2 ^ (e + 1074).toNat) := by
  have hpow : m <<< (e - g).toNat * 2 ^ (g + 1074).toNat = m * 2 ^ (e + 1074).toNat := by
    rw [Nat.shiftLeft_eq, Nat.mul_assoc, ← Nat.pow_add]
    congr 2
    omega
  have happly (n : ℕ) : (signOf negative).apply n = onLine negative n := by
    cases negative <;> rfl
  have hcast : (2 : ℤ) ^ (g + 1074).toNat = ((2 ^ (g + 1074).toNat : ℕ) : ℤ) := by push_cast; rfl
  rw [happly, hcast, ← onLine_mul, hpow]

/-- The sum of finite doubles packs to the double nearest to the exact sum. -/
theorem packsAt_add (a b : Bool) {m n : ℕ} (hm : m < infinityBits) (hn : n < infinityBits) :
    PacksAt (UnpackedFloat.add .binary64 (unpacked a m) (unpacked b n))
      (nearestPlace (onLine a (unitsOfBits m) + onLine b (unitsOfBits n))) := by
  rcases Nat.eq_zero_or_pos m with rfl | hm0
  · rw [unitsOfBits_zero, onLine_zero, zero_add, nearestPlace_unitsOfBits b hn]
    rcases Nat.eq_zero_or_pos n with rfl | hn0
    · rw [onLine_zero, ← onLine_zero (a && b)]
      cases a <;> cases b <;> exact packsAt_unpacked _ hn
    · obtain ⟨_, _, _, hv, -⟩ := exists_unpacked b hn0.ne'
      have hadd : UnpackedFloat.add .binary64 (unpacked a 0) (unpacked b n) = unpacked b n := by
        rw [hv]
        rfl
      rw [hadd]
      exact packsAt_unpacked b hn
  · obtain ⟨m', e, hm', hu, hmhigh, he, hmlow, rfl⟩ := exists_unpacked a hm0.ne'
    rcases Nat.eq_zero_or_pos n with rfl | hn0
    · have hadd : UnpackedFloat.add .binary64 (unpacked a ((e + 1074).toNat * 2 ^ 52 + m'))
          (unpacked b 0) = unpacked a ((e + 1074).toNat * 2 ^ 52 + m') := by
        rw [hu]
        rfl
      rw [unitsOfBits_zero, onLine_zero, add_zero, nearestPlace_unitsOfBits a hm, hadd]
      exact packsAt_unpacked a hm
    · obtain ⟨n', f, hn', hv, hnhigh, hf, hnlow, rfl⟩ := exists_unpacked b hn0.ne'
      have hsum := packsAt_normalize ((signOf a).apply ↑(m' <<< (e - min e f).toNat) +
        (signOf b).apply ↑(n' <<< (f - min e f).toNat)) (le_min he hf)
      rw [add_mul, apply_shiftLeft a m' (le_min he hf) (min_le_left e f),
        apply_shiftLeft b n' (le_min he hf) (min_le_right e f)] at hsum
      rw [hu, hv, unitsOfBits_binade (by omega) hmhigh.le, unitsOfBits_binade (by omega) hnhigh.le]
      exact hsum

theorem neg_unpacked (negative : Bool) (bits : ℕ) :
    (unpacked negative bits).neg = unpacked (!negative) bits := by
  unfold unpacked
  cases negative <;> split_ifs <;> rfl

theorem sub_eq_add_neg (u v : UnpackedFloat) :
    UnpackedFloat.sub .binary64 u v = UnpackedFloat.add .binary64 u v.neg := by
  have happly (s : Sign) (n : ℤ) : (-s).apply n = -s.apply n := by
    cases s
    · exact (Int.neg_neg n).symm
    · rfl
  cases u <;> cases v <;>
    simp only [UnpackedFloat.sub, UnpackedFloat.add, UnpackedFloat.neg, happly,
      Int.sub_eq_add_neg]

theorem packsAt_infinity_add (a b : Bool) (n : ℕ) :
    PacksAt (UnpackedFloat.add .binary64 (.infinity (signOf a)) (unpacked b n))
      (onLine a infinityBits) := by
  have hadd : UnpackedFloat.add .binary64 (.infinity (signOf a)) (unpacked b n)
      = .infinity (signOf a) := by
    unfold unpacked
    split_ifs <;> rfl
  rw [hadd]
  exact packsAt_infinity a

theorem packsAt_add_infinity (a b : Bool) (m : ℕ) :
    PacksAt (UnpackedFloat.add .binary64 (unpacked a m) (.infinity (signOf b)))
      (onLine b infinityBits) := by
  have hadd : UnpackedFloat.add .binary64 (unpacked a m) (.infinity (signOf b))
      = .infinity (signOf b) := by
    unfold unpacked
    split_ifs <;> rfl
  rw [hadd]
  exact packsAt_infinity b

/-! ## Sums with one sign -/

theorem onLine_not (negative : Bool) (bits : ℕ) :
    onLine (!negative) bits = -onLine negative bits := by
  cases negative <;> simp [onLine]

theorem nearestPlace_mono {m n : ℤ} (h : m ≤ n) : nearestPlace m ≤ nearestPlace n := by
  have hbits {i j : ℕ} (h : i ≤ j) : nearestBits i 1 ≤ nearestBits j 1 :=
    nearestBits_mono Nat.one_pos Nat.one_pos (Nat.mul_le_mul_right 1 h)
  unfold nearestPlace onLine
  rcases lt_or_ge m 0 with hm | hm <;> rcases lt_or_ge n 0 with hn | hn
  · have hle := hbits (i := n.natAbs) (j := m.natAbs) (by omega)
    simpa [hm, hn] using hle
  · simp [hm, hn.not_gt]
  · omega
  · have hle := hbits (i := m.natAbs) (j := n.natAbs) (by omega)
    simpa [hm.not_gt, hn.not_gt] using hle

theorem onLine_unitsOfBits_nonneg {negative : Bool} {bits : ℕ} (h : 0 ≤ onLine negative bits) :
    0 ≤ onLine negative (unitsOfBits bits) := by
  cases negative with
  | false => simp [onLine]
  | true =>
    obtain rfl : bits = 0 := by simpa [onLine] using h
    rw [unitsOfBits_zero, onLine_zero]

/-- What is no NaN, unpacked: finite or an infinity. -/
def UnpacksAs (u : UnpackedFloat) (negative : Bool) (bits : ℕ) : Prop :=
  bits < infinityBits ∧ u = unpacked negative bits ∨
    bits = infinityBits ∧ u = .infinity (signOf negative)

theorem UnpacksAs.neg {u : UnpackedFloat} {negative : Bool} {bits : ℕ}
    (h : UnpacksAs u negative bits) : UnpacksAs u.neg (!negative) bits := by
  rcases h with ⟨hbits, rfl⟩ | ⟨hbits, rfl⟩
  · exact .inl ⟨hbits, neg_unpacked negative bits⟩
  · refine .inr ⟨hbits, ?_⟩
    cases negative <;> rfl

/-- A sum lies on the side of its one term on which the other one lies of zero. -/
theorem exists_packsAt_add {u v : UnpackedFloat} {a b : Bool} {m n : ℕ} (hu : UnpacksAs u a m)
    (hv : UnpacksAs v b n) (hfinite : m < infinityBits ∨ n < infinityBits) :
    ∃ k, PacksAt (UnpackedFloat.add .binary64 u v) k ∧
      (0 ≤ onLine b n → onLine a m ≤ k) ∧ (onLine b n ≤ 0 → k ≤ onLine a m) := by
  rcases hu with ⟨hm, rfl⟩ | ⟨rfl, rfl⟩ <;> rcases hv with ⟨hn, rfl⟩ | ⟨rfl, rfl⟩
  · refine ⟨_, packsAt_add a b hm hn, fun h0 => ?_, fun h0 => ?_⟩ <;>
      rw [← nearestPlace_unitsOfBits a hm]
    · exact nearestPlace_mono (le_add_of_nonneg_right (onLine_unitsOfBits_nonneg h0))
    · rw [← neg_nonneg, ← onLine_not] at h0
      have hunits := onLine_unitsOfBits_nonneg h0
      rw [onLine_not, neg_nonneg] at hunits
      exact nearestPlace_mono (add_le_of_nonpos_right hunits)
  · -- an infinity lies beyond every other double on its side
    obtain ⟨hlow, hhigh⟩ := abs_le.1 ((abs_onLine a m).trans_le (Int.ofNat_le.2 hm.le))
    refine ⟨_, packsAt_add_infinity a b m, fun h0 => ?_, fun h0 => ?_⟩ <;> cases b
    · exact hhigh
    · exact absurd h0 (by decide)
    · exact absurd h0 (by decide)
    · exact hlow
  · exact ⟨_, packsAt_infinity_add a b n, fun _ => le_rfl, fun _ => le_rfl⟩
  · exact absurd hfinite (by simp)

/-! ## Sums and differences of doubles -/

variable {x y : Float} {n : ℤ}

theorem magnitudeBits_of_infinite (hx : x.isNaN = false) (hfinite : ¬ x.isFinite = true) :
    magnitudeBits x = infinityBits :=
  (isNaN_eq_false_iff.1 hx).antisymm (Nat.le_of_not_lt (isFinite_iff.not.1 hfinite))

theorem unpacksAs_of_isNaN (hx : x.isNaN = false) :
    UnpacksAs x.toModel.unpack (isNegative x) (magnitudeBits x) := by
  by_cases hfinite : x.isFinite = true
  · exact .inl ⟨isFinite_iff.1 hfinite, unpack_of_isFinite hfinite⟩
  · have hbits := magnitudeBits_of_infinite hx hfinite
    exact .inr ⟨hbits, unpack_of_magnitudeBits_eq hbits⟩

theorem PacksAt.place_eq {u : UnpackedFloat} (h : PacksAt u n)
    (hx : x.toBits.toNat = (UnpackedFloat.pack .binary64 u : BitVec 64).toNat) :
    x.isNaN = false ∧ place x = n := by
  obtain ⟨negative, bits, hbits, rfl, hpack⟩ := h
  obtain rfl := eq_ofSignBits hbits (hx.trans hpack)
  rw [isNaN_eq_false_iff, place, magnitudeBits_ofSignBits hbits, isNegative_ofSignBits hbits]
  exact ⟨hbits, rfl⟩

/-- Adding what is not below zero lowers no double. -/
theorem le_place_add (hx : x.isNaN = false) (hy : y.isNaN = false) (h0 : 0 ≤ place y)
    (hfinite : x.isFinite = true ∨ y.isFinite = true) :
    (x + y).isNaN = false ∧ place x ≤ place (x + y) := by
  rw [isFinite_iff, isFinite_iff] at hfinite
  obtain ⟨n, hpacks, hle, -⟩ :=
    exists_packsAt_add (unpacksAs_of_isNaN hx) (unpacksAs_of_isNaN hy) hfinite
  obtain ⟨hnan, rfl⟩ := hpacks.place_eq (x := x + y) rfl
  exact ⟨hnan, hle h0⟩

/-- Taking away what is not below zero raises no double. -/
theorem place_sub_le (hx : x.isNaN = false) (hy : y.isNaN = false) (h0 : 0 ≤ place y)
    (hfinite : x.isFinite = true ∨ y.isFinite = true) :
    (x - y).isNaN = false ∧ place (x - y) ≤ place x := by
  rw [isFinite_iff, isFinite_iff] at hfinite
  obtain ⟨n, hpacks, -, hle⟩ :=
    exists_packsAt_add (unpacksAs_of_isNaN hx) (unpacksAs_of_isNaN hy).neg hfinite
  rw [← sub_eq_add_neg] at hpacks
  obtain ⟨hnan, rfl⟩ := hpacks.place_eq (x := x - y) rfl
  refine ⟨hnan, hle ?_⟩
  rw [onLine_not]
  exact neg_nonpos.2 h0

/-! ## Products with a finite factor -/

/-- A product with a finite factor other than zero is a NaN only where the other one is. -/
theorem isNaN_mul (hx : x.isNaN = false) (hy : y.isFinite = true) (h0 : magnitudeBits y ≠ 0) :
    (x * y).isNaN = false := by
  by_cases hxf : x.isFinite = true
  · have hle := nearestBits_le_infinityBits (units x * units y) (2 ^ 1074)
    rw [mul_eq hxf hy, isNaN_eq_false_iff, magnitudeBits_ofSignBits hle]
    exact hle
  · have hmul : UnpackedFloat.mul .binary64 x.toModel.unpack y.toModel.unpack
        = .infinity (signOf (isNegative x ^^ isNegative y)) := by
      obtain ⟨_, _, _, hv, -⟩ := exists_unpacked (isNegative y) h0
      rw [unpack_of_magnitudeBits_eq (magnitudeBits_of_infinite hx hxf), unpack_of_isFinite hy, hv,
        ← mul_signOf]
      rfl
    have hpacks := packsAt_infinity (isNegative x ^^ isNegative y)
    rw [← hmul] at hpacks
    exact (hpacks.place_eq (x := x * y) rfl).1

end SolidScene.Binary64
