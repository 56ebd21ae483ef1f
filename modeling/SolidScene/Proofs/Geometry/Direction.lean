import SolidScene.Geometry.Vector
import SolidScene.Proofs.Number.Roots

/-!
# Vectors of doubles with a direction

A vector of doubles has a direction exactly where the square of its length neither overflows nor
vanishes (`hasDirection_iff`). The square of a coordinate vanishes where it is no more than half of
the least double (`place_mul_self_pos_iff`), so it takes coordinates between `2 ^ -537` and
`2 ^ 511` to be sure that a vector other than zero has a direction (`measured_iff`).
-/

namespace SolidScene

namespace Binary64

open Float.Model Float.Model.UnpackedFloat

variable {x y : Float}

/-! ## Finite sums and products -/

theorem isFinite_unpack_pack {u : UnpackedFloat} (h : u.isFinite = false) :
    (UnpackedFloat.unpack .binary64 (UnpackedFloat.pack .binary64 u)).isFinite = false := by
  cases u with
  | infinity s => cases s <;> decide
  | notANumber => decide
  | zero | finite => cases h

theorem isFinite_of_mul (h : (x * y).isFinite = true) : x.isFinite = true ∧ y.isFinite = true := by
  have hmul (u v : UnpackedFloat) (huv : u.isFinite = false ∨ v.isFinite = false) :
      (UnpackedFloat.mul .binary64 u v).isFinite = false := by
    cases u <;> cases v <;> first | rfl | simp [UnpackedFloat.isFinite] at huv
  by_contra hxy
  rw [not_and_or, Bool.not_eq_true, Bool.not_eq_true] at hxy
  have hpack : (x * y).isFinite = false := isFinite_unpack_pack (hmul _ _ hxy)
  rw [hpack] at h
  cases h

theorem isFinite_of_add (h : (x + y).isFinite = true) : x.isFinite = true ∧ y.isFinite = true := by
  have hadd (u v : UnpackedFloat) (huv : u.isFinite = false ∨ v.isFinite = false) :
      (UnpackedFloat.add .binary64 u v).isFinite = false := by
    cases u <;> cases v <;> first | rfl | simp [UnpackedFloat.isFinite] at huv
    rw [UnpackedFloat.add]
    split_ifs <;> rfl
  by_contra hxy
  rw [not_and_or, Bool.not_eq_true, Bool.not_eq_true] at hxy
  have hpack : (x + y).isFinite = false := isFinite_unpack_pack (hadd _ _ hxy)
  rw [hpack] at h
  cases h

/-! ## Squares -/

theorem place_mul_self (hx : x.isFinite = true) :
    place (x * x) = nearestBits (units x * units x) (2 ^ 1074) := by
  have hle := nearestBits_le_infinityBits (units x * units x) (2 ^ 1074)
  rw [mul_eq hx hx, place, isNegative_ofSignBits hle, magnitudeBits_ofSignBits hle, Bool.xor_self]
  rfl

theorem place_mul_self_nonneg (hx : x.isFinite = true) : 0 ≤ place (x * x) := by
  rw [place_mul_self hx]
  exact Int.natCast_nonneg _

-- the exponents stay variables, so that no power of two is ever computed
theorem nearestBits_pos_iff (n : ℕ) {j k : ℕ} (hk : k = j + 1) :
    0 < nearestBits n (2 ^ k) ↔ 2 ^ j < n := by
  subst hk
  have hleast : unitsOfBits 0 + unitsOfBits (0 + 1) = 1 := by decide
  have hinfinity : 0 < infinityBits := by decide
  rw [lt_nearestBits_iff (Nat.two_pow_pos _), hleast, Nat.one_mul, Nat.pow_succ]
  omega

/-- A square vanishes where it is no more than half of the least double. -/
theorem place_mul_self_pos_iff (hx : x.isFinite = true) :
    0 < place (x * x) ↔ 2 ^ 1073 < units x * units x := by
  rw [place_mul_self hx, Int.natCast_pos, nearestBits_pos_iff _ rfl]

/-! ## Sums of what is not below zero -/

/-- The units in a finite double, with its sign. -/
def signedUnits (x : Float) : ℤ := onLine (isNegative x) (units x)

theorem place_add (hx : x.isFinite = true) (hy : y.isFinite = true) :
    (x + y).isNaN = false ∧ place (x + y) = nearestPlace (signedUnits x + signedUnits y) := by
  have h := packsAt_add (isNegative x) (isNegative y) (isFinite_iff.1 hx) (isFinite_iff.1 hy)
  rw [← unpack_of_isFinite hx, ← unpack_of_isFinite hy] at h
  exact h.place_eq rfl

theorem nearestPlace_signedUnits (hx : x.isFinite = true) :
    nearestPlace (signedUnits x) = place x :=
  nearestPlace_unitsOfBits _ (isFinite_iff.1 hx)

theorem signedUnits_of_place (h : place x = 0) : signedUnits x = 0 := by
  have hbits : magnitudeBits x = 0 := by
    have := onLine_natAbs (isNegative x) (magnitudeBits x)
    rw [← place, h] at this
    exact this.symm
  rw [signedUnits, units, hbits, unitsOfBits_zero, onLine_zero]

/-- A sum of two doubles that are not below zero is above zero where one of them is. -/
theorem place_add_pos_iff (hx : x.isFinite = true) (hy : y.isFinite = true) (hx0 : 0 ≤ place x)
    (hy0 : 0 ≤ place y) :
    0 ≤ place (x + y) ∧ (0 < place (x + y) ↔ 0 < place x ∨ 0 < place y) := by
  have hsum := (place_add hx hy).2
  have hxu : 0 ≤ signedUnits x := onLine_unitsOfBits_nonneg hx0
  have hyu : 0 ≤ signedUnits y := onLine_unitsOfBits_nonneg hy0
  have hxle : place x ≤ place (x + y) := by
    rw [hsum, ← nearestPlace_signedUnits hx]
    exact nearestPlace_mono (by omega)
  have hyle : place y ≤ place (x + y) := by
    rw [hsum, ← nearestPlace_signedUnits hy]
    exact nearestPlace_mono (by omega)
  refine ⟨hx0.trans hxle, ⟨fun h => ?_, fun h => by omega⟩⟩
  by_contra hneither
  have hzero : nearestPlace 0 = 0 := by decide
  rw [hsum, signedUnits_of_place (x := x) (by omega), signedUnits_of_place (x := y) (by omega),
    add_zero, hzero] at h
  exact h.false

/-! ## Sums that stay finite -/

theorem isFinite_of_place (h0 : 0 ≤ place x) (h : place x < infinityBits) : x.isFinite = true := by
  have hbits := onLine_natAbs (isNegative x) (magnitudeBits x)
  rw [← place] at hbits
  rw [isFinite_iff]
  omega

theorem signedUnits_le {bits : ℕ} (h : place x ≤ bits) : signedUnits x ≤ unitsOfBits bits := by
  unfold signedUnits place onLine at *
  split_ifs at * with hneg
  · omega
  · exact Int.ofNat_le.2 (unitsOfBits_strictMono.monotone (Int.ofNat_le.1 h))

/-- A sum of no more units than those of a finite double. -/
theorem place_add_le (hx : x.isFinite = true) (hy : y.isFinite = true) {bits : ℕ}
    (h : signedUnits x + signedUnits y ≤ unitsOfBits bits) (hbits : bits < infinityBits) :
    place (x + y) ≤ bits := by
  have hback := nearestPlace_unitsOfBits false hbits
  rw [(place_add hx hy).2]
  exact (nearestPlace_mono h).trans_eq hback

theorem unitsOfBits_start (d : ℕ) : unitsOfBits ((d + 1) * 2 ^ 52) = 2 ^ 52 * 2 ^ d := by
  rw [Nat.add_mul, Nat.one_mul]
  exact unitsOfBits_binade (.inl le_rfl) (by decide)

-- the exponents stay variables here as well
theorem nearestBits_mul_self_le {n a d j k : ℕ} (h : n ≤ 2 ^ a) (hk : a + a = 52 + d + k)
    (hj : j = (d + 1) * 2 ^ 52) : nearestBits (n * n) (2 ^ k) ≤ j := by
  have hsquare : n * n ≤ unitsOfBits j * 2 ^ k := by
    rw [hj, unitsOfBits_start, ← Nat.pow_add, ← Nat.pow_add, ← hk, Nat.pow_add]
    exact Nat.mul_le_mul h h
  have hpos : 0 < 2 ^ k := Nat.two_pow_pos k
  calc nearestBits (n * n) (2 ^ k)
      ≤ nearestBits (unitsOfBits j * 2 ^ k) (2 ^ k) :=
        nearestBits_mono hpos hpos (Nat.mul_le_mul_right _ hsquare)
    _ = min j infinityBits := nearestBits_unitsOfBits j hpos
    _ ≤ j := Nat.min_le_left _ _

/-- The square of a double that is no larger than `2 ^ 511`. -/
theorem place_mul_self_le (hx : x.isFinite = true) (h : units x ≤ 2 ^ 1585) :
    place (x * x) ≤ (2045 * 2 ^ 52 : ℕ) := by
  rw [place_mul_self hx]
  exact Int.ofNat_le.2 (nearestBits_mul_self_le h rfl rfl)

/-- The units at the start of two binades and half way through the second. -/
theorem unitsOfBits_starts {d i j : ℕ} (hi : i = (d + 1) * 2 ^ 52) (hj : j = (d + 2) * 2 ^ 52) :
    2 * unitsOfBits i = unitsOfBits j ∧
      unitsOfBits j + unitsOfBits i = unitsOfBits (j + 2 ^ 51) := by
  subst hi hj
  have hmiddle : unitsOfBits ((d + 2) * 2 ^ 52 + 2 ^ 51) = (2 ^ 52 + 2 ^ 51) * 2 ^ (d + 1) := by
    have hbits : (d + 2) * 2 ^ 52 + 2 ^ 51 = (d + 1) * 2 ^ 52 + (2 ^ 52 + 2 ^ 51) := by ring
    rw [hbits]
    exact unitsOfBits_binade (.inl (by decide)) (by decide)
  rw [hmiddle, unitsOfBits_start d, unitsOfBits_start (d + 1), Nat.pow_succ]
  constructor <;> ring

theorem two_pow_lt_mul_self {n a j : ℕ} (h : 2 ^ a ≤ n) (hj : j < a + a) : 2 ^ j < n * n :=
  calc 2 ^ j < 2 ^ (a + a) := Nat.pow_lt_pow_right (by decide) hj
    _ = 2 ^ a * 2 ^ a := Nat.pow_add ..
    _ ≤ n * n := Nat.mul_le_mul h h

theorem units_ne_zero_iff (hx : x.isFinite = true) : units x ≠ 0 ↔ (x == 0.0) = false := by
  have hplace : place x = 0 ↔ magnitudeBits x = 0 := by
    rw [place, ← Int.natAbs_eq_zero, onLine_natAbs]
  rw [← Bool.not_eq_true, beq_iff hx isFinite_zero, place_zero, hplace, units, Ne,
    unitsOfBits_strictMono.injective.eq_iff' unitsOfBits_zero]

end Binary64

namespace Vec3

open Binary64

variable {v : Vec3 Float}

/-- The square of the vector's length, as it is computed, neither overflows nor vanishes: some
coordinate's square is more than half of the least double. -/
structure Measured (v : Vec3 Float) : Prop where
  finite : (v.dot v).isFinite = true
  lasting : ∃ c ∈ v.toList, 2 ^ 1073 < units c * units c

theorem isFinite_of_dot (h : (v.dot v).isFinite = true) : ∀ c ∈ v.toList, c.isFinite = true := by
  obtain ⟨hxy, hz⟩ := isFinite_of_add h
  obtain ⟨hx, hy⟩ := isFinite_of_add hxy
  simp only [toList, List.forall_mem_cons]
  exact ⟨(isFinite_of_mul hx).1, (isFinite_of_mul hy).1, (isFinite_of_mul hz).1, by simp⟩

/-- The square of a length is above zero where the square of a coordinate is. -/
theorem dot_self_pos_iff (h : (v.dot v).isFinite = true) :
    0.0 < v.dot v ↔ ∃ c ∈ v.toList, 2 ^ 1073 < units c * units c := by
  obtain ⟨hxy, hz⟩ := isFinite_of_add h
  obtain ⟨hx, hy⟩ := isFinite_of_add hxy
  have hfinite := isFinite_of_dot h
  simp only [toList, List.forall_mem_cons] at hfinite
  obtain ⟨hvx, hvy, hvz, -⟩ := hfinite
  have hfirst := place_add_pos_iff hx hy (place_mul_self_nonneg hvx) (place_mul_self_nonneg hvy)
  have hall := place_add_pos_iff hxy hz hfirst.1 (place_mul_self_nonneg hvz)
  rw [zero_lt_iff_place_pos (isNaN_of_isFinite h)]
  refine hall.2.trans ?_
  rw [hfirst.2, place_mul_self_pos_iff hvx, place_mul_self_pos_iff hvy, place_mul_self_pos_iff hvz]
  simp only [toList, List.mem_cons, exists_eq_or_imp, List.not_mem_nil, or_false, exists_eq_left,
    or_assoc]

/-- A vector has a direction where the square of its length neither overflows nor vanishes. -/
theorem hasDirection_iff (v : Vec3 Float) : v.hasDirection = true ↔ v.Measured := by
  have hfactor : v.hasDirection = true ↔
      (1.0 / (v.dot v).sqrt).isFinite = true ∧ 0.0 < 1.0 / (v.dot v).sqrt := by
    unfold hasDirection
    rw [Bool.and_eq_true]
    exact and_congr_right fun _ => decide_eq_true_iff
  rw [hfactor, reciprocal_sqrt_iff]
  constructor
  · rintro ⟨hfinite, hpos⟩
    exact ⟨hfinite, (dot_self_pos_iff hfinite).1 hpos⟩
  · rintro ⟨hfinite, hlasting⟩
    exact ⟨hfinite, (dot_self_pos_iff hfinite).2 hlasting⟩

/-! ## Moderate coordinates -/

theorem Measured.sound (h : v.Measured) :
    (∀ c ∈ v.toList, c.isFinite = true) ∧ ∃ c ∈ v.toList, (c == 0.0) = false := by
  have hfinite := isFinite_of_dot h.finite
  obtain ⟨c, hc, hlasting⟩ := h.lasting
  refine ⟨hfinite, c, hc, (units_ne_zero_iff (hfinite c hc)).1 fun hzero => ?_⟩
  rw [hzero] at hlasting
  exact absurd hlasting (Nat.not_lt_zero _)

/-- The square of a vector's length is finite where no coordinate is larger than `2 ^ 511`. -/
theorem isFinite_dot (h : ∀ c ∈ v.toList, c.isFinite = true ∧ units c ≤ 2 ^ 1585) :
    (v.dot v).isFinite = true := by
  simp only [toList, List.forall_mem_cons] at h
  obtain ⟨⟨hx, hxle⟩, ⟨hy, hyle⟩, ⟨hz, hzle⟩, -⟩ := h
  have hsquare {c : Float} (hc : c.isFinite = true) (hle : units c ≤ 2 ^ 1585) :
      (c * c).isFinite = true ∧ 0 ≤ place (c * c) ∧
        signedUnits (c * c) ≤ unitsOfBits (2045 * 2 ^ 52) := by
    have hplace := place_mul_self_le hc hle
    have hnonneg := place_mul_self_nonneg hc
    exact ⟨isFinite_of_place hnonneg (hplace.trans_lt (by decide)), hnonneg, signedUnits_le hplace⟩
  obtain ⟨hx, hx0, hxle⟩ := hsquare hx hxle
  obtain ⟨hy, hy0, hyle⟩ := hsquare hy hyle
  obtain ⟨hz, hz0, hzle⟩ := hsquare hz hzle
  obtain ⟨htwo, hthree⟩ := unitsOfBits_starts (d := 2044) (i := 2045 * 2 ^ 52)
    (j := 2046 * 2 ^ 52) rfl rfl
  have hxyunits : signedUnits (v.x * v.x) + signedUnits (v.y * v.y)
      ≤ unitsOfBits (2046 * 2 ^ 52) := by omega
  have hxyle := place_add_le hx hy hxyunits (by decide)
  have hxy0 := (place_add_pos_iff hx hy hx0 hy0).1
  have hxy := isFinite_of_place hxy0 (hxyle.trans_lt (by decide))
  have hunits : signedUnits (v.x * v.x + v.y * v.y) + signedUnits (v.z * v.z)
      ≤ unitsOfBits (2046 * 2 ^ 52 + 2 ^ 51) := by
    have hle := signedUnits_le hxyle
    omega
  have hle := place_add_le hxy hz hunits (by decide)
  exact isFinite_of_place (place_add_pos_iff hxy hz hxy0 hz0).1 (hle.trans_lt (by decide))

/-- A finite double that is zero or between `2 ^ -537` and `2 ^ 511`, its sign left out. -/
structure Moderate (c : Float) : Prop where
  finite : c.isFinite = true
  small : units c = 0 ∨ 2 ^ 537 ≤ units c
  large : units c ≤ 2 ^ 1585

/-- Where no coordinate is very small or large, the square of the length vanishes for no other
vector than zero, and overflows for none. -/
theorem measured_iff (h : ∀ c ∈ v.toList, Moderate c) :
    v.Measured ↔ ∃ c ∈ v.toList, (c == 0.0) = false := by
  constructor
  · exact fun hmeasured => hmeasured.sound.2
  · rintro ⟨c, hc, hzero⟩
    have hunits := (units_ne_zero_iff (h c hc).finite).2 hzero
    have hsmall := (h c hc).small.resolve_left hunits
    exact ⟨isFinite_dot fun c hc => ⟨(h c hc).finite, (h c hc).large⟩, c, hc,
      two_pow_lt_mul_self hsmall (by decide)⟩

end Vec3

end SolidScene
