import Mathlib.Order.WithBot
import SolidScene.Proofs.Number.Arithmetic

/-!
# The least and the greatest of doubles

Doubles other than NaN are compared by their places, infinities among them (`compare_places`). With
a NaN above all places, the least of two doubles is the one of the lower rank (`rank_least`), and
with the places turned round so is the greatest (`rank_greatest`). Doubles of one rank are the same
number (`same_of_rank_eq`).
-/

namespace SolidScene.Binary64

open Float.Model Float.Model.UnpackedFloat

/-! ## Infinities -/

theorem unpack_of_magnitudeBits_eq {x : Float} (h : magnitudeBits x = infinityBits) :
    x.toModel.unpack = .infinity (signOf (isNegative x)) :=
  unpack_of_eq h

theorem isNaN_eq_false_iff {x : Float} : x.isNaN = false ↔ magnitudeBits x ≤ infinityBits := by
  rcases Nat.lt_trichotomy (magnitudeBits x) infinityBits with h | h | h
  · exact iff_of_true (isNaN_of_isFinite (isFinite_iff.2 h)) h.le
  · refine iff_of_true ?_ h.le
    show x.toModel.unpack.isNaN = false
    rw [unpack_of_magnitudeBits_eq h]
    rfl
  · refine iff_of_false ?_ (Nat.not_le.2 h)
    have hmantissa : @unpackMantissa .binary64 x.toBits.toBitVec ≠ 0#52 := by
      have hm := toNat_unpackMantissa x.toBits.toBitVec
      have heq : x.toBits.toBitVec.toNat = x.toBits.toNat := rfl
      rw [← BitVec.toNat_inj.ne, hm]
      unfold magnitudeBits at h
      simp only [signBit, infinityBits, BitVec.toNat_ofNat] at *
      omega
    show ¬ (UnpackedFloat.unpack .binary64 x.toBits.toBitVec).isNaN = false
    unfold UnpackedFloat.unpack
    rw [if_pos ((unpackExponent_eq_allOnes_iff _).2 h.le), if_neg hmantissa]
    exact Bool.true_eq_false_eq_False

theorem abs_onLine (negative : Bool) (bits : ℕ) : |onLine negative bits| = bits := by
  cases negative <;> simp [onLine]

/-- An infinity lies beyond every finite double on its side. -/
theorem compare_infinity_left (a b : Bool) {n : ℕ} (h : n < infinityBits) :
    (UnpackedFloat.infinity (signOf a)).compare (unpacked b n)
      = some (compare (onLine a infinityBits) (onLine b n)) := by
  have hn := abs_lt.1 ((abs_onLine b n).trans_lt (Int.ofNat_lt.2 h))
  cases a with
  | false =>
    rw [Int.compare_eq_gt.2 (by simpa [onLine] using hn.2)]
    unfold unpacked
    split_ifs <;> rfl
  | true =>
    rw [Int.compare_eq_lt.2 (by simpa [onLine] using hn.1)]
    unfold unpacked
    split_ifs <;> rfl

theorem compare_infinity_right (a b : Bool) {n : ℕ} (h : n < infinityBits) :
    (unpacked b n).compare (.infinity (signOf a))
      = some (compare (onLine b n) (onLine a infinityBits)) := by
  have hn := abs_lt.1 ((abs_onLine b n).trans_lt (Int.ofNat_lt.2 h))
  cases a with
  | false =>
    rw [Int.compare_eq_lt.2 (by simpa [onLine] using hn.2)]
    unfold unpacked
    split_ifs <;> rfl
  | true =>
    rw [Int.compare_eq_gt.2 (by simpa [onLine] using hn.1)]
    unfold unpacked
    split_ifs <;> rfl

theorem compare_infinities (a b : Bool) :
    (UnpackedFloat.infinity (signOf a)).compare (.infinity (signOf b))
      = some (compare (onLine a infinityBits) (onLine b infinityBits)) := by
  cases a <;> cases b <;> rfl

theorem compare_places {x y : Float} (hx : x.isNaN = false) (hy : y.isNaN = false) :
    x.toModel.unpack.compare y.toModel.unpack = some (compare (place x) (place y)) := by
  rcases (isNaN_eq_false_iff.1 hx).lt_or_eq with hx | hx <;>
    rcases (isNaN_eq_false_iff.1 hy).lt_or_eq with hy | hy
  · exact compare_eq (isFinite_iff.2 hx) (isFinite_iff.2 hy)
  · rw [unpack_of_isFinite (isFinite_iff.2 hx), unpack_of_magnitudeBits_eq hy,
      compare_infinity_right _ _ hx, place, place, hy]
  · rw [unpack_of_isFinite (isFinite_iff.2 hy), unpack_of_magnitudeBits_eq hx,
      compare_infinity_left _ _ hy, place, place, hx]
  · rw [unpack_of_magnitudeBits_eq hx, unpack_of_magnitudeBits_eq hy, compare_infinities, place,
      place, hx, hy]

theorem lt_iff_place_lt {x y : Float} (hx : x.isNaN = false) (hy : y.isNaN = false) :
    x < y ↔ place x < place y := by
  show decide ((x.toModel.unpack.compare y.toModel.unpack == some .lt) = true) = true ↔ _
  rw [compare_places hx hy, decide_eq_true_eq, beq_iff_eq, Option.some.injEq, Int.compare_eq_lt]

theorem le_iff_place_le {x y : Float} (hx : x.isNaN = false) (hy : y.isNaN = false) :
    x ≤ y ↔ place x ≤ place y := by
  show decide ((x.toModel.unpack.compare y.toModel.unpack).any (·.isLE) = true) = true ↔ _
  rw [compare_places hx hy, decide_eq_true_eq, Option.any_some, Int.isLE_compare]

theorem beq_iff_place_eq {x y : Float} (hx : x.isNaN = false) (hy : y.isNaN = false) :
    (x == y) = true ↔ place x = place y := by
  show (x.toModel.unpack.compare y.toModel.unpack == some .eq) = true ↔ _
  rw [compare_places hx hy, beq_iff_eq, Option.some.injEq, Int.compare_eq_eq]

/-! ## NaN -/

theorem compare_of_isNaN {x y : Float} (h : x.isNaN = true ∨ y.isNaN = true) :
    x.toModel.unpack.compare y.toModel.unpack = none := by
  rcases h with h | h
  · rw [isNaN_iff.1 h, UnpackedFloat.compare]
  · rw [isNaN_iff.1 h]
    cases x.toModel.unpack <;> rfl

theorem not_lt_of_isNaN {x y : Float} (h : x.isNaN = true ∨ y.isNaN = true) : ¬ x < y := by
  show ¬ decide ((x.toModel.unpack.compare y.toModel.unpack == some .lt) = true) = true
  rw [compare_of_isNaN h]
  decide

/-! ## Two doubles -/

section Two

variable {x y : Float}

theorem place_least (hx : x.isNaN = false) (hy : y.isNaN = false) :
    (least x y).isNaN = false ∧ place (least x y) = min (place x) (place y) := by
  rw [least, hx, if_neg Bool.false_ne_true]
  split_ifs with h <;> rw [lt_iff_place_lt hy hx] at h
  · exact ⟨hy, (min_eq_right h.le).symm⟩
  · exact ⟨hx, (min_eq_left (not_lt.1 h)).symm⟩

theorem place_greatest (hx : x.isNaN = false) (hy : y.isNaN = false) :
    (greatest x y).isNaN = false ∧ place (greatest x y) = max (place x) (place y) := by
  rw [greatest, hx, if_neg Bool.false_ne_true]
  split_ifs with h <;> rw [lt_iff_place_lt hx hy] at h
  · exact ⟨hy, (max_eq_right h.le).symm⟩
  · exact ⟨hx, (max_eq_left (not_lt.1 h)).symm⟩

/-- A NaN leaves the other one as it is. -/
theorem least_of_isNaN (hx : x.isNaN = false) (hy : y.isNaN = true) : least x y = x := by
  rw [least, hx, if_neg Bool.false_ne_true, if_neg (not_lt_of_isNaN (.inl hy))]

theorem greatest_of_isNaN (hx : x.isNaN = false) (hy : y.isNaN = true) : greatest x y = x := by
  rw [greatest, hx, if_neg Bool.false_ne_true, if_neg (not_lt_of_isNaN (.inr hy))]

end Two

/-! ## Ranks -/

section Rank

variable {L : Type} [LinearOrder L] {number : ℤ → L} {x y : Float}

/-- The place of a double as `number` turns it, a NaN above all others. -/
def rank (number : ℤ → L) (x : Float) : WithTop L := if x.isNaN = true then ⊤ else number (place x)

omit [LinearOrder L] in
theorem rank_of_isNaN (h : x.isNaN = true) : rank number x = ⊤ := if_pos h

omit [LinearOrder L] in
theorem rank_of_not_isNaN (h : x.isNaN = false) : rank number x = number (place x) :=
  if_neg (Bool.eq_false_iff.1 h)

/-- The first of two doubles in an order of numbers, where a NaN gives way, has the lower rank. -/
theorem rank_first (before : Float → Float → Prop) [DecidableRel before]
    (hnumber : ∀ x y, x.isNaN = false → y.isNaN = false →
      (before y x ↔ number (place y) < number (place x)))
    (hnan : ∀ x y, y.isNaN = true → ¬ before y x) (x y : Float) :
    rank number (if x.isNaN = true then y else if before y x then y else x)
      = min (rank number x) (rank number y) := by
  cases hx : x.isNaN with
  | true => rw [if_pos rfl, rank_of_isNaN hx, min_eq_right le_top]
  | false =>
    rw [if_neg Bool.false_ne_true]
    cases hy : y.isNaN with
    | true => rw [if_neg (hnan x y hy), rank_of_isNaN hy, min_eq_left le_top]
    | false =>
      rw [rank_of_not_isNaN hx, rank_of_not_isNaN hy]
      split_ifs with h <;> rw [hnumber x y hx hy] at h
      · rw [rank_of_not_isNaN hy, min_eq_right (WithTop.coe_le_coe.2 h.le)]
      · rw [rank_of_not_isNaN hx, min_eq_left (WithTop.coe_le_coe.2 (not_lt.1 h))]

theorem rank_least (x y : Float) : rank id (least x y) = min (rank id x) (rank id y) :=
  rank_first (fun y x => y < x) (fun _ _ hx hy => lt_iff_place_lt hy hx)
    (fun _ _ hy => not_lt_of_isNaN (.inl hy)) x y

theorem rank_greatest (x y : Float) : rank OrderDual.toDual (greatest x y)
    = min (rank OrderDual.toDual x) (rank OrderDual.toDual y) :=
  rank_first (fun y x => x < y) (fun _ _ hx hy => lt_iff_place_lt hx hy)
    (fun _ _ hy => not_lt_of_isNaN (.inr hy)) x y

/-- The same number, or NaN both. The sign of a zero makes no difference. -/
def Same (x y : Float) : Prop := x.isNaN = true ∧ y.isNaN = true ∨ (x == y) = true

omit [LinearOrder L] in
theorem same_of_rank_eq (hnumber : number.Injective) (h : rank number x = rank number y) :
    Same x y := by
  cases hx : x.isNaN <;> cases hy : y.isNaN
  · rw [rank_of_not_isNaN hx, rank_of_not_isNaN hy, WithTop.coe_inj] at h
    exact .inr ((beq_iff_place_eq hx hy).2 (hnumber h))
  · rw [rank_of_not_isNaN hx, rank_of_isNaN hy] at h
    exact absurd h WithTop.coe_ne_top
  · rw [rank_of_isNaN hx, rank_of_not_isNaN hy] at h
    exact absurd h WithTop.top_ne_coe
  · exact .inl ⟨hx, hy⟩

end Rank

end SolidScene.Binary64
