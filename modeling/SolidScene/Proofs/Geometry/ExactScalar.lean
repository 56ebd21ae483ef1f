import Mathlib
import SolidScene.Scalar

/-!
# Exact scalars

Exact geometry is measured in an ordered field whose operations round nothing and where numbers
that are not below zero have square roots. The real numbers are one, with the doubles' range for
the finite ones.
-/

namespace SolidScene

/-- Scalars with the operations of an ordered field and its square roots. Which of them count as
finite is left open, so that what holds of exact scalars holds in every range. -/
class ExactScalar (K : Type) [Field K] [LinearOrder K] extends Scalar K where
  lt_iff {x y : K} : Scalar.lt x y = true ↔ x < y
  le_iff {x y : K} : Scalar.le x y = true ↔ x ≤ y
  eq_iff {x y : K} : Scalar.eq x y = true ↔ x = y
  least_eq (x y : K) : Scalar.least x y = min x y
  greatest_eq (x y : K) : Scalar.greatest x y = max x y
  abs_eq (x : K) : Scalar.abs x = |x|
  sqrt_nonneg {x : K} : 0 ≤ x → 0 ≤ Scalar.sqrt x
  sq_sqrt {x : K} : 0 ≤ x → Scalar.sqrt x ^ 2 = x

attribute [simp] ExactScalar.lt_iff ExactScalar.le_iff ExactScalar.eq_iff ExactScalar.least_eq
  ExactScalar.greatest_eq ExactScalar.abs_eq

namespace Scalar

section Literals

variable {K : Type} [Field K] [CharZero K]

@[simp] theorem literal_zero : (0.0 : K) = 0 := by
  norm_num

@[simp] theorem literal_one : (1.0 : K) = 1 := by
  norm_num

end Literals

variable {K : Type} [Field K] [LinearOrder K] [IsStrictOrderedRing K] [ExactScalar K]

theorem sqrt_eq_of_sq {x y : K} (hy : 0 ≤ y) (h : y ^ 2 = x) : sqrt x = y := by
  have hx : 0 ≤ x := h ▸ sq_nonneg y
  rw [← sq_eq_sq₀ (ExactScalar.sqrt_nonneg hx) hy, ExactScalar.sq_sqrt hx, h]

end Scalar

namespace ExactScalar

variable {K : Type} [Field K] [LinearOrder K] [ExactScalar K] {x y : K}

@[simp] theorem lt_eq_false_iff : Scalar.lt x y = false ↔ y ≤ x := by
  rw [← Bool.not_eq_true, lt_iff, not_lt]

@[simp] theorem eq_eq_false_iff : Scalar.eq x y = false ↔ x ≠ y := by
  rw [← Bool.not_eq_true, eq_iff]

end ExactScalar

/-- Exact scalars whose remainder is what whole multiples of the divisor leave, and less than it. -/
class ExactRemainder (K : Type) [Field K] [LinearOrder K] [ExactScalar K] : Prop where
  exists_remainder_eq (x : K) {y : K} : y ≠ 0 → ∃ n : ℤ, Scalar.remainder x y = x - n * y
  abs_remainder_lt (x : K) {y : K} : y ≠ 0 → |Scalar.remainder x y| < |y|

/-! ## The real numbers -/

namespace ExactScalar

/-- The real numbers up to the greatest finite double. -/
noncomputable instance : ExactScalar ℝ where
  lt x y := decide (x < y)
  le x y := decide (x ≤ y)
  eq x y := decide (x = y)
  least := min
  greatest := max
  abs x := |x|
  sqrt := Real.sqrt
  remainder x y := x - y * (if 0 ≤ x / y then ⌊x / y⌋ else ⌈x / y⌉ : ℤ)
  isFinite x := decide (|x| ≤ (2 ^ 53 - 1) * 2 ^ 971)
  largest := (2 ^ 53 - 1) * 2 ^ 971
  lt_iff := decide_eq_true_iff
  le_iff := decide_eq_true_iff
  eq_iff := decide_eq_true_iff
  least_eq _ _ := rfl
  greatest_eq _ _ := rfl
  abs_eq _ := rfl
  sqrt_nonneg _ := Real.sqrt_nonneg _
  sq_sqrt := Real.sq_sqrt

instance : ExactRemainder ℝ where
  exists_remainder_eq x y _ := by
    simp only [Scalar.remainder]
    exact ⟨_, by rw [mul_comm]⟩
  abs_remainder_lt x y hy := by
    have hpos := abs_pos.2 hy
    simp only [Scalar.remainder]
    set n : ℤ := if 0 ≤ x / y then ⌊x / y⌋ else ⌈x / y⌉ with hn
    have hlt : |x / y - n| < 1 := by
      rw [hn]
      split_ifs
      · rw [abs_of_nonneg (sub_nonneg.2 (Int.floor_le _))]
        linarith [Int.lt_floor_add_one (x / y)]
      · rw [abs_of_nonpos (sub_nonpos.2 (Int.le_ceil _))]
        linarith [Int.ceil_lt_add_one (x / y)]
    have hmul : x - y * n = y * (x / y - n) := by
      field_simp
    rw [hmul, abs_mul]
    exact mul_lt_of_lt_one_right hpos hlt

/-- A whole mantissa is in the range. -/
theorem isFinite_of_abs_le {x : ℝ} (h : |x| ≤ 2 ^ 53 - 1) : Scalar.isFinite x = true :=
  decide_eq_true (h.trans (le_mul_of_one_le_right (by norm_num) (one_le_pow₀ one_le_two)))

end ExactScalar

end SolidScene
