import SolidScene.Proofs.Geometry.ExactScalar
import SolidScene.Solid.Distance

/-!
# Combined and repeated distances

Exactly, a blend of two distances is the least value that any share of the first between 0 and 1
gives (`combine_blend_le`, `exists_combine_blend_eq`). So it lies at most a quarter of the blend
radius below the smaller one, and, like the other combiners, it moves by no more than the distances
do (`combine_le_add`). An axis repeats where its period is not zero.
-/

namespace SolidScene

variable {K : Type} [Field K] [LinearOrder K] [IsStrictOrderedRing K] [ExactScalar K]

/-! ## Repetition -/

theorem repeats_iff {period : K} : repeats period = true ↔ period ≠ 0 := by
  norm_num [repeats]

theorem foldAxis_zero (x : K) : foldAxis x 0 = x := by
  simp [foldAxis, repeats_iff]

namespace Combiner

open Scalar (clamp)

/-! ## Combiners -/

section

variable (a b : K)

omit [IsStrictOrderedRing K]

theorem combine_add : combine .add a b = min a b := ExactScalar.least_eq a b

theorem combine_union : combine .union a b = min a b := ExactScalar.least_eq a b

theorem combine_subtract : combine .subtract a b = max a (-b) := ExactScalar.greatest_eq a (-b)

end

/-! ## Blends -/

omit [ExactScalar K] in
theorem blendRadius_eq : (blendRadius : K) = 1 / 4 := by
  norm_num [blendRadius]

/-- What a blend gives where the first of two distances has the share `h`. -/
def blendAt (h a b : K) : K := b + (a - b) * h - blendRadius * h * (1 - h)

/-- The share at which two distances blend, before it is held between 0 and 1. -/
def freeShare (a b : K) : K := 0.5 + 0.5 * (b - a) / blendRadius

variable {a b a' b' h : K}

theorem clamp_eq (x : K) : clamp x 0 1 = max 0 (min x 1) := by
  rcases lt_or_ge x 0 with hlow | hlow
  · simp [clamp, hlow, (min_le_left x 1).trans hlow.le]
  rcases lt_or_ge 1 x with hhigh | hhigh
  · simp [clamp, hlow.not_gt, hhigh, hhigh.le]
  · simp [clamp, hlow.not_gt, hhigh.not_gt, hlow, hhigh]

theorem combine_blend : combine .blend a b = blendAt (max 0 (min (freeShare a b) 1)) a b := by
  rw [← clamp_eq]
  norm_num [combine, freeShare, blendAt, Scalar.interpolate]

omit [ExactScalar K] in
/-- Over the shares, a blend is a parabola with its lowest point at the free share. -/
theorem blendAt_eq (h a b : K) :
    blendAt h a b = b + ((h - freeShare a b) ^ 2 - freeShare a b ^ 2) / 4 := by
  norm_num [blendAt, freeShare, blendRadius_eq]
  ring

/-- No share gives less than the blend. -/
theorem combine_blend_le (h0 : 0 ≤ h) (h1 : h ≤ 1) : combine .blend a b ≤ blendAt h a b := by
  rw [combine_blend, blendAt_eq, blendAt_eq]
  rcases le_total (freeShare a b) 0 with hlow | hlow
  · rw [min_eq_left (hlow.trans zero_le_one), max_eq_left hlow]
    nlinarith
  rcases le_total 1 (freeShare a b) with hhigh | hhigh
  · rw [min_eq_right hhigh, max_eq_right zero_le_one]
    nlinarith
  · rw [min_eq_left hhigh, max_eq_right hlow]
    nlinarith [sq_nonneg (h - freeShare a b)]

theorem combine_blend_le_left (a b : K) : combine .blend a b ≤ a :=
  (combine_blend_le zero_le_one le_rfl).trans_eq (by simp [blendAt])

/-- Some share gives the blend. -/
theorem exists_combine_blend_eq (a b : K) :
    ∃ h, 0 ≤ h ∧ h ≤ 1 ∧ combine .blend a b = blendAt h a b :=
  ⟨_, le_max_left _ _, max_le zero_le_one (min_le_right _ _), combine_blend⟩

/-- A blend is at most a quarter of the blend radius below the smaller distance. -/
theorem min_sub_le_combine_blend (a b : K) : min a b - 1 / 16 ≤ combine .blend a b := by
  obtain ⟨h, h0, h1, hblend⟩ := exists_combine_blend_eq a b
  have ha : min a b * h ≤ a * h := mul_le_mul_of_nonneg_right (min_le_left a b) h0
  have hb : min a b * (1 - h) ≤ b * (1 - h) :=
    mul_le_mul_of_nonneg_right (min_le_right a b) (sub_nonneg.2 h1)
  rw [hblend, blendAt, blendRadius_eq]
  nlinarith [sq_nonneg (2 * h - 1)]

theorem combine_blend_self (a : K) : combine .blend a a = a - 1 / 16 := by
  rw [combine_blend, blendAt, blendRadius_eq, freeShare]
  norm_num

/-- A blend moves by no more than the distances do. -/
theorem combine_blend_le_add {e : K} (ha : a ≤ a' + e) (hb : b ≤ b' + e) :
    combine .blend a b ≤ combine .blend a' b' + e := by
  obtain ⟨h, h0, h1, hblend⟩ := exists_combine_blend_eq a' b'
  refine (combine_blend_le h0 h1).trans ?_
  rw [hblend, blendAt, blendAt]
  nlinarith [mul_le_mul_of_nonneg_right ha h0, mul_le_mul_of_nonneg_right hb (sub_nonneg.2 h1)]

/-- What a combiner gives moves by no more than the distances do. -/
theorem combine_le_add (c : Combiner) {e : K} (ha : a ≤ a' + e) (hb : b ≤ b' + e)
    (hb' : b' ≤ b + e) : c.combine a b ≤ c.combine a' b' + e := by
  cases c with
  | add =>
    rw [combine_add, combine_add, ← min_add_add_right]
    exact min_le_min ha hb
  | subtract =>
    rw [combine_subtract, combine_subtract, ← max_add_add_right]
    exact max_le_max ha (by linarith)
  | union =>
    rw [combine_union, combine_union, ← min_add_add_right]
    exact min_le_min ha hb
  | blend => exact combine_blend_le_add ha hb

end Combiner

end SolidScene
