import SolidScene.Proofs.Solid.Distance

/-!
# Blends as smooth minima

Exactly, a blend does not depend on the order of the two distances and is the smaller of them but
for a band where they are close together. There it lies below both, by a quarter of the blend radius
where they are equal and nowhere by more (`smoothMinimum_blend`).
-/

namespace SolidScene

variable {K : Type} [Field K] [LinearOrder K]

/-- A minimum of two numbers, rounded off where they are closer together than `reach`. -/
structure SmoothMinimum (reach : K) (f : K → K → K) : Prop where
  comm (a b : K) : f a b = f b a
  min_sub_le (a b : K) : min a b - reach / 4 ≤ f a b
  le_min (a b : K) : f a b ≤ min a b
  eq_min_iff (a b : K) : f a b = min a b ↔ reach ≤ |a - b|
  monotone_left (b : K) : Monotone fun a => f a b
  monotone_right (a : K) : Monotone (f a)
  add_add (a b e : K) : f (a + e) (b + e) = f a b + e

namespace Combiner

variable [IsStrictOrderedRing K] [ExactScalar K]

omit [LinearOrder K] [IsStrictOrderedRing K] [ExactScalar K] in
/-- What one distance does not share in a blend the other one does. -/
theorem blendAt_comm (h a b : K) : blendAt (1 - h) b a = blendAt h a b := by
  unfold blendAt
  ring

theorem combine_blend_le_comm (a b : K) : combine .blend a b ≤ combine .blend b a := by
  obtain ⟨h, h0, h1, hblend⟩ := exists_combine_blend_eq b a
  rw [hblend, ← blendAt_comm]
  exact combine_blend_le (sub_nonneg.2 h1) (sub_le_self 1 h0)

theorem combine_blend_comm (a b : K) : combine .blend a b = combine .blend b a :=
  (combine_blend_le_comm a b).antisymm (combine_blend_le_comm b a)

theorem combine_blend_le_min (a b : K) : combine .blend a b ≤ min a b :=
  le_min (combine_blend_le_left a b)
    ((combine_blend_comm a b).trans_le (combine_blend_le_left b a))

theorem combine_blend_mono {a a' b b' : K} (ha : a ≤ a') (hb : b ≤ b') :
    combine .blend a b ≤ combine .blend a' b' := by
  have h := combine_blend_le_add (ha.trans_eq (add_zero a').symm) (hb.trans_eq (add_zero b').symm)
  rwa [add_zero] at h

theorem combine_blend_add_add (a b e : K) :
    combine .blend (a + e) (b + e) = combine .blend a b + e := by
  refine (combine_blend_le_add le_rfl le_rfl).antisymm ?_
  have hback : combine .blend a b ≤ combine .blend (a + e) (b + e) + -e :=
    combine_blend_le_add (by simp) (by simp)
  linarith

omit [ExactScalar K] in
theorem freeShare_eq (a b : K) : freeShare a b = 1 / 2 + 2 * (b - a) := by
  norm_num [freeShare, blendRadius_eq]
  ring

/-- A distance as far below the other as the blend radius has the whole share. -/
theorem combine_blend_of_le {a b : K} (h : a + blendRadius ≤ b) : combine .blend a b = a := by
  have hshare : 1 ≤ freeShare a b := by
    rw [blendRadius_eq] at h
    rw [freeShare_eq]
    linarith
  rw [combine_blend, min_eq_right hshare, max_eq_right zero_le_one]
  simp [blendAt]

/-- Closer together than the blend radius, the free share gives less than either distance. -/
theorem combine_blend_lt {a b : K} (hab : a ≤ b) (h : b < a + blendRadius) :
    combine .blend a b < a := by
  rw [blendRadius_eq] at h
  have hlow : 0 ≤ freeShare a b := by
    rw [freeShare_eq]
    linarith
  have hhigh : freeShare a b ≤ 1 := by
    rw [freeShare_eq]
    linarith
  have hgap : 0 < a + 1 / 4 - b := by linarith
  calc combine .blend a b ≤ blendAt (freeShare a b) a b := combine_blend_le hlow hhigh
    _ = a - (a + 1 / 4 - b) ^ 2 := by
      rw [blendAt_eq, freeShare_eq]
      ring
    _ < a := sub_lt_self a (pow_pos hgap 2)

theorem combine_blend_eq_min_iff (a b : K) :
    combine .blend a b = min a b ↔ blendRadius ≤ |a - b| := by
  wlog hab : a ≤ b generalizing a b
  · rw [combine_blend_comm, min_comm, abs_sub_comm]
    exact this b a (le_of_not_ge hab)
  rw [min_eq_left hab, abs_sub_comm, abs_of_nonneg (sub_nonneg.2 hab), le_sub_iff_add_le']
  exact ⟨fun h => le_of_not_gt fun hlt => (combine_blend_lt hab hlt).ne h, combine_blend_of_le⟩

/-- A blend of two distances is their minimum, rounded off over the blend radius. -/
theorem smoothMinimum_blend : SmoothMinimum (blendRadius : K) (combine .blend) where
  comm := combine_blend_comm
  min_sub_le a b := by
    convert min_sub_le_combine_blend a b using 2
    rw [blendRadius_eq]
    norm_num
  le_min := combine_blend_le_min
  eq_min_iff := combine_blend_eq_min_iff
  monotone_left _ _ _ h := combine_blend_mono h le_rfl
  monotone_right _ _ _ h := combine_blend_mono le_rfl h
  add_add := combine_blend_add_add

/-- Distances apart by half the blend radius blend in the band, in either order, and ones apart by
the whole of it no more. -/
theorem smoothMinimum_blend_real :
    combine .blend (0 : ℝ) (1 / 8) = -1 / 64 ∧ combine .blend (1 / 8 : ℝ) 0 = -1 / 64 ∧
      combine .blend (1 / 4 : ℝ) 0 = 0 ∧ combine .blend (3 : ℝ) (3 + 1 / 8) = 3 - 1 / 64 := by
  have hblend := smoothMinimum_blend (K := ℝ)
  have hband : combine .blend (0 : ℝ) (1 / 8) = -1 / 64 := by
    rw [combine_blend, freeShare_eq, blendAt, blendRadius_eq]
    norm_num
  refine ⟨hband, (hblend.comm _ _).trans hband, ?_, ?_⟩
  · have hfar := (hblend.eq_min_iff (1 / 4) 0).2 (by norm_num [blendRadius_eq])
    rw [hfar]
    norm_num
  · have hmoved := hblend.add_add 0 (1 / 8) 3
    rw [hband, zero_add, add_comm] at hmoved
    rw [hmoved]
    norm_num

end Combiner

end SolidScene
