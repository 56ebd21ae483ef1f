import SolidScene.Proofs.Geometry.Length
import SolidScene.Solid.Distance

/-!
# Overhangs

The distance to a box, as a function of the overhangs over its faces, is the greatest dot product of
the overhangs with an outward direction (`Outward.dot_le_overhangDistance`,
`exists_outward_dot_eq`). So it grows with the overhangs, and no faster than they do. The distance
to a shape that turns around an axis is the same function with a third overhang that never counts
(`planarOverhangDistance_eq`).
-/

namespace SolidScene

variable {K : Type} [Field K] [LinearOrder K] [IsStrictOrderedRing K] [ExactScalar K]

/-! ## Outward directions -/

/-- A direction that no coordinate of which is below zero. -/
structure Outward (n : Vec3 K) : Prop where
  x_nonneg : 0 ≤ n.x
  y_nonneg : 0 ≤ n.y
  z_nonneg : 0 ≤ n.z
  length_eq : n.length = 1

namespace Outward

variable {n : Vec3 K}

theorem xAxis : Outward (⟨1, 0, 0⟩ : Vec3 K) :=
  ⟨zero_le_one, le_rfl, le_rfl, Vec3.length_eq_of_sq zero_le_one (by simp)⟩

theorem yAxis : Outward (⟨0, 1, 0⟩ : Vec3 K) :=
  ⟨le_rfl, zero_le_one, le_rfl, Vec3.length_eq_of_sq zero_le_one (by simp)⟩

theorem zAxis : Outward (⟨0, 0, 1⟩ : Vec3 K) :=
  ⟨le_rfl, le_rfl, zero_le_one, Vec3.length_eq_of_sq zero_le_one (by simp)⟩

theorem sq_add_sq_add_sq (hn : Outward n) : n.x ^ 2 + n.y ^ 2 + n.z ^ 2 = 1 := by
  rw [← Vec3.sq_length, hn.length_eq, one_pow]

theorem dot_le_length (hn : Outward n) (v : Vec3 K) : n.dot v ≤ v.length := by
  simpa [hn.length_eq] using n.dot_le_length_mul_length v

theorem dot_le_dot (hn : Outward n) {v w : Vec3 K} (hx : v.x ≤ w.x) (hy : v.y ≤ w.y)
    (hz : v.z ≤ w.z) : n.dot v ≤ n.dot w :=
  add_le_add (add_le_add (mul_le_mul_of_nonneg_left hx hn.x_nonneg)
    (mul_le_mul_of_nonneg_left hy hn.y_nonneg)) (mul_le_mul_of_nonneg_left hz hn.z_nonneg)

theorem one_le_sum (hn : Outward n) : 1 ≤ n.x + n.y + n.z := by
  have hsq := hn.sq_add_sq_add_sq
  have hx := hn.x_nonneg
  have hy := hn.y_nonneg
  have hz := hn.z_nonneg
  refine le_of_sq_le_sq ?_ (add_nonneg (add_nonneg hx hy) hz)
  nlinarith [mul_nonneg hx hy, mul_nonneg hy hz, mul_nonneg hx hz]

/-- A vector without a coordinate below zero, brought to length one. -/
theorem of_nonneg {v : Vec3 K} (hx : 0 ≤ v.x) (hy : 0 ≤ v.y) (hz : 0 ≤ v.z) (hv : 0 < v.length) :
    Outward (v.scale v.length⁻¹) := by
  have hinv := (inv_pos.2 hv).le
  refine ⟨mul_nonneg hx hinv, mul_nonneg hy hinv, mul_nonneg hz hinv, ?_⟩
  rw [Vec3.length_scale, abs_of_nonneg hinv, mul_inv_cancel₀ hv.ne']

end Outward

/-! ## Overhangs over six faces -/

open Scalar (least greatest)

omit [IsStrictOrderedRing K] in
theorem Vec3.maximum_eq (q : Vec3 K) : q.maximum = max q.x (max q.y q.z) := by
  simp [Vec3.maximum]

theorem overhangDistance_of_nonpos {q : Vec3 K} (h : q.maximum ≤ 0) :
    overhangDistance q = q.maximum := by
  have hq := h
  rw [Vec3.maximum_eq, max_le_iff, max_le_iff] at hq
  have hzero : (q.greatest (Vec3.uniform 0.0)).length = 0 := by
    refine Vec3.length_eq_of_sq le_rfl ?_
    norm_num [max_eq_right hq.1, max_eq_right hq.2.1, max_eq_right hq.2.2]
  rw [overhangDistance, hzero, ExactScalar.least_eq]
  norm_num [h]

theorem overhangDistance_of_pos {q : Vec3 K} (h : 0 < q.maximum) :
    overhangDistance q = (q.greatest (Vec3.uniform 0)).length := by
  rw [overhangDistance, ExactScalar.least_eq]
  norm_num [h.le]

/-- Outside the box the overhangs above zero are as long as the distance. -/
theorem length_greatest_le {q : Vec3 K} {t : K} (ht : 0 ≤ t) (h : overhangDistance q ≤ t) :
    (q.greatest (Vec3.uniform 0)).length ≤ t := by
  rcases le_or_gt q.maximum 0 with hmax | hmax
  · rw [Vec3.maximum_eq, max_le_iff, max_le_iff] at hmax
    refine (Vec3.length_le_iff ht).2 ?_
    simp [hmax, sq_nonneg]
  · rwa [overhangDistance_of_pos hmax] at h

/-- No outward direction shows more of the overhangs than their distance. -/
theorem Outward.dot_le_overhangDistance {n : Vec3 K} (hn : Outward n) (q : Vec3 K) :
    n.dot q ≤ overhangDistance q := by
  rcases le_or_gt q.maximum 0 with h | h
  · have hx : q.x ≤ q.maximum := by simp [Vec3.maximum_eq]
    have hy : q.y ≤ q.maximum := by simp [Vec3.maximum_eq]
    have hz : q.z ≤ q.maximum := by simp [Vec3.maximum_eq]
    rw [overhangDistance_of_nonpos h]
    calc n.dot q ≤ n.dot (Vec3.uniform q.maximum) := hn.dot_le_dot hx hy hz
      _ = (n.x + n.y + n.z) * q.maximum := by simp only [Vec3.dot, Vec3.uniform]; ring
      _ ≤ 1 * q.maximum := mul_le_mul_of_nonpos_right hn.one_le_sum h
      _ = q.maximum := one_mul _
  · rw [overhangDistance_of_pos h]
    calc n.dot q ≤ n.dot (q.greatest (Vec3.uniform 0)) :=
          hn.dot_le_dot (by simp) (by simp) (by simp)
      _ ≤ _ := hn.dot_le_length _

theorem length_greatest_pos {q : Vec3 K} (h : 0 < q.maximum) :
    0 < (q.greatest (Vec3.uniform 0)).length := by
  set u := q.greatest (Vec3.uniform 0) with hu
  refine u.length_nonneg.lt_of_ne fun hzero => h.not_ge ?_
  have hle : ∀ a : K, |max a 0| ≤ u.length → a ≤ 0 := fun a ha =>
    (le_max_left a 0).trans ((le_abs_self _).trans (ha.trans_eq hzero.symm))
  rw [Vec3.maximum_eq]
  exact max_le (hle _ (by simpa [hu] using u.abs_x_le_length))
    (max_le (hle _ (by simpa [hu] using u.abs_y_le_length))
      (hle _ (by simpa [hu] using u.abs_z_le_length)))

/-- Only the overhangs above zero count in a product with those above zero. -/
theorem dot_greatest (q : Vec3 K) :
    (q.greatest (Vec3.uniform 0)).dot q = (q.greatest (Vec3.uniform 0)).length ^ 2 := by
  have hmul : ∀ a : K, max a 0 * a = max a 0 ^ 2 := fun a => by
    rcases le_total a 0 with ha | ha <;> simp [ha, sq]
  simp [Vec3.sq_length, Vec3.dot, hmul]

/-- Some outward direction shows all of it. -/
theorem exists_outward_dot_eq (q : Vec3 K) : ∃ n, Outward n ∧ n.dot q = overhangDistance q := by
  rcases le_or_gt q.maximum 0 with h | h
  · rw [overhangDistance_of_nonpos h, Vec3.maximum_eq]
    rcases max_choice q.x (max q.y q.z) with hmax | hmax <;> rw [hmax]
    · exact ⟨_, Outward.xAxis, by simp [Vec3.dot]⟩
    rcases max_choice q.y q.z with hmax | hmax <;> rw [hmax]
    · exact ⟨_, Outward.yAxis, by simp [Vec3.dot]⟩
    · exact ⟨_, Outward.zAxis, by simp [Vec3.dot]⟩
  · have hpos := length_greatest_pos h
    refine ⟨_, Outward.of_nonneg (by simp) (by simp) (by simp) hpos, ?_⟩
    rw [overhangDistance_of_pos h, Vec3.scale_dot, dot_greatest]
    field_simp

/-- The distance grows no faster than the overhangs. -/
theorem overhangDistance_le_add (q r : Vec3 K) :
    overhangDistance q ≤ overhangDistance r + (q - r).length := by
  obtain ⟨n, hn, hq⟩ := exists_outward_dot_eq q
  have hr := hn.dot_le_overhangDistance r
  have hqr := hn.dot_le_length (q - r)
  rw [Vec3.dot_sub] at hqr
  linarith

/-! ## Overhangs over a mantle and two caps -/

namespace Outward

variable {n : Vec3 K}

/-- An outward direction turned around the vertical. -/
theorem turned (hn : Outward n) : Outward (⟨planarLength n.x n.z, n.y, 0⟩ : Vec3 K) := by
  refine ⟨planarLength_nonneg _ _, hn.y_nonneg, le_rfl, Vec3.length_eq_of_sq zero_le_one ?_⟩
  have h := hn.sq_add_sq_add_sq
  simp only [sq_planarLength]
  linarith

theorem planarLength_le_add (hn : Outward n) : planarLength n.x n.z ≤ n.x + n.z := by
  refine le_of_sq_le_sq ?_ (add_nonneg hn.x_nonneg hn.z_nonneg)
  rw [sq_planarLength]
  nlinarith [mul_nonneg hn.x_nonneg hn.z_nonneg]

/-- No direction shows more overhang over the sides of a box than over the mantle inside it. -/
theorem sides_le_mantle (hn : Outward n) {r : K} (hr : 0 ≤ r) (v : Vec3 K) :
    n.x * (|v.x| - r) + n.z * (|v.z| - r) ≤
      planarLength n.x n.z * (planarLength v.x v.z - r) := by
  have hplanar := Vec3.dot_le_length_mul_length ⟨n.x, n.z, 0⟩ (⟨|v.x|, |v.z|, 0⟩ : Vec3 K)
  have habs : (⟨|v.x|, |v.z|, 0⟩ : Vec3 K).length = planarLength v.x v.z := by
    refine Vec3.length_eq_of_sq (planarLength_nonneg _ _) ?_
    simp [sq_planarLength]
  rw [habs, ← planarLength_eq] at hplanar
  simp only [Vec3.dot] at hplanar
  nlinarith [mul_le_mul_of_nonneg_right hn.planarLength_le_add hr]

end Outward

/-- A third overhang that is not above zero and not above another changes nothing. -/
theorem planarOverhangDistance_eq {x y z : K} (hy : z ≤ y) (hz : z ≤ 0) :
    planarOverhangDistance x y = overhangDistance ⟨x, y, z⟩ := by
  rw [planarOverhangDistance, overhangDistance, add_comm, planarLength_eq]
  congr 1
  · congr 1
    ext <;> norm_num [hz]
  · simp [Vec3.maximum, hy]

theorem planarOverhangDistance_le_add (x y x' y' : K) :
    planarOverhangDistance x y ≤
      planarOverhangDistance x' y' + planarLength (x - x') (y - y') := by
  -- one third overhang for both sides, so that it is gone in the difference
  obtain ⟨z, hy, hy', hz⟩ : ∃ z, z ≤ y ∧ z ≤ y' ∧ z ≤ 0 := ⟨min y (min y' 0), by simp⟩
  rw [planarOverhangDistance_eq hy hz, planarOverhangDistance_eq hy' hz, planarLength_eq]
  refine (overhangDistance_le_add _ _).trans (add_le_add le_rfl ?_)
  exact Vec3.length_le_length (by simp) (by simp) (by simp)

end SolidScene
