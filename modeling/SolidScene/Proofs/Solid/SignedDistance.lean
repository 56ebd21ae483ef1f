import SolidScene.Proofs.Solid.DistanceGrowth

/-!
# Signed distances

A function on points is the signed distance to a region where it gives, outside, how far the nearest
point of the region is and, inside and below zero, how far the region reaches around the point
(`SignedDistance`). It is enough that it grows no faster than a point moves and that from every
point there is a way to its zeros as long as it says (`SignedDistance.of_feet`). The distances of
spheres, boxes and cylinders are such functions: each is measured in overhangs, where the way leads
straight on (`exists_foot`), and every overhang is one of a point in space
(`signedDistance_of_fills`).
-/

namespace SolidScene

variable {K : Type} [Field K] [LinearOrder K] [IsStrictOrderedRing K]

/-- Along a line through the middle of a slab every overhang is reached, and as near as it can. -/
theorem exists_abs_sub_eq (v : K) {h f : K} (hh : 0 ≤ h) (hf : f = |v| - h ∨ f = 0) :
    ∃ w, |w| - h = f ∧ |w - v| = |f - (|v| - h)| := by
  have ht : 0 ≤ f + h := by
    rcases hf with rfl | rfl
    · simp
    · simpa
  have hdiff : f - (|v| - h) = f + h - |v| := by ring
  rw [hdiff]
  rcases le_total 0 v with hv | hv
  · refine ⟨f + h, ?_, ?_⟩
    · rw [abs_of_nonneg ht, add_sub_cancel_right]
    · rw [abs_of_nonneg hv]
  · refine ⟨-(f + h), ?_, ?_⟩
    · rw [abs_neg, abs_of_nonneg ht, add_sub_cancel_right]
    · rw [abs_of_nonpos hv, ← abs_neg]
      congr 1
      ring

variable [ExactScalar K]

namespace Vec3

theorem length_eq_of_abs {v w : Vec3 K} (hx : |v.x| = |w.x|) (hy : |v.y| = |w.y|)
    (hz : |v.z| = |w.z|) : v.length = w.length :=
  (length_le_length hx.le hy.le hz.le).antisymm (length_le_length hx.ge hy.ge hz.ge)

/-- Every vector is its length along a direction, which stays in the plane that the vector is in. -/
theorem exists_direction (v : Vec3 K) :
    ∃ n : Vec3 K, n.length = 1 ∧ n.scale v.length = v ∧ (v.z = 0 → n.z = 0) := by
  rcases v.length_nonneg.eq_or_lt with hzero | hpos
  · have hx := abs_nonpos_iff.1 (v.abs_x_le_length.trans hzero.ge)
    have hy := abs_nonpos_iff.1 (v.abs_y_le_length.trans hzero.ge)
    have hz := abs_nonpos_iff.1 (v.abs_z_le_length.trans hzero.ge)
    refine ⟨⟨1, 0, 0⟩, Outward.xAxis.length_eq, ?_, fun _ => rfl⟩
    ext <;> simp [← hzero, hx, hy, hz]
  · refine ⟨v.scale v.length⁻¹, ?_, ?_, fun hz => by simp [hz]⟩
    · rw [length_scale, abs_of_pos (inv_pos.2 hpos), mul_inv_cancel₀ hpos.ne']
    · ext <;> simp [hpos.ne']

/-- Along the direction of `v`, as far from the origin as wanted. -/
theorem exists_length_eq (v : Vec3 K) {t : K} (ht : 0 ≤ t) : ∃ w : Vec3 K,
    w.length = t ∧ (w - v).length = |t - v.length| ∧ (v.z = 0 → w.z = 0) := by
  obtain ⟨n, hn, hv, hz⟩ := v.exists_direction
  have hdiff : n.scale t - v = n.scale (t - v.length) := by
    conv_lhs => rw [← hv]
    ext <;> simp [mul_sub]
  refine ⟨n.scale t, ?_, ?_, fun hvz => by simp [hz hvz]⟩
  · rw [length_scale, hn, one_mul, abs_of_nonneg ht]
  · rw [hdiff, length_scale, hn, one_mul]

end Vec3

/-- The same away from the middle of a disc. -/
theorem exists_planarLength_sub_eq (x y : K) {r f : K} (hr : 0 ≤ r)
    (hf : f = planarLength x y - r ∨ f = 0) : ∃ x' y' : K, planarLength x' y' - r = f ∧
      planarLength (x' - x) (y' - y) = |f - (planarLength x y - r)| := by
  have ht : 0 ≤ f + r := by
    rcases hf with rfl | rfl
    · simpa using planarLength_nonneg x y
    · simpa
  obtain ⟨⟨x', y', z'⟩, hlength, hdiff, hz⟩ := Vec3.exists_length_eq ⟨x, y, 0⟩ ht
  obtain rfl : z' = 0 := hz rfl
  refine ⟨x', y', ?_, ?_⟩
  · rw [planarLength_eq, hlength, add_sub_cancel_right]
  · rw [planarLength_eq x y, sub_sub_eq_add_sub, ← hdiff, planarLength_eq]
    congr 1
    ext <;> simp

/-! ## Feet of overhangs -/

/-- The end of a way from the overhangs `e` to distance zero that is as long as the distance. -/
structure Foot (e f : Vec3 K) : Prop where
  overhangDistance_eq : overhangDistance f = 0
  length_eq : (f - e).length = |overhangDistance e|
  x_eq : f.x = e.x ∨ f.x = 0
  y_eq : f.y = e.y ∨ f.y = 0
  z_eq : f.z = e.z ∨ f.z = 0 ∧ ¬(e.z ≤ e.y ∧ e.z ≤ 0)

/-- From outside the overhangs above zero are given up. -/
theorem foot_of_pos {e : Vec3 K} (h : 0 < e.maximum) : Foot e (e.least (Vec3.uniform 0)) := by
  have hmin : ∀ a : K, min a 0 - a = -max a 0 := fun a => by
    linarith [min_add_max a 0]
  have hmaximum : (e.least (Vec3.uniform 0)).maximum = 0 := by
    rw [Vec3.maximum_eq] at h ⊢
    simp only [Vec3.least_x, Vec3.least_y, Vec3.least_z, Vec3.uniform_x, Vec3.uniform_y,
      Vec3.uniform_z, ← min_max_distrib_right]
    exact min_eq_right h.le
  refine ⟨(overhangDistance_of_nonpos hmaximum.le).trans hmaximum, ?_, ?_, ?_, ?_⟩
  · rw [overhangDistance_of_pos h, abs_of_nonneg (Vec3.length_nonneg _)]
    apply Vec3.length_eq_of_abs <;> simp [hmin]
  · simpa using le_total e.x 0
  · simpa using le_total e.y 0
  · rcases le_or_gt e.z 0 with hz | hz
    · exact .inl (by simp [hz])
    · exact .inr ⟨by simp [hz.le], fun hle => hz.not_ge hle.2⟩

/-- From inside the greatest overhang, the one over the nearest face, comes to zero. -/
theorem exists_foot_of_nonpos {e : Vec3 K} (h : e.maximum ≤ 0) : ∃ f, Foot e f := by
  have he := overhangDistance_of_nonpos h
  have hzero : ∀ f : Vec3 K, f.maximum = 0 → overhangDistance f = 0 := fun f hf =>
    (overhangDistance_of_nonpos hf.le).trans hf
  rw [Vec3.maximum_eq] at h he
  obtain ⟨hx, hy, hz⟩ : e.x ≤ 0 ∧ e.y ≤ 0 ∧ e.z ≤ 0 := by simpa using h
  rcases le_total (max e.y e.z) e.x with hmax | hmax
  · rw [max_eq_left hmax] at he
    refine ⟨⟨0, e.y, e.z⟩, hzero _ ?_, ?_, .inr rfl, .inl rfl, .inl rfl⟩
    · simp [Vec3.maximum_eq, hy, hz]
    · exact Vec3.length_eq_of_sq (abs_nonneg _) (by simp [he])
  rw [max_eq_right hmax] at he
  rcases le_or_gt e.z e.y with hyz | hyz
  · rw [max_eq_left hyz] at he
    refine ⟨⟨e.x, 0, e.z⟩, hzero _ ?_, ?_, .inl rfl, .inr rfl, .inl rfl⟩
    · simp [Vec3.maximum_eq, hx, hz]
    · exact Vec3.length_eq_of_sq (abs_nonneg _) (by simp [he])
  · rw [max_eq_right hyz.le] at he
    refine ⟨⟨e.x, e.y, 0⟩, hzero _ ?_, ?_, .inl rfl, .inl rfl,
      .inr ⟨rfl, fun hle => hyz.not_ge hle.1⟩⟩
    · simp [Vec3.maximum_eq, hx, hy]
    · exact Vec3.length_eq_of_sq (abs_nonneg _) (by simp [he])

theorem exists_foot (e : Vec3 K) : ∃ f, Foot e f := by
  rcases le_or_gt e.maximum 0 with h | h
  · exact exists_foot_of_nonpos h
  · exact ⟨_, foot_of_pos h⟩

theorem overhangDistance_nonpos_iff {e : Vec3 K} :
    overhangDistance e ≤ 0 ↔ e.x ≤ 0 ∧ e.y ≤ 0 ∧ e.z ≤ 0 := by
  have hmaximum : e.maximum ≤ 0 ↔ e.x ≤ 0 ∧ e.y ≤ 0 ∧ e.z ≤ 0 := by
    rw [Vec3.maximum_eq, max_le_iff, max_le_iff]
  rw [← hmaximum]
  refine ⟨fun h => ?_, fun h => (overhangDistance_of_nonpos h).trans_le h⟩
  by_contra hpos
  rw [not_le] at hpos
  exact h.not_gt (overhangDistance_of_pos hpos ▸ length_greatest_pos hpos)

/-- The same over a mantle and two caps. -/
theorem exists_planarFoot (x y : K) : ∃ x' y' : K, planarOverhangDistance x' y' = 0 ∧
    planarLength (x' - x) (y' - y) = |planarOverhangDistance x y| ∧
      (x' = x ∨ x' = 0) ∧ (y' = y ∨ y' = 0) := by
  obtain ⟨z, hy, hz⟩ : ∃ z, z ≤ y ∧ z ≤ 0 := ⟨min y 0, by simp⟩
  obtain ⟨⟨x', y', z'⟩, hfoot⟩ := exists_foot ⟨x, y, z⟩
  -- the third overhang stays where it never counts
  obtain rfl : z' = z := hfoot.z_eq.resolve_right fun h => h.2 ⟨hy, hz⟩
  have hy' : z' ≤ y' :=
    hfoot.y_eq.elim (fun h => hy.trans_eq h.symm) fun h => hz.trans_eq h.symm
  refine ⟨x', y', ?_, ?_, hfoot.x_eq, hfoot.y_eq⟩
  · rw [planarOverhangDistance_eq hy' hz, hfoot.overhangDistance_eq]
  · rw [planarOverhangDistance_eq hy hz, ← hfoot.length_eq, planarLength_eq]
    congr 1
    ext <;> simp

theorem planarOverhangDistance_nonpos_iff {x y : K} :
    planarOverhangDistance x y ≤ 0 ↔ x ≤ 0 ∧ y ≤ 0 := by
  rw [planarOverhangDistance_eq (min_le_left y 0) (min_le_right y 0), overhangDistance_nonpos_iff]
  simp

/-! ## Signed distances -/

/-- Below zero or zero on a region, outside the distance to its nearest point and inside the
distance all around that the region reaches. -/
structure SignedDistance (region : Set (Vec3 K)) (d : Vec3 K → K) : Prop where
  mem_iff {p : Vec3 K} : p ∈ region ↔ d p ≤ 0
  exists_nearest {p : Vec3 K} : p ∉ region → ∃ q ∈ region, (q - p).length = d p
  le_length {p q : Vec3 K} : p ∉ region → q ∈ region → d p ≤ (q - p).length
  mem_of_length_le {p q : Vec3 K} : p ∈ region → (q - p).length ≤ |d p| → q ∈ region
  exists_zero {p : Vec3 K} : p ∈ region → ∃ q, d q = 0 ∧ (q - p).length = |d p|

theorem SignedDistance.of_feet {region : Set (Vec3 K)} {d : Vec3 K → K}
    (hregion : ∀ p, p ∈ region ↔ d p ≤ 0) (hgrowth : ∀ p q, d p ≤ d q + (p - q).length)
    (hfeet : ∀ p, ∃ q, d q = 0 ∧ (q - p).length = |d p|) : SignedDistance region d where
  mem_iff := hregion _
  exists_nearest {p} hp := by
    obtain ⟨q, hq, hlength⟩ := hfeet p
    rw [hregion, not_le] at hp
    exact ⟨q, (hregion q).2 hq.le, hlength.trans (abs_of_pos hp)⟩
  le_length {p q} _ hq := by
    have h := hgrowth p q
    rw [hregion] at hq
    rw [Vec3.length_sub_comm]
    linarith
  mem_of_length_le {p q} hp hle := by
    have h := hgrowth q p
    rw [hregion] at hp ⊢
    rw [abs_of_nonpos hp] at hle
    linarith
  exists_zero _ := hfeet _

/-! ## Balls, boxes and upright cylinders -/

/-- The points that a shape is made of, where nothing it is measured by is below zero. -/
inductive Fills : Set (Vec3 K) → Solid K → Prop where
  | ball (center : Vec3 K) {radius : K} : 0 ≤ radius →
      Fills {p | (p.x - center.x) ^ 2 + (p.y - center.y) ^ 2 + (p.z - center.z) ^ 2 ≤ radius ^ 2}
        (.sphere center radius)
  | box (center : Vec3 K) {halfExtents : Vec3 K} :
      0 ≤ halfExtents.x → 0 ≤ halfExtents.y → 0 ≤ halfExtents.z →
      Fills {p | |p.x - center.x| ≤ halfExtents.x ∧ |p.y - center.y| ≤ halfExtents.y ∧
        |p.z - center.z| ≤ halfExtents.z} (.box center halfExtents)
  | cylinder (center : Vec3 K) {radius halfLength : K} : 0 ≤ radius → 0 ≤ halfLength →
      Fills {p | (p.x - center.x) ^ 2 + (p.z - center.z) ^ 2 ≤ radius ^ 2 ∧
        |p.y - center.y| ≤ halfLength} (.cylinder center radius halfLength)

namespace Solid

variable (center p : Vec3 K)

theorem exists_sphere_distance_eq_zero {radius : K} (hr : 0 ≤ radius) :
    ∃ q, (sphere center radius).distance q = 0 ∧
      (q - p).length = |(sphere center radius).distance p| := by
  obtain ⟨w, hlength, hdiff, -⟩ := (p - center).exists_length_eq hr
  refine ⟨center + w, ?_, ?_⟩
  · have hw : center + w - center = w := by ext <;> simp
    simp [distance, hw, hlength]
  · have hw : center + w - p = w - (p - center) := by ext <;> simp <;> ring
    rw [hw, hdiff, distance, abs_sub_comm]

theorem exists_box_distance_eq_zero {halfExtents : Vec3 K} (hx : 0 ≤ halfExtents.x)
    (hy : 0 ≤ halfExtents.y) (hz : 0 ≤ halfExtents.z) :
    ∃ q, (box center halfExtents).distance q = 0 ∧
      (q - p).length = |(box center halfExtents).distance p| := by
  obtain ⟨f, hfoot⟩ := exists_foot ((p - center).abs - halfExtents)
  obtain ⟨x, hxf, hxp⟩ := exists_abs_sub_eq (p - center).x hx (by simpa using hfoot.x_eq)
  obtain ⟨y, hyf, hyp⟩ := exists_abs_sub_eq (p - center).y hy (by simpa using hfoot.y_eq)
  obtain ⟨z, hzf, hzp⟩ := exists_abs_sub_eq (p - center).z hz
    (by simpa using hfoot.z_eq.imp_right And.left)
  refine ⟨⟨x, y, z⟩ + center, ?_, ?_⟩
  · rw [distance, ← hfoot.overhangDistance_eq]
    congr 1
    ext <;> simp [hxf, hyf, hzf]
  · rw [distance, ← hfoot.length_eq]
    apply Vec3.length_eq_of_abs
    · simpa [sub_sub_eq_add_sub] using hxp
    · simpa [sub_sub_eq_add_sub] using hyp
    · simpa [sub_sub_eq_add_sub] using hzp

theorem cylinder_distance_eq (radius halfLength : K) :
    (cylinder center radius halfLength).distance p = planarOverhangDistance
      (planarLength (p - center).x (p - center).z - radius) (|(p - center).y| - halfLength) := by
  simp only [distance, ExactScalar.abs_eq]
  rw [abs_of_nonneg (planarLength_nonneg _ _)]

theorem exists_cylinder_distance_eq_zero {radius halfLength : K} (hr : 0 ≤ radius)
    (hl : 0 ≤ halfLength) :
    ∃ q, (cylinder center radius halfLength).distance q = 0 ∧
      (q - p).length = |(cylinder center radius halfLength).distance p| := by
  simp only [cylinder_distance_eq]
  obtain ⟨m, c, hzero, hlength, hm, hc⟩ := exists_planarFoot
    (planarLength (p - center).x (p - center).z - radius) (|(p - center).y| - halfLength)
  obtain ⟨x, z, hxzm, hxzp⟩ := exists_planarLength_sub_eq (p - center).x (p - center).z hr hm
  obtain ⟨y, hyc, hyp⟩ := exists_abs_sub_eq (p - center).y hl hc
  refine ⟨⟨x, y, z⟩ + center, ?_, ?_⟩
  · simpa [hxzm, hyc] using hzero
  · rw [← hlength]
    refine Vec3.length_eq_of_sq (planarLength_nonneg _ _) ?_
    rw [sq_planarLength, ← sq_abs (m - _), ← sq_abs (c - _), ← hxzp, ← hyp, sq_planarLength, sq_abs]
    simp only [Vec3.add_x, Vec3.add_y, Vec3.add_z, Vec3.sub_x, Vec3.sub_y, Vec3.sub_z]
    ring

end Solid

open Solid

/-- The distances of balls, boxes and upright cylinders are exact on both sides of their
surfaces. -/
theorem signedDistance_of_fills {region : Set (Vec3 K)} {s : Solid K} (h : Fills region s) :
    SignedDistance region s.distance := by
  cases h with
  | ball center hr =>
    refine .of_feet (fun p => ?_) (sphere_distance_le_add center · · _)
      (exists_sphere_distance_eq_zero center · hr)
    rw [distance, sub_nonpos, Vec3.length_le_iff hr]
    rfl
  | box center hx hy hz =>
    refine .of_feet (fun p => ?_) (box_distance_le_add center · · _)
      (exists_box_distance_eq_zero center · hx hy hz)
    simp [distance, overhangDistance_nonpos_iff]
  | @cylinder center radius halfLength hr hl =>
    refine .of_feet (fun p => ?_) (cylinder_distance_le_add center · · _ _)
      (exists_cylinder_distance_eq_zero center · hr hl)
    rw [cylinder_distance_eq, planarOverhangDistance_nonpos_iff, sub_nonpos, sub_nonpos,
      planarLength_eq, Vec3.length_le_iff hr]
    simp

/-- A drum, which reaches one all around its middle, and a disc, which is its own surface. -/
theorem signedDistance_of_fills_drum :
    let middle : Vec3 ℝ := ⟨1, 3, 0⟩
    let drum : Set (Vec3 ℝ) := {p | (p.x - 1) ^ 2 + (p.z - 0) ^ 2 ≤ 2 ^ 2 ∧ |p.y - 3| ≤ 1}
    let disc : Set (Vec3 ℝ) := {p | (p.x - 1) ^ 2 + (p.z - 0) ^ 2 ≤ 2 ^ 2 ∧ |p.y - 3| ≤ 0}
    (Fills drum (.cylinder middle 2 1) ∧
      SignedDistance drum (Solid.cylinder middle 2 1 : Solid ℝ).distance) ∧
    (Fills disc (.cylinder middle 2 0) ∧
      SignedDistance disc (Solid.cylinder middle 2 0 : Solid ℝ).distance) ∧
    (Solid.cylinder middle 2 1 : Solid ℝ).distance middle = -1 ∧
      (∀ q : Vec3 ℝ, (q - middle).length ≤ 1 → q ∈ drum) ∧
      ∃ q, (Solid.cylinder middle 2 1 : Solid ℝ).distance q = 0 ∧ (q - middle).length = 1 := by
  intro middle drum disc
  have hfills : Fills drum (.cylinder middle 2 1) := .cylinder middle zero_le_two zero_le_one
  have hflat : Fills disc (.cylinder middle 2 0) := .cylinder middle zero_le_two le_rfl
  have hdrum := signedDistance_of_fills hfills
  have hmiddle : (Solid.cylinder middle 2 1 : Solid ℝ).distance middle = -1 := by
    have hzero : planarLength (0 : ℝ) 0 = 0 := by
      rw [planarLength_eq]
      exact Vec3.length_eq_of_sq le_rfl (by norm_num)
    rw [cylinder_distance_eq]
    norm_num [planarOverhangDistance, hzero]
  have hmem : middle ∈ drum := hdrum.mem_iff.2 (by rw [hmiddle]; norm_num)
  have hreach : |(Solid.cylinder middle 2 1 : Solid ℝ).distance middle| = 1 := by
    rw [hmiddle, abs_neg, abs_one]
  refine ⟨⟨hfills, hdrum⟩, ⟨hflat, signedDistance_of_fills hflat⟩, hmiddle, fun q hq => ?_, ?_⟩
  · exact hdrum.mem_of_length_le hmem (hq.trans_eq hreach.symm)
  · obtain ⟨q, hzero, hlength⟩ := hdrum.exists_zero hmem
    exact ⟨q, hzero, hlength.trans hreach⟩

end SolidScene
