import SolidScene.Geometry.BoundingBox
import SolidScene.Proofs.Geometry.Matrix
import SolidScene.Proofs.Geometry.Overhang

/-!
# Boxes around points

What a box contains after it was built from another one. The hull of points contains every point
that no direction separates from all of them (`contains_hull_of_forall`), so that of a box's corners
moved by a matrix contains every moved point of the box.
-/

namespace SolidScene.BoundingBox

variable {K : Type} [Field K] [LinearOrder K] [ExactScalar K]

variable {a b : BoundingBox K} {p q : Vec3 K}

theorem contains_iff : b.contains p = true ↔ (b.lower.x ≤ p.x ∧ p.x ≤ b.upper.x) ∧
    (b.lower.y ≤ p.y ∧ p.y ≤ b.upper.y) ∧ (b.lower.z ≤ p.z ∧ p.z ≤ b.upper.z) := by
  simp only [contains, Bool.and_eq_true, ExactScalar.le_iff]
  tauto

theorem contains_union_left (h : a.contains p = true) : (a.union b).contains p = true := by
  rw [contains_iff] at h ⊢
  simp [union, h]

theorem contains_union_right (h : b.contains p = true) : (a.union b).contains p = true := by
  rw [contains_iff] at h ⊢
  simp [union, h]

/-! ## Hulls -/

theorem contains_foldl {points : List (Vec3 K)} (h : b.contains p = true ∨ p ∈ points) :
    (points.foldl (fun b p => ⟨b.lower.least p, b.upper.greatest p⟩) b).contains p = true := by
  induction points generalizing b with
  | nil => simpa using h
  | cons q points ih =>
    refine ih ?_
    rw [List.mem_cons] at h
    rcases h with h | rfl | h
    · rw [contains_iff] at h ⊢
      simp [h]
    · left
      rw [contains_iff]
      simp
    · exact .inr h

theorem contains_hull {points : List (Vec3 K)} (h : p ∈ points) : (hull points).contains p = true :=
  contains_foldl (.inr h)

variable [IsStrictOrderedRing K]

theorem contains_around_iff {center reach : Vec3 K} : (around center reach).contains p = true ↔
    |(p - center).x| ≤ reach.x ∧ |(p - center).y| ≤ reach.y ∧ |(p - center).z| ≤ reach.z := by
  rw [contains_iff]
  simp only [around, Vec3.sub_x, Vec3.sub_y, Vec3.sub_z, Vec3.add_x, Vec3.add_y, Vec3.add_z, abs_le]
  refine and_congr ?_ (and_congr ?_ ?_) <;> constructor <;> rintro ⟨_, _⟩ <;>
    constructor <;> linarith

theorem contains_cube_iff {reach : K} : (cube reach).contains p = true ↔
    |p.x| ≤ reach ∧ |p.y| ≤ reach ∧ |p.z| ≤ reach := by
  simp only [contains_iff, cube, Vec3.uniform_x, Vec3.uniform_y, Vec3.uniform_z, abs_le]

theorem contains_cube_of_le {reach reach' : K} (hle : reach ≤ reach')
    (h : (cube reach).contains p = true) : (cube reach').contains p = true := by
  rw [contains_cube_iff] at h ⊢
  exact ⟨h.1.trans hle, h.2.1.trans hle, h.2.2.trans hle⟩

/-- A point is in the hull of points if in every direction one of them is behind it. -/
theorem contains_hull_of_forall {points : List (Vec3 K)}
    (h : ∀ n : Vec3 K, ∃ q ∈ points, n.dot q ≤ n.dot p) : (hull points).contains p = true := by
  have hcontains : ∀ q ∈ points, _ := fun q hq => contains_iff.1 (contains_hull hq)
  rw [contains_iff]
  refine ⟨⟨?_, ?_⟩, ⟨?_, ?_⟩, ?_, ?_⟩
  · obtain ⟨q, hq, hle⟩ := h ⟨1, 0, 0⟩
    exact (hcontains q hq).1.1.trans (by simpa [Vec3.dot] using hle)
  · obtain ⟨q, hq, hle⟩ := h ⟨-1, 0, 0⟩
    exact le_trans (by simpa [Vec3.dot] using hle) (hcontains q hq).1.2
  · obtain ⟨q, hq, hle⟩ := h ⟨0, 1, 0⟩
    exact (hcontains q hq).2.1.1.trans (by simpa [Vec3.dot] using hle)
  · obtain ⟨q, hq, hle⟩ := h ⟨0, -1, 0⟩
    exact le_trans (by simpa [Vec3.dot] using hle) (hcontains q hq).2.1.2
  · obtain ⟨q, hq, hle⟩ := h ⟨0, 0, 1⟩
    exact (hcontains q hq).2.2.1.trans (by simpa [Vec3.dot] using hle)
  · obtain ⟨q, hq, hle⟩ := h ⟨0, 0, -1⟩
    exact le_trans (by simpa [Vec3.dot] using hle) (hcontains q hq).2.2.2

omit [ExactScalar K] in
theorem exists_end_mul_le {l x u : K} (hl : l ≤ x) (hu : x ≤ u) (n : K) :
    ∃ e, (e = l ∨ e = u) ∧ n * e ≤ n * x := by
  rcases le_total 0 n with hn | hn
  · exact ⟨l, .inl rfl, mul_le_mul_of_nonneg_left hl hn⟩
  · exact ⟨u, .inr rfl, mul_le_mul_of_nonpos_left hu hn⟩

/-- In every direction a corner of the box is behind a point in it. -/
theorem exists_corner_dot_le (h : b.contains p = true) (n : Vec3 K) :
    ∃ c ∈ b.corners, n.dot c ≤ n.dot p := by
  obtain ⟨⟨hlx, hux⟩, ⟨hly, huy⟩, hlz, huz⟩ := contains_iff.1 h
  obtain ⟨x, hx, hxle⟩ := exists_end_mul_le hlx hux n.x
  obtain ⟨y, hy, hyle⟩ := exists_end_mul_le hly huy n.y
  obtain ⟨z, hz, hzle⟩ := exists_end_mul_le hlz huz n.z
  refine ⟨⟨x, y, z⟩, ?_, add_le_add (add_le_add hxle hyle) hzle⟩
  rcases hx with rfl | rfl <;> rcases hy with rfl | rfl <;> rcases hz with rfl | rfl <;>
    simp [corners]

/-- The box around the moved corners contains the moved points. -/
theorem contains_hull_corners (h : b.contains p = true) (m : Matrix4 K) :
    (hull (b.corners.map m.transform)).contains (m.transform p) = true := by
  refine contains_hull_of_forall fun n => ?_
  obtain ⟨c, hc, hle⟩ := exists_corner_dot_le h
    ⟨n.dot m.x.toVec3, n.dot m.y.toVec3, n.dot m.z.toVec3⟩
  refine ⟨m.transform c, List.mem_map_of_mem hc, ?_⟩
  simp only [Vec3.dot, Vec4.toVec3, Matrix4.transform_x, Matrix4.transform_y,
    Matrix4.transform_z] at hle ⊢
  linear_combination hle

/-! ## Scaled and expanded boxes -/

omit [ExactScalar K] in
theorem mul_mem_between {l x u : K} (hl : l ≤ x) (hu : x ≤ u) (k : K) :
    min (l * k) (u * k) ≤ x * k ∧ x * k ≤ max (l * k) (u * k) := by
  rcases le_total 0 k with hk | hk
  · exact ⟨min_le_of_left_le (mul_le_mul_of_nonneg_right hl hk),
      le_max_of_le_right (mul_le_mul_of_nonneg_right hu hk)⟩
  · exact ⟨min_le_of_right_le (mul_le_mul_of_nonpos_right hu hk),
      le_max_of_le_left (mul_le_mul_of_nonpos_right hl hk)⟩

theorem contains_scale (h : b.contains p = true) (k : K) :
    (⟨(b.lower.scale k).least (b.upper.scale k), (b.lower.scale k).greatest (b.upper.scale k)⟩ :
      BoundingBox K).contains (p.scale k) = true := by
  obtain ⟨hx, hy, hz⟩ := contains_iff.1 h
  rw [contains_iff]
  simp only [Vec3.least_x, Vec3.least_y, Vec3.least_z, Vec3.greatest_x, Vec3.greatest_y,
    Vec3.greatest_z, Vec3.scale_x, Vec3.scale_y, Vec3.scale_z]
  exact ⟨mul_mem_between hx.1 hx.2 k, mul_mem_between hy.1 hy.2 k, mul_mem_between hz.1 hz.2 k⟩

/-- A point no farther from a point of the box than the margin is in the expanded box. -/
theorem contains_expand {margin : K} (h : b.contains q = true) (hpq : (p - q).length ≤ margin) :
    (b.expand margin).contains p = true := by
  obtain ⟨hx, hy, hz⟩ := contains_iff.1 h
  have hx' := abs_le.1 ((p - q).abs_x_le_length.trans hpq)
  have hy' := abs_le.1 ((p - q).abs_y_le_length.trans hpq)
  have hz' := abs_le.1 ((p - q).abs_z_le_length.trans hpq)
  simp only [Vec3.sub_x, Vec3.sub_y, Vec3.sub_z] at hx' hy' hz'
  rw [contains_iff]
  simp only [expand, Vec3.sub_x, Vec3.sub_y, Vec3.sub_z, Vec3.add_x, Vec3.add_y, Vec3.add_z,
    Vec3.uniform_x, Vec3.uniform_y, Vec3.uniform_z]
  refine ⟨⟨?_, ?_⟩, ⟨?_, ?_⟩, ?_, ?_⟩ <;> linarith

/-! ## The nearest point of a box -/

omit [ExactScalar K] in
theorem exists_nearest {reach : K} (h : 0 ≤ reach) (x center : K) :
    ∃ y, (center - reach ≤ y ∧ y ≤ center + reach) ∧ |x - y| = max (|x - center| - reach) 0 := by
  rcases le_or_gt |x - center| reach with hin | hout
  · refine ⟨x, ⟨?_, ?_⟩, by simp [hin]⟩ <;> linarith [abs_le.1 hin]
  rcases le_total center x with hx | hx
  · rw [abs_of_nonneg (sub_nonneg.2 hx)] at hout ⊢
    refine ⟨center + reach, ⟨by linarith, le_rfl⟩, ?_⟩
    rw [max_eq_left (by linarith), abs_of_nonneg (by linarith)]
    ring
  · rw [abs_of_nonpos (sub_nonpos.2 hx)] at hout ⊢
    refine ⟨center - reach, ⟨le_rfl, by linarith⟩, ?_⟩
    rw [max_eq_left (by linarith), abs_of_nonpos (by linarith)]
    ring

/-- Where the distance to a box is at most `t`, a point of the box is as near. -/
theorem exists_contains_around {center reach p : Vec3 K} {t : K} (hx : 0 ≤ reach.x)
    (hy : 0 ≤ reach.y) (hz : 0 ≤ reach.z) (ht : 0 ≤ t)
    (h : overhangDistance ((p - center).abs - reach) ≤ t) :
    ∃ q, (around center reach).contains q = true ∧ (p - q).length ≤ t := by
  obtain ⟨x, hx, hpx⟩ := exists_nearest hx p.x center.x
  obtain ⟨y, hy, hpy⟩ := exists_nearest hy p.y center.y
  obtain ⟨z, hz, hpz⟩ := exists_nearest hz p.z center.z
  refine ⟨⟨x, y, z⟩, contains_iff.2 ⟨hx, hy, hz⟩, ?_⟩
  refine (Vec3.length_le_length ?_ ?_ ?_).trans (length_greatest_le ht h)
  · simpa only [Vec3.greatest_x, Vec3.sub_x, Vec3.abs_x, Vec3.uniform_x, ← hpx, abs_abs]
      using le_rfl
  · simpa only [Vec3.greatest_y, Vec3.sub_y, Vec3.abs_y, Vec3.uniform_y, ← hpy, abs_abs]
      using le_rfl
  · simpa only [Vec3.greatest_z, Vec3.sub_z, Vec3.abs_z, Vec3.uniform_z, ← hpz, abs_abs]
      using le_rfl

end SolidScene.BoundingBox
