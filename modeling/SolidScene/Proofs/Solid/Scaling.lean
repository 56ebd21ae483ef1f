import SolidScene.Proofs.Geometry.BoundingBox
import SolidScene.Proofs.Solid.Placement
import SolidScene.Solid.Bounds

/-!
# Solids scaled by a factor and by a matrix

Exactly, a solid scaled by a factor has the box of the solid that the matrix of the factor moves,
and its distances times the size of the factor, as a matrix leaves distances as they were
(`scaled_agrees_placed`). The hull of the moved corners starts from the ends of the range of finite
numbers, so the boxes agree where their coordinates are in it.
-/

namespace SolidScene

variable {K : Type} [Field K] [LinearOrder K]

/-! ## Boxes from corners -/

namespace BoundingBox

/-- No coordinate is beyond the numbers that no finite one exceeds. -/
def InRange [Scalar K] (b : BoundingBox K) : Prop :=
  ∀ x ∈ b.lower.toList ++ b.upper.toList, |x| ≤ Scalar.largest

variable [ExactScalar K]

theorem hull_corners (b : BoundingBox K) : hull b.corners =
    ⟨(Vec3.uniform Scalar.largest).least (b.lower.least b.upper),
      (Vec3.uniform (-Scalar.largest)).greatest (b.lower.greatest b.upper)⟩ := by
  simp only [hull, corners, List.foldl_cons, List.foldl_nil, mk.injEq, Vec3.ext_iff, Vec3.least_x,
    Vec3.least_y, Vec3.least_z, Vec3.greatest_x, Vec3.greatest_y, Vec3.greatest_z]
  refine ⟨⟨?_, ?_, ?_⟩, ?_, ?_, ?_⟩ <;> ac_rfl

variable [IsStrictOrderedRing K]

/-- In range, the hull of a box's corners is the box, whichever of its corners is the lower one. -/
theorem hull_corners_of_inRange {b : BoundingBox K}
    (h : InRange ⟨b.lower.least b.upper, b.lower.greatest b.upper⟩) :
    hull b.corners = ⟨b.lower.least b.upper, b.lower.greatest b.upper⟩ := by
  simp only [InRange, Vec3.toList, List.cons_append, List.nil_append, List.forall_mem_cons] at h
  obtain ⟨hlx, hly, hlz, hux, huy, huz, -⟩ := h
  rw [hull_corners, mk.injEq, Vec3.ext_iff, Vec3.ext_iff]
  simp only [Vec3.least_x, Vec3.least_y, Vec3.least_z, Vec3.greatest_x, Vec3.greatest_y,
    Vec3.greatest_z, Vec3.uniform_x, Vec3.uniform_y, Vec3.uniform_z, min_eq_right_iff,
    max_eq_right_iff] at *
  exact ⟨⟨(abs_le.1 hlx).2, (abs_le.1 hly).2, (abs_le.1 hlz).2⟩, (abs_le.1 hux).1,
    (abs_le.1 huy).1, (abs_le.1 huz).1⟩

end BoundingBox

variable [IsStrictOrderedRing K] [ExactScalar K]

/-- There is a placement by just the scalings other than zero whose numbers are finite. -/
theorem Placement.ofMatrix?_scaling_iff {k : K} {placement : Placement K} :
    ofMatrix? (.scaling k) = some placement ↔ placement = ⟨.scaling k, .scaling k⁻¹⟩ ∧ k ≠ 0 ∧
      ∀ x ∈ [0, 1, k, k⁻¹, k ^ 3], Scalar.isFinite x = true := by
  constructor
  · intro h
    obtain ⟨hzero, hdeterminant, hmatrix, hinverse, rfl⟩ := ofMatrix?_eq_some_iff.1 h
    have hk : k ≠ 0 := by simpa [Matrix4.determinant_scaling] using hzero
    rw [Matrix4.inverse_scaling hk] at hinverse ⊢
    rw [Matrix4.determinant_scaling] at hdeterminant
    simp only [Matrix4.all, Matrix4.scaling, Matrix4.ofRows, Matrix4.transpose, Vec4.all,
      Bool.and_eq_true] at hmatrix hinverse
    refine ⟨rfl, hk, ?_⟩
    simp [hmatrix, hinverse, hdeterminant]
  · rintro ⟨rfl, hk, hfinite⟩
    exact ofMatrix?_scaling hk hfinite

namespace Solid

variable {factor : K} {inner : Solid K}

omit [IsStrictOrderedRing K] in
theorem distance_scaled_eq (factor : K) (inner : Solid K) (p : Vec3 K) :
    (scaled factor inner).distance p =
      |factor| * (placed ⟨.scaling factor, .scaling factor⁻¹⟩ inner).distance p := by
  simp only [distance, ExactScalar.abs_eq, Matrix4.transform_scaling, Vec3.divide_eq_scale]
  exact mul_comm _ _

theorem bounds_scaled_eq (h : (scaled factor inner).bounds.InRange) :
    (scaled factor inner).bounds =
      (placed ⟨.scaling factor, .scaling factor⁻¹⟩ inner).bounds := by
  have hcorners : inner.bounds.corners.map (Matrix4.scaling factor).transform =
      (⟨inner.bounds.lower.scale factor, inner.bounds.upper.scale factor⟩ :
        BoundingBox K).corners := by
    simp only [BoundingBox.corners, List.map_cons, List.map_nil, Matrix4.transform_scaling]
    rfl
  simp only [bounds, hcorners]
  exact (BoundingBox.hull_corners_of_inRange
    (b := ⟨inner.bounds.lower.scale factor, inner.bounds.upper.scale factor⟩) h).symm

/-- Scaling by a factor agrees with the matrix of the factor, which has a placement for just the
factors other than zero whose numbers are finite: in its box, as far as that is in range, and in its
distances, which are scaled as well. -/
theorem scaled_agrees_placed (factor : K) :
    ((∃ placement, Placement.ofMatrix? (.scaling factor) = some placement) ↔
      factor ≠ 0 ∧ ∀ x ∈ [0, 1, factor, factor⁻¹, factor ^ 3], Scalar.isFinite x = true) ∧
    ∀ placement, Placement.ofMatrix? (.scaling factor) = some placement → ∀ inner : Solid K,
      ((scaled factor inner).bounds.InRange →
        (scaled factor inner).bounds = (placed placement inner).bounds) ∧
      ∀ p, (scaled factor inner).distance p =
        |factor| * (placed placement inner).distance p := by
  constructor
  · simp only [Placement.ofMatrix?_scaling_iff, exists_eq_left]
  · intro placement h inner
    obtain ⟨rfl, -⟩ := Placement.ofMatrix?_scaling_iff.1 h
    exact ⟨bounds_scaled_eq, distance_scaled_eq factor inner⟩

/-- A box turned round and doubled. -/
theorem scaled_agrees_placed_turned :
    let box : Solid ℝ := .box ⟨1, 0, 0⟩ ⟨1, 2, 3⟩
    ∃ placement, Placement.ofMatrix? (.scaling (-2)) = some placement ∧
      (scaled (-2) box).bounds.InRange ∧
      (scaled (-2) box).bounds = (placed placement box).bounds ∧
      (scaled (-2) box).distance ⟨1, 0, 0⟩ = 2 * (placed placement box).distance ⟨1, 0, 0⟩ := by
  intro box
  have hfinite : ∀ x ∈ [0, 1, (-2 : ℝ), (-2)⁻¹, (-2) ^ 3], Scalar.isFinite x = true := by
    simp only [List.forall_mem_cons]
    refine ⟨?_, ?_, ?_, ?_, ?_, List.forall_mem_nil _⟩ <;>
      exact ExactScalar.isFinite_of_abs_le (by norm_num)
  obtain ⟨hplacement, hagrees⟩ := scaled_agrees_placed (-2 : ℝ)
  obtain ⟨placement, h⟩ := hplacement.2 ⟨by norm_num, hfinite⟩
  have hrange : (scaled (-2) box).bounds.InRange := by
    suffices hle : ∀ x ∈ (scaled (-2) box).bounds.lower.toList ++
        (scaled (-2) box).bounds.upper.toList, |x| ≤ 2 ^ 53 - 1 from
      fun x hx => of_decide_eq_true (ExactScalar.isFinite_of_abs_le (hle x hx))
    simp only [box, bounds, BoundingBox.around, Vec3.toList, List.cons_append, List.nil_append,
      List.forall_mem_cons, Vec3.least_x, Vec3.least_y, Vec3.least_z, Vec3.greatest_x,
      Vec3.greatest_y, Vec3.greatest_z, Vec3.scale_x, Vec3.scale_y, Vec3.scale_z, Vec3.sub_x,
      Vec3.sub_y, Vec3.sub_z, Vec3.add_x, Vec3.add_y, Vec3.add_z]
    norm_num
  obtain ⟨hbounds, hdistance⟩ := hagrees placement h box
  have hdistance := hdistance ⟨1, 0, 0⟩
  rw [abs_neg, abs_two] at hdistance
  exact ⟨placement, h, hrange, hbounds hrange, hdistance⟩

end Solid

end SolidScene
