import SolidScene.Proofs.Geometry.Matrix
import SolidScene.Proofs.Solid.WellFormed
import SolidScene.Solid.Distance

/-!
# Solids moved by a matrix

Exactly, the distance to a placed solid at the place where its matrix takes a point is that of the
solid at the point, for every solid and every point, just where the last row of the matrix is
`0 0 0 1` or it has no translation (`distance_placed_transform_iff`). With another last row the
fourth coordinate of the image is lost on the way there and the solid appears somewhere else.
-/

namespace SolidScene

variable {K : Type} [Field K] [LinearOrder K] [IsStrictOrderedRing K] [ExactScalar K]

namespace Placement

variable {m : Matrix4 K} {placement : Placement K}

theorem determinant_ne_zero (h : ofMatrix? m = some placement) : m.determinant ≠ 0 := by
  intro hzero
  have heq := (ofMatrix?_eq_some_iff.1 h).1
  simp [hzero] at heq

theorem inverse_mul (h : ofMatrix? m = some placement) :
    placement.inverse.toMatrix * m.toMatrix = 1 := by
  obtain ⟨-, -, -, -, rfl⟩ := ofMatrix?_eq_some_iff.1 h
  exact Matrix4.toMatrix_inverse_mul (determinant_ne_zero h)

theorem mul_inverse (h : ofMatrix? m = some placement) :
    m.toMatrix * placement.inverse.toMatrix = 1 :=
  mul_eq_one_comm.1 (inverse_mul h)

/-- An affine matrix takes points where its inverse took them from. -/
theorem transform_inverse (h : ofMatrix? m = some placement) (hm : m.IsAffine) (p : Vec3 K) :
    m.transform (placement.inverse.transform p) = p :=
  (hm.of_mul_eq_one (mul_inverse h)).transform_transform (mul_inverse h) p

/-- There is a placement by every scaling whose numbers are finite. -/
theorem ofMatrix?_scaling {k : K} (hk : k ≠ 0)
    (hfinite : ∀ x ∈ [0, 1, k, k⁻¹, k ^ 3], Scalar.isFinite x = true) :
    ofMatrix? (.scaling k) = some ⟨.scaling k, .scaling k⁻¹⟩ := by
  simp only [List.forall_mem_cons] at hfinite
  obtain ⟨h0, h1, hscale, hinverse, hdeterminant, -⟩ := hfinite
  have hall : ∀ x : K, Scalar.isFinite x = true →
      (Matrix4.scaling x).all Scalar.isFinite = true := fun x hx => by
    simp [Matrix4.all, Matrix4.scaling, Matrix4.ofRows, Matrix4.transpose, Vec4.all, h0, h1, hx]
  refine ofMatrix?_eq_some_iff.2 ⟨?_, ?_, hall k hscale, ?_, ?_⟩
  · simp [Matrix4.determinant_scaling, hk]
  · rw [Matrix4.determinant_scaling, hdeterminant]
  · rw [Matrix4.inverse_scaling hk, hall k⁻¹ hinverse]
  · rw [Matrix4.inverse_scaling hk]

/-- There is one by every real scaling that does not shrink and that numbers can hold. -/
theorem ofMatrix?_scaling_real {k : ℝ} (hk : 1 ≤ k) (hle : k ≤ 2 ^ 17) :
    ofMatrix? (.scaling k) = some ⟨.scaling k, .scaling k⁻¹⟩ := by
  have hpos := zero_lt_one.trans_le hk
  have hinv := inv_le_one_of_one_le₀ hk
  have hcube : k ^ 3 ≤ (2 ^ 17) ^ 3 := pow_le_pow_left₀ hpos.le hle 3
  refine ofMatrix?_scaling hpos.ne' ?_
  suffices hle : ∀ x ∈ [0, 1, k, k⁻¹, k ^ 3], |x| ≤ 2 ^ 53 - 1 from
    fun x hx => ExactScalar.isFinite_of_abs_le (hle x hx)
  simp only [List.forall_mem_cons]
  refine ⟨?_, ?_, ?_, ?_, ?_, List.forall_mem_nil _⟩
  · norm_num
  · norm_num
  · rw [abs_of_pos hpos]
    linarith
  · rw [abs_of_pos (inv_pos.2 hpos)]
    linarith
  · rw [abs_of_pos (pow_pos hpos 3)]
    linarith

end Placement

namespace Solid

open ExactScalar (isFinite_of_abs_le)

variable {m : Matrix4 K} {placement : Placement K}

omit [IsStrictOrderedRing K] in
theorem checked_placed_iff {inner : Solid K} :
    (placed placement inner).Checked ↔ Placement.ofMatrix? placement.matrix = some placement :=
  ⟨fun h => h.usable,
    fun h => ⟨(Placement.of_ofMatrix? h).2, by simp [radii], by simp [halves], h⟩⟩

/-- The distances to all solids together tell two points apart. -/
theorem eq_of_distance {p q : Vec3 K} (h : ∀ s : Solid K, s.distance p = s.distance q) : p = q := by
  refine Vec3.eq_of_length_sub_nonpos ?_
  have hzero : (q - q).length = 0 := Vec3.length_eq_of_sq le_rfl (by simp)
  have hq := h (.sphere q 0)
  simp only [distance, hzero, sub_zero] at hq
  exact hq.le

/-- A matrix shows every solid moved by it just where its last row is `0 0 0 1` or it has no
translation. -/
theorem distance_placed_transform_iff (h : Placement.ofMatrix? m = some placement) :
    (∀ (inner : Solid K) (x : Vec3 K),
      (placed placement inner).distance (m.transform x) = inner.distance x) ↔
    m.IsAffine ∨ m.translation = ⟨0, 0, 0⟩ := by
  have hback (x : Vec3 K) := Matrix4.transform_transform (Placement.inverse_mul h) x
  constructor
  · intro hdistance
    -- what is lost in the fourth coordinate moves no point, so nothing is lost or nothing moves
    have hlost : ∀ x, placement.inverse.translation.scale (1 - m.fourth x) = ⟨0, 0, 0⟩ := by
      intro x
      have hx := (hback x).symm.trans (eq_of_distance fun inner => hdistance inner x)
      simp only [Vec3.ext_iff, Vec3.add_x, Vec3.add_y, Vec3.add_z, add_eq_left] at hx
      exact Vec3.ext hx.1 hx.2.1 hx.2.2
    by_cases hfourth : ∀ x, m.fourth x = 1
    · exact .inl (Matrix4.isAffine_iff.2 hfourth)
    · obtain ⟨x, hx⟩ := not_forall.1 hfourth
      have hne : 1 - m.fourth x ≠ 0 := sub_ne_zero.2 (Ne.symm hx)
      refine .inr (Matrix4.translation_eq_zero (Placement.mul_inverse h) ?_)
      have hx := hlost x
      simp only [Vec3.ext_iff, Vec3.scale_x, Vec3.scale_y, Vec3.scale_z, mul_eq_zero, hne,
        or_false] at hx
      exact Vec3.ext hx.1 hx.2.1 hx.2.2
  · rintro (haffine | htranslation) inner x
    · exact congrArg inner.distance (haffine.transform_transform (Placement.inverse_mul h) x)
    · have hzero := Matrix4.translation_eq_zero (Placement.inverse_mul h) htranslation
      refine congrArg inner.distance ((hback x).trans ?_)
      rw [hzero]
      ext <;> simp

/-- Every solid appears twice as large where the matrix doubles it. -/
theorem distance_placed_transform_doubled :
    Placement.ofMatrix? (.scaling (2 : ℝ)) = some ⟨.scaling 2, .scaling 2⁻¹⟩ ∧
      ∀ (inner : Solid ℝ) (x : Vec3 ℝ), (placed ⟨.scaling 2, .scaling 2⁻¹⟩ inner).distance
        ((Matrix4.scaling 2).transform x) = inner.distance x :=
  have h := Placement.ofMatrix?_scaling_real one_le_two (by norm_num)
  ⟨h, (distance_placed_transform_iff h).2 (.inl (Matrix4.isAffine_scaling 2))⟩

/-- With the last row `0 0 0 2` a ball is shown half as far away as its matrix moves it. -/
theorem distance_placed_transform_ne :
    let m : Matrix4 ℝ := .ofRows ⟨1, 0, 0, 1⟩ ⟨0, 1, 0, 0⟩ ⟨0, 0, 1, 0⟩ ⟨0, 0, 0, 2⟩
    let ball : Solid ℝ := .sphere ⟨0, 0, 0⟩ 1
    ∃ placement, Placement.ofMatrix? m = some placement ∧ m.transform ⟨0, 0, 0⟩ = ⟨1, 0, 0⟩ ∧
      (placed placement ball).distance ⟨1, 0, 0⟩ = -1 / 2 ∧ ball.distance ⟨0, 0, 0⟩ = -1 := by
  intro m ball
  have hinverse : m.inverse =
      .ofRows ⟨1, 0, 0, -1 / 2⟩ ⟨0, 1, 0, 0⟩ ⟨0, 0, 1, 0⟩ ⟨0, 0, 0, 1 / 2⟩ := by
    norm_num [m, Matrix4.inverse, Matrix4.adjugate, Matrix4.expand, Matrix4.minors,
      Matrix4.minor, Matrix4.leads, Matrix4.ofRows, Matrix4.transpose, Vec4.scale, Vec4.map]
  have hdeterminant : m.determinant = 2 := by
    norm_num [m, Matrix4.determinant, Matrix4.adjugate, Matrix4.expand, Matrix4.minors,
      Matrix4.minor, Matrix4.leads, Matrix4.ofRows, Matrix4.transpose]
  refine ⟨⟨m, m.inverse⟩, Placement.ofMatrix?_eq_some_iff.2 ⟨?_, ?_, ?_, ?_, rfl⟩, ?_, ?_, ?_⟩
  · simp [hdeterminant]
  · rw [hdeterminant]
    exact isFinite_of_abs_le (by norm_num)
  · simp (disch := norm_num) [m, Matrix4.all, Vec4.all, Matrix4.ofRows, Matrix4.transpose,
      isFinite_of_abs_le]
  · rw [hinverse]
    simp (disch := norm_num) [Matrix4.all, Vec4.all, Matrix4.ofRows, Matrix4.transpose,
      isFinite_of_abs_le]
  · ext <;> simp [m, Matrix4.ofRows, Matrix4.transpose]
  · have hback : m.inverse.transform ⟨1, 0, 0⟩ = ⟨1 / 2, 0, 0⟩ := by
      rw [hinverse]
      ext <;> norm_num [Matrix4.ofRows, Matrix4.transpose]
    have hlength : (⟨1 / 2, 0, 0⟩ - ⟨0, 0, 0⟩ : Vec3 ℝ).length = 1 / 2 :=
      Vec3.length_eq_of_sq (by norm_num) (by norm_num)
    simp only [ball, distance, hback, hlength]
    norm_num
  · have hlength : (⟨0, 0, 0⟩ - ⟨0, 0, 0⟩ : Vec3 ℝ).length = 0 :=
      Vec3.length_eq_of_sq le_rfl (by norm_num)
    simp only [ball, distance, hlength]
    norm_num

end Solid

end SolidScene
