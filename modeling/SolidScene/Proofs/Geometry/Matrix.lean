import SolidScene.Geometry.Matrix
import SolidScene.Proofs.Geometry.Length

/-!
# Matrices and their inverses

Exactly, a matrix with a determinant other than zero and its inverse undo each other in products
(`toMatrix_inverse_mul`). On points they do so only as far as the fourth coordinate of the image,
which is dropped, is one (`transform_transform`): for every point where the last row is `0 0 0 1`.
-/

namespace SolidScene

variable {K : Type} [Field K]

namespace Vec4

variable (v w : Vec4 K) (k : K)

@[simp] theorem add_x : (v + w).x = v.x + w.x := rfl

@[simp] theorem add_y : (v + w).y = v.y + w.y := rfl

@[simp] theorem add_z : (v + w).z = v.z + w.z := rfl

@[simp] theorem add_w : (v + w).w = v.w + w.w := rfl

@[simp] theorem sub_x : (v - w).x = v.x - w.x := rfl

@[simp] theorem sub_y : (v - w).y = v.y - w.y := rfl

@[simp] theorem sub_z : (v - w).z = v.z - w.z := rfl

@[simp] theorem sub_w : (v - w).w = v.w - w.w := rfl

@[simp] theorem mul_x : (v * w).x = v.x * w.x := rfl

@[simp] theorem mul_y : (v * w).y = v.y * w.y := rfl

@[simp] theorem mul_z : (v * w).z = v.z * w.z := rfl

@[simp] theorem mul_w : (v * w).w = v.w * w.w := rfl

@[simp] theorem scale_x : (v.scale k).x = v.x * k := rfl

@[simp] theorem scale_y : (v.scale k).y = v.y * k := rfl

@[simp] theorem scale_z : (v.scale k).z = v.z * k := rfl

@[simp] theorem scale_w : (v.scale k).w = v.w * k := rfl

end Vec4

namespace Matrix4

/-! ## Products -/

def toMatrix (m : Matrix4 K) : Matrix (Fin 4) (Fin 4) K :=
  !![m.x.x, m.y.x, m.z.x, m.w.x; m.x.y, m.y.y, m.z.y, m.w.y;
    m.x.z, m.y.z, m.z.z, m.w.z; m.x.w, m.y.w, m.z.w, m.w.w]

theorem toMatrix_adjugate_mul (m : Matrix4 K) :
    m.adjugate.toMatrix * m.toMatrix = m.determinant • 1 := by
  ext i j
  fin_cases i <;> fin_cases j <;>
    simp [toMatrix, adjugate, determinant, expand, minors, minor, leads, Matrix.mul_apply,
      Fin.sum_univ_four] <;>
    ring

/-! ## Points -/

section Points

variable (m : Matrix4 K) (p : Vec3 K)

@[simp] theorem transform_x :
    (m.transform p).x = m.w.x + (m.z.x * p.z + (m.y.x * p.y + m.x.x * p.x)) := rfl

@[simp] theorem transform_y :
    (m.transform p).y = m.w.y + (m.z.y * p.z + (m.y.y * p.y + m.x.y * p.x)) := rfl

@[simp] theorem transform_z :
    (m.transform p).z = m.w.z + (m.z.z * p.z + (m.y.z * p.y + m.x.z * p.x)) := rfl

/-- The way between the places where a matrix takes two points, from the way between the points. -/
def linear (m : Matrix4 K) (v : Vec3 K) : Vec3 K := m.transform v - m.transform ⟨0, 0, 0⟩

theorem transform_sub_transform (q : Vec3 K) :
    m.transform p - m.transform q = m.linear (p - q) := by
  ext <;> simp [linear] <;> ring

theorem linear_scale (v : Vec3 K) (k : K) : m.linear (v.scale k) = (m.linear v).scale k := by
  ext <;> simp [linear] <;> ring

/-- The fourth coordinate of the place where a matrix takes a point. -/
def fourth : K := m.w.w + (m.z.w * p.z + (m.y.w * p.y + m.x.w * p.x))

/-- The part of a matrix that moves every point alike. -/
def translation : Vec3 K := m.w.toVec3

/-- A matrix with the last row `0 0 0 1`. -/
structure IsAffine : Prop where
  x_w : m.x.w = 0
  y_w : m.y.w = 0
  z_w : m.z.w = 0
  w_w : m.w.w = 1

end Points

variable {m n : Matrix4 K}

theorem isAffine_iff : m.IsAffine ↔ ∀ p, m.fourth p = 1 := by
  constructor
  · intro h p
    simp [fourth, h.x_w, h.y_w, h.z_w, h.w_w]
  · intro h
    have hw : m.w.w = 1 := by simpa [fourth] using h ⟨0, 0, 0⟩
    exact ⟨by simpa [fourth, hw] using h ⟨1, 0, 0⟩, by simpa [fourth, hw] using h ⟨0, 1, 0⟩,
      by simpa [fourth, hw] using h ⟨0, 0, 1⟩, hw⟩

theorem toMatrix_mulVec (m : Matrix4 K) (p : Vec3 K) :
    m.toMatrix.mulVec ![p.x, p.y, p.z, 1] =
      ![(m.transform p).x, (m.transform p).y, (m.transform p).z, m.fourth p] := by
  ext i
  fin_cases i <;> simp [toMatrix, Matrix.mulVec, dotProduct, Fin.sum_univ_four, fourth] <;> ring

/-- What takes the four coordinates of a point's image back takes them back to the point. -/
theorem mulVec_transform (h : n.toMatrix * m.toMatrix = 1) (p : Vec3 K) :
    n.toMatrix.mulVec ![(m.transform p).x, (m.transform p).y, (m.transform p).z, m.fourth p] =
      ![p.x, p.y, p.z, 1] := by
  rw [← toMatrix_mulVec, Matrix.mulVec_mulVec, h, Matrix.one_mulVec]

/-- A matrix takes a point back from where another took it, but for its translation, as often as the
dropped coordinate lacks to one. -/
theorem transform_transform (h : n.toMatrix * m.toMatrix = 1) (p : Vec3 K) :
    n.transform (m.transform p) = p + n.translation.scale (1 - m.fourth p) := by
  have hback := mulVec_transform h p
  set q := m.transform p
  have hx : n.x.x * q.x + n.y.x * q.y + n.z.x * q.z + n.w.x * m.fourth p = p.x := by
    simpa [toMatrix, Matrix.mulVec, dotProduct, Fin.sum_univ_four] using congrFun hback 0
  have hy : n.x.y * q.x + n.y.y * q.y + n.z.y * q.z + n.w.y * m.fourth p = p.y := by
    simpa [toMatrix, Matrix.mulVec, dotProduct, Fin.sum_univ_four] using congrFun hback 1
  have hz : n.x.z * q.x + n.y.z * q.y + n.z.z * q.z + n.w.z * m.fourth p = p.z := by
    simpa [toMatrix, Matrix.mulVec, dotProduct, Fin.sum_univ_four] using congrFun hback 2
  ext <;> simp only [transform_x, transform_y, transform_z, Vec3.add_x, Vec3.add_y, Vec3.add_z,
    Vec3.scale_x, Vec3.scale_y, Vec3.scale_z, translation, Vec4.toVec3]
  · linear_combination hx
  · linear_combination hy
  · linear_combination hz

theorem IsAffine.of_mul_eq_one (hm : m.IsAffine) (h : m.toMatrix * n.toMatrix = 1) :
    n.IsAffine := by
  refine isAffine_iff.2 fun p => ?_
  have hw := congrFun (mulVec_transform h p) 3
  simpa [toMatrix, Matrix.mulVec, dotProduct, Fin.sum_univ_four, hm.x_w, hm.y_w, hm.z_w, hm.w_w]
    using hw

theorem IsAffine.transform_transform (hm : m.IsAffine) (h : n.toMatrix * m.toMatrix = 1)
    (p : Vec3 K) : n.transform (m.transform p) = p := by
  rw [Matrix4.transform_transform h, isAffine_iff.1 hm]
  ext <;> simp

/-- What undoes a matrix without translation has none either. -/
theorem translation_eq_zero (h : n.toMatrix * m.toMatrix = 1) (hm : m.translation = ⟨0, 0, 0⟩) :
    n.translation = ⟨0, 0, 0⟩ := by
  have hx : m.toMatrix 0 3 = 0 := congrArg Vec3.x hm
  have hy : m.toMatrix 1 3 = 0 := congrArg Vec3.y hm
  have hz : m.toMatrix 2 3 = 0 := congrArg Vec3.z hm
  have hcolumn (i : Fin 4) :
      n.toMatrix i 3 * m.toMatrix 3 3 = (1 : Matrix (Fin 4) (Fin 4) K) i 3 := by
    rw [← h, Matrix.mul_apply, Fin.sum_univ_four, hx, hy, hz]
    simp
  have hw : m.toMatrix 3 3 ≠ 0 :=
    right_ne_zero_of_mul_eq_one ((hcolumn 3).trans (Matrix.one_apply_eq 3))
  have hzero (i : Fin 4) (hi : i ≠ 3) : n.toMatrix i 3 = 0 :=
    (mul_eq_zero.1 ((hcolumn i).trans (Matrix.one_apply_ne hi))).resolve_right hw
  exact Vec3.ext (hzero 0 (by decide)) (hzero 1 (by decide)) (hzero 2 (by decide))

variable [CharZero K]

theorem toMatrix_inverse (m : Matrix4 K) :
    m.inverse.toMatrix = m.determinant⁻¹ • m.adjugate.toMatrix := by
  ext i j
  fin_cases i <;> fin_cases j <;> simp [toMatrix, inverse, determinant, mul_comm]

theorem toMatrix_inverse_mul {m : Matrix4 K} (h : m.determinant ≠ 0) :
    m.inverse.toMatrix * m.toMatrix = 1 := by
  rw [toMatrix_inverse, Matrix.smul_mul, toMatrix_adjugate_mul, smul_smul, inv_mul_cancel₀ h,
    one_smul]

/-! ## Scaling -/

/-- The matrix that takes every point `k` times as far from the origin. -/
def scaling (k : K) : Matrix4 K := .ofRows ⟨k, 0, 0, 0⟩ ⟨0, k, 0, 0⟩ ⟨0, 0, k, 0⟩ ⟨0, 0, 0, 1⟩

section Scaling

variable (k : K)

omit [CharZero K]

theorem isAffine_scaling : (scaling k).IsAffine := ⟨rfl, rfl, rfl, rfl⟩

theorem transform_scaling (p : Vec3 K) : (scaling k).transform p = p.scale k := by
  ext <;> simp [scaling, ofRows, transpose, mul_comm]

theorem linear_scaling (v : Vec3 K) : (scaling k).linear v = v.scale k := by
  ext <;> simp [linear, transform_scaling]

theorem determinant_scaling : (scaling k).determinant = k ^ 3 := by
  simp [scaling, ofRows, transpose, determinant, expand, adjugate, minors, minor, leads]
  ring

end Scaling

theorem inverse_scaling {k : K} (hk : k ≠ 0) : (scaling k).inverse = scaling k⁻¹ := by
  simp [scaling, ofRows, transpose, inverse, expand, adjugate, minors, minor, leads, Vec4.scale,
    Vec4.map]
  field_simp
  exact ⟨trivial, trivial⟩

end Matrix4

end SolidScene
