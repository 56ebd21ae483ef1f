import SolidScene.Geometry.Vector
import SolidScene.Proofs.Geometry.ExactScalar

/-!
# Lengths

Exact lengths of vectors: a dot product is at most the product of the lengths, and a way around is
not shorter than the direct one. A length in a plane is that of a vector in space.
-/

namespace SolidScene

attribute [ext] Vec3

variable {K : Type} [Field K]

namespace Vec3

/-! ## Coordinates -/

section Coordinates

variable (v w : Vec3 K) (k : K)

@[simp] theorem add_x : (v + w).x = v.x + w.x := rfl

@[simp] theorem add_y : (v + w).y = v.y + w.y := rfl

@[simp] theorem add_z : (v + w).z = v.z + w.z := rfl

@[simp] theorem sub_x : (v - w).x = v.x - w.x := rfl

@[simp] theorem sub_y : (v - w).y = v.y - w.y := rfl

@[simp] theorem sub_z : (v - w).z = v.z - w.z := rfl

@[simp] theorem scale_x : (v.scale k).x = v.x * k := rfl

@[simp] theorem scale_y : (v.scale k).y = v.y * k := rfl

@[simp] theorem scale_z : (v.scale k).z = v.z * k := rfl

@[simp] theorem divide_x : (v.divide k).x = v.x / k := rfl

@[simp] theorem divide_y : (v.divide k).y = v.y / k := rfl

@[simp] theorem divide_z : (v.divide k).z = v.z / k := rfl

@[simp] theorem uniform_x {α : Type} (k : α) : (uniform k).x = k := rfl

@[simp] theorem uniform_y {α : Type} (k : α) : (uniform k).y = k := rfl

@[simp] theorem uniform_z {α : Type} (k : α) : (uniform k).z = k := rfl

theorem divide_eq_scale : v.divide k = v.scale k⁻¹ := by
  ext <;> simp [div_eq_mul_inv]

theorem scale_sub_scale : v.scale k - w.scale k = (v - w).scale k := by
  ext <;> simp [sub_mul]

theorem sub_sub_sub (u : Vec3 K) : v - u - (w - u) = v - w := by
  ext <;> simp

theorem dot_sub (u : Vec3 K) : u.dot (v - w) = u.dot v - u.dot w := by
  simp only [dot, sub_x, sub_y, sub_z]
  ring

theorem scale_dot : (v.scale k).dot w = v.dot w * k := by
  simp only [dot, scale_x, scale_y, scale_z]
  ring

end Coordinates

variable [LinearOrder K]

section Order

variable [ExactScalar K] (v w : Vec3 K)

@[simp] theorem abs_x : v.abs.x = |v.x| := ExactScalar.abs_eq _

@[simp] theorem abs_y : v.abs.y = |v.y| := ExactScalar.abs_eq _

@[simp] theorem abs_z : v.abs.z = |v.z| := ExactScalar.abs_eq _

@[simp] theorem least_x : (v.least w).x = min v.x w.x := ExactScalar.least_eq _ _

@[simp] theorem least_y : (v.least w).y = min v.y w.y := ExactScalar.least_eq _ _

@[simp] theorem least_z : (v.least w).z = min v.z w.z := ExactScalar.least_eq _ _

@[simp] theorem greatest_x : (v.greatest w).x = max v.x w.x := ExactScalar.greatest_eq _ _

@[simp] theorem greatest_y : (v.greatest w).y = max v.y w.y := ExactScalar.greatest_eq _ _

@[simp] theorem greatest_z : (v.greatest w).z = max v.z w.z := ExactScalar.greatest_eq _ _

end Order

variable [IsStrictOrderedRing K]

/-! ## Lengths in space -/

theorem dot_self_nonneg (v : Vec3 K) : 0 ≤ v.dot v :=
  add_nonneg (add_nonneg (mul_self_nonneg _) (mul_self_nonneg _)) (mul_self_nonneg _)

variable [ExactScalar K]

theorem length_nonneg (v : Vec3 K) : 0 ≤ v.length := ExactScalar.sqrt_nonneg v.dot_self_nonneg

theorem sq_length (v : Vec3 K) : v.length ^ 2 = v.x ^ 2 + v.y ^ 2 + v.z ^ 2 := by
  rw [length, ExactScalar.sq_sqrt v.dot_self_nonneg, dot]
  ring

theorem length_le_iff {v : Vec3 K} {r : K} (hr : 0 ≤ r) :
    v.length ≤ r ↔ v.x ^ 2 + v.y ^ 2 + v.z ^ 2 ≤ r ^ 2 := by
  rw [← sq_length, pow_le_pow_iff_left₀ v.length_nonneg hr two_ne_zero]

theorem length_eq_of_sq {v : Vec3 K} {r : K} (hr : 0 ≤ r)
    (h : v.x ^ 2 + v.y ^ 2 + v.z ^ 2 = r ^ 2) : v.length = r :=
  Scalar.sqrt_eq_of_sq hr (by rw [← h, dot]; ring)

/-- A vector with smaller coordinates is not longer. -/
theorem length_le_length {v w : Vec3 K} (hx : |v.x| ≤ |w.x|) (hy : |v.y| ≤ |w.y|)
    (hz : |v.z| ≤ |w.z|) : v.length ≤ w.length := by
  rw [length_le_iff w.length_nonneg, sq_length]
  exact add_le_add (add_le_add (sq_le_sq.2 hx) (sq_le_sq.2 hy)) (sq_le_sq.2 hz)

theorem abs_x_le_length (v : Vec3 K) : |v.x| ≤ v.length := by
  refine abs_le_of_sq_le_sq ?_ v.length_nonneg
  nlinarith [v.sq_length, sq_nonneg v.y, sq_nonneg v.z]

theorem abs_y_le_length (v : Vec3 K) : |v.y| ≤ v.length := by
  refine abs_le_of_sq_le_sq ?_ v.length_nonneg
  nlinarith [v.sq_length, sq_nonneg v.x, sq_nonneg v.z]

theorem abs_z_le_length (v : Vec3 K) : |v.z| ≤ v.length := by
  refine abs_le_of_sq_le_sq ?_ v.length_nonneg
  nlinarith [v.sq_length, sq_nonneg v.x, sq_nonneg v.y]

theorem eq_of_length_sub_nonpos {v w : Vec3 K} (h : (v - w).length ≤ 0) : v = w := by
  have hx := (v - w).abs_x_le_length.trans h
  have hy := (v - w).abs_y_le_length.trans h
  have hz := (v - w).abs_z_le_length.trans h
  rw [abs_nonpos_iff] at hx hy hz
  ext
  · exact sub_eq_zero.1 hx
  · exact sub_eq_zero.1 hy
  · exact sub_eq_zero.1 hz

/-- A dot product is at most the product of the lengths. -/
theorem dot_le_length_mul_length (v w : Vec3 K) : v.dot w ≤ v.length * w.length := by
  refine le_of_sq_le_sq ?_ (mul_nonneg v.length_nonneg w.length_nonneg)
  -- what is missing to equality are the squares of the cross product's coordinates
  have hcross : v.length ^ 2 * w.length ^ 2 - v.dot w ^ 2 = (v.x * w.y - v.y * w.x) ^ 2 +
      (v.y * w.z - v.z * w.y) ^ 2 + (v.z * w.x - v.x * w.z) ^ 2 := by
    rw [sq_length, sq_length, dot]
    ring
  rw [mul_pow]
  nlinarith [sq_nonneg (v.x * w.y - v.y * w.x), sq_nonneg (v.y * w.z - v.z * w.y),
    sq_nonneg (v.z * w.x - v.x * w.z)]

theorem length_add_le (v w : Vec3 K) : (v + w).length ≤ v.length + w.length := by
  rw [length_le_iff (add_nonneg v.length_nonneg w.length_nonneg)]
  have hdot := v.dot_le_length_mul_length w
  have hv := v.sq_length
  have hw := w.sq_length
  simp only [dot] at hdot
  simp only [add_x, add_y, add_z]
  linarith [add_sq v.length w.length]

theorem length_scale (v : Vec3 K) (k : K) : (v.scale k).length = v.length * |k| := by
  refine length_eq_of_sq (mul_nonneg v.length_nonneg (abs_nonneg k)) ?_
  rw [mul_pow, sq_length, sq_abs, scale_x, scale_y, scale_z]
  ring

theorem length_sub_comm (v w : Vec3 K) : (v - w).length = (w - v).length := by
  have hneg : v - w = (w - v).scale (-1) := by ext <;> simp
  rw [hneg, length_scale, abs_neg, abs_one, mul_one]

/-- A vector is longer than another by at most the length of the difference. -/
theorem length_le_add (v w : Vec3 K) : v.length ≤ w.length + (v - w).length := by
  have hadd : v = w + (v - w) := by ext <;> simp
  exact (congrArg length hadd).le.trans (length_add_le w (v - w))

theorem length_direction {v : Vec3 K} (h : v.hasDirection = true) : v.direction.length = 1 := by
  have hfactor : (0 : K) < 1 / v.length := by
    have hlt := (Bool.and_eq_true_iff.1 h).2
    norm_num [unitFactor] at hlt
    simpa using hlt
  have hpos : 0 < v.length := one_div_pos.1 hfactor
  rw [direction, length_scale, unitFactor]
  norm_num [abs_of_pos hpos, hpos.ne']

end Vec3

/-! ## Lengths in a plane -/

variable [LinearOrder K] [ExactScalar K]

theorem planarLength_eq (x y : K) : planarLength x y = (⟨x, y, 0⟩ : Vec3 K).length := by
  simp [planarLength, Vec3.length, Vec3.dot]

variable [IsStrictOrderedRing K]

theorem planarLength_nonneg (x y : K) : 0 ≤ planarLength x y := by
  rw [planarLength_eq]
  exact Vec3.length_nonneg _

theorem sq_planarLength (x y : K) : planarLength x y ^ 2 = x ^ 2 + y ^ 2 := by
  rw [planarLength_eq, Vec3.sq_length]
  simp

theorem abs_left_le_planarLength (x y : K) : |x| ≤ planarLength x y := by
  rw [planarLength_eq]
  exact Vec3.abs_x_le_length ⟨x, y, 0⟩

theorem abs_right_le_planarLength (x y : K) : |y| ≤ planarLength x y := by
  rw [planarLength_eq]
  exact Vec3.abs_y_le_length ⟨x, y, 0⟩

theorem planarLength_le_add (x y x' y' : K) :
    planarLength x y ≤ planarLength x' y' + planarLength (x - x') (y - y') := by
  simp only [planarLength_eq]
  exact (Vec3.length_le_add _ _).trans_eq (by congr 2; ext <;> simp)

theorem abs_planarLength_sub_le (x y x' y' : K) :
    |planarLength x y - planarLength x' y'| ≤ planarLength (x - x') (y - y') := by
  have hcomm : planarLength (x' - x) (y' - y) = planarLength (x - x') (y - y') := by
    rw [planarLength, planarLength]
    congr 1
    ring
  have h := planarLength_le_add x y x' y'
  have h' := planarLength_le_add x' y' x y
  rw [hcomm] at h'
  exact abs_sub_le_iff.2 ⟨by linarith, by linarith⟩

/-- A plane through the vertical shows no more of a vector than its length. -/
theorem planarLength_le_length {v : Vec3 K} {x y : K} (hx : |x| ≤ planarLength v.x v.z)
    (hy : |y| ≤ |v.y|) : planarLength x y ≤ v.length := by
  have hx' := pow_le_pow_left₀ (abs_nonneg x) hx 2
  have hy' := sq_le_sq.2 hy
  rw [sq_abs, sq_planarLength] at hx'
  refine le_of_sq_le_sq ?_ v.length_nonneg
  rw [sq_planarLength, Vec3.sq_length]
  linarith

end SolidScene
