import SolidScene.Proofs.Geometry.Overhang
import SolidScene.Proofs.Solid.Distance
import SolidScene.Proofs.Solid.Placement

/-!
# How fast distances grow

Exactly, the distances at two points differ by at most the distance between the points, so a step as
long as the distance never passes through a surface (`abs_distance_sub_le`). It holds of every shape
and every combination of them where nothing repeats and no matrix shows its solid from farther
apart.
-/

namespace SolidScene.Solid

open ExactScalar (isFinite_of_abs_le)

variable {K : Type} [Field K] [LinearOrder K] [IsStrictOrderedRing K] [ExactScalar K]

/-! ## Shapes -/

section Shapes

variable (center p q : Vec3 K)

theorem sphere_distance_le_add (radius : K) :
    (sphere center radius).distance p ≤ (sphere center radius).distance q + (p - q).length := by
  have h := Vec3.length_le_add (p - center) (q - center)
  rw [Vec3.sub_sub_sub] at h
  simp only [distance]
  linarith

theorem box_distance_le_add (halfExtents : Vec3 K) :
    (box center halfExtents).distance p ≤
      (box center halfExtents).distance q + (p - q).length := by
  refine (overhangDistance_le_add _ ((q - center).abs - halfExtents)).trans
    (add_le_add le_rfl (Vec3.length_le_length ?_ ?_ ?_))
  all_goals
    simp only [Vec3.sub_x, Vec3.sub_y, Vec3.sub_z, Vec3.abs_x, Vec3.abs_y, Vec3.abs_z,
      sub_sub_sub_cancel_right]
    exact (abs_abs_sub_abs_le _ _).trans_eq (by rw [sub_sub_sub_cancel_right])

/-- The distance from the vertical grows no faster than a point moves away from it. -/
theorem abs_axis_distance_sub_le :
    |planarLength (p - center).x (p - center).z - planarLength (q - center).x (q - center).z| ≤
      planarLength (p - q).x (p - q).z := by
  refine (abs_planarLength_sub_le _ _ _ _).trans_eq ?_
  rw [← Vec3.sub_x, ← Vec3.sub_z, Vec3.sub_sub_sub]

theorem torus_distance_le_add (majorRadius minorRadius : K) :
    (torus center majorRadius minorRadius).distance p ≤
      (torus center majorRadius minorRadius).distance q + (p - q).length := by
  have h := planarLength_le_add (planarLength (p - center).x (p - center).z - majorRadius)
    (p - center).y (planarLength (q - center).x (q - center).z - majorRadius) (q - center).y
  rw [sub_sub_sub_cancel_right] at h
  have hpq := planarLength_le_length (abs_axis_distance_sub_le center p q)
    (y := (p - center).y - (q - center).y) (by rw [← Vec3.sub_y, Vec3.sub_sub_sub])
  simp only [distance]
  linarith

theorem cylinder_distance_le_add (radius halfLength : K) :
    (cylinder center radius halfLength).distance p ≤
      (cylinder center radius halfLength).distance q + (p - q).length := by
  refine (planarOverhangDistance_le_add _ _ _ _).trans (add_le_add le_rfl ?_)
  have hplanar : ∀ x y : K, |planarLength x y| = planarLength x y := fun x y =>
    abs_of_nonneg (planarLength_nonneg x y)
  refine planarLength_le_length ?_ ?_
  · simpa [hplanar] using abs_axis_distance_sub_le center p q
  · rw [sub_sub_sub_cancel_right, ← Vec3.sub_sub_sub p q center]
    simp only [ExactScalar.abs_eq]
    exact abs_abs_sub_abs_le _ _

theorem plane_distance_le_add {point normal : Vec3 K} (h : normal.direction.length = 1) :
    (plane point normal).distance p ≤ (plane point normal).distance q + (p - q).length := by
  have hle := (p - q).dot_le_length_mul_length normal.direction
  rw [h, mul_one] at hle
  simp only [distance, Vec3.dot, Vec3.sub_x, Vec3.sub_y, Vec3.sub_z] at hle ⊢
  linarith

end Shapes

/-! ## Trees -/

/-- What keeps the distance of a node from growing faster than those of its children. -/
def Steady : Solid K → Prop
  | .plane _ normal => normal.direction.length = 1
  | .duplicate period _ => period = Vec3.uniform 0
  | .placed placement _ => ∀ p q : Vec3 K,
    (placement.inverse.transform p - placement.inverse.transform q).length ≤ (p - q).length
  | .scaled factor _ => factor ≠ 0
  | _ => True

/-- A distance grows by no more than the way between two points. -/
theorem distance_le_add {s : Solid K} (hs : ∀ t ∈ s.preorder, t.Steady) (p q : Vec3 K) :
    s.distance p ≤ s.distance q + (p - q).length := by
  induction s generalizing p q with
  | sphere center radius => exact sphere_distance_le_add center p q radius
  | box center halfExtents => exact box_distance_le_add center p q halfExtents
  | torus center majorRadius minorRadius =>
    exact torus_distance_le_add center p q majorRadius minorRadius
  | cylinder center radius halfLength => exact cylinder_distance_le_add center p q radius halfLength
  | plane point normal => exact plane_distance_le_add p q (forall_mem_preorder_iff.1 hs).1
  | boolean combiner a b iha ihb =>
    obtain ⟨-, hchildren⟩ := forall_mem_preorder_iff.1 hs
    have ha := hchildren a (by simp [children])
    have hb := hchildren b (by simp [children])
    refine combiner.combine_le_add (iha ha p q) (ihb hb p q) ?_
    rw [Vec3.length_sub_comm]
    exact ihb hb q p
  | duplicate period inner ih =>
    obtain ⟨hperiod, hinner⟩ := forall_mem_preorder_iff.1 hs
    simp only [Steady] at hperiod
    have hfold : ∀ r : Vec3 K, Vec3.zip foldAxis r period = r := fun r => by
      ext <;> simp [hperiod, Vec3.zip, foldAxis_zero]
    simp only [distance, hfold]
    exact ih (hinner inner (by simp [children])) p q
  | placed placement inner ih =>
    obtain ⟨hplacement, hinner⟩ := forall_mem_preorder_iff.1 hs
    refine (ih (hinner inner (by simp [children])) _ _).trans (add_le_add le_rfl ?_)
    exact hplacement p q
  | scaled factor inner ih =>
    obtain ⟨hfactor, hinner⟩ := forall_mem_preorder_iff.1 hs
    have h := ih (hinner inner (by simp [children])) (p.divide factor) (q.divide factor)
    have hpos := abs_pos.2 hfactor
    simp only [Vec3.divide_eq_scale, Vec3.scale_sub_scale, Vec3.length_scale, abs_inv] at h
    simp only [distance, Vec3.divide_eq_scale, ExactScalar.abs_eq]
    calc inner.distance (p.scale factor⁻¹) * |factor|
        ≤ (inner.distance (q.scale factor⁻¹) + (p - q).length * |factor|⁻¹) * |factor| :=
          mul_le_mul_of_nonneg_right h hpos.le
      _ = inner.distance (q.scale factor⁻¹) * |factor| + (p - q).length := by field_simp

theorem steady_of_checked {t : Solid K} (ht : t.Checked)
    (hperiod : ∀ period inner, t = .duplicate period inner → period = ⟨0, 0, 0⟩)
    (hinverse : ∀ placement inner, t = .placed placement inner → ∀ p q : Vec3 K,
      (placement.inverse.transform p - placement.inverse.transform q).length ≤ (p - q).length) :
    t.Steady := by
  cases t with
  | plane point normal => exact Vec3.length_direction ht.usable
  | duplicate period inner => exact hperiod period inner rfl
  | placed placement inner => exact hinverse placement inner rfl
  | scaled factor inner => exact ExactScalar.eq_eq_false_iff.1 (by simpa [Usable] using ht.usable)
  | sphere | box | torus | cylinder | boolean => exact True.intro

/-- Distances differ by no more than the points are apart, in a tree that repeats nothing and in
which no inverse of a matrix takes points farther apart. -/
theorem abs_distance_sub_le {s : Solid K} (hs : s.WellFormed)
    (hperiod : ∀ period inner, .duplicate period inner ∈ s.preorder → period = ⟨0, 0, 0⟩)
    (hinverse : ∀ placement inner, .placed placement inner ∈ s.preorder → ∀ p q : Vec3 K,
      (placement.inverse.transform p - placement.inverse.transform q).length ≤ (p - q).length)
    (p q : Vec3 K) : |s.distance p - s.distance q| ≤ (p - q).length := by
  have hsteady : ∀ t ∈ s.preorder, t.Steady := fun t ht =>
    steady_of_checked (hs t ht) (fun period inner h => hperiod period inner (h ▸ ht))
      (fun placement inner h => hinverse placement inner (h ▸ ht))
  have hpq := distance_le_add hsteady p q
  have hqp := distance_le_add hsteady q p
  rw [Vec3.length_sub_comm] at hqp
  exact abs_sub_le_iff.2 ⟨by linarith, by linarith⟩

/-- An enlarged box blended with a ring seen through a negative factor. -/
theorem abs_distance_sub_le_enlarged_box :
    let s : Solid ℝ := .boolean .blend
      (.placed ⟨.scaling 2, .scaling 2⁻¹⟩ (.box ⟨0, 0, 0⟩ ⟨1, 2, 1⟩))
      (.scaled (-2) (.duplicate ⟨0, 0, 0⟩ (.torus ⟨0, 0, 0⟩ 2 1)))
    s.WellFormed ∧ (∀ period inner, .duplicate period inner ∈ s.preorder → period = ⟨0, 0, 0⟩) ∧
      (∀ placement inner, .placed placement inner ∈ s.preorder → ∀ p q : Vec3 ℝ,
        (placement.inverse.transform p - placement.inverse.transform q).length ≤ (p - q).length) ∧
      |s.distance ⟨0, 0, 0⟩ - s.distance ⟨3, 4, 0⟩| ≤ (⟨0, 0, 0⟩ - ⟨3, 4, 0⟩ : Vec3 ℝ).length := by
  intro s
  have hplacement := Placement.ofMatrix?_scaling_real one_le_two (by norm_num)
  have hs : s.WellFormed := by
    simp only [s, WellFormed, preorder, List.cons_append, List.nil_append, List.forall_mem_cons,
      checked_placed_iff]
    simp (disch := norm_num) [hplacement, checked_iff, stored, Solid.radii, halves, Usable,
      isFinite_of_abs_le, Vec3.toList]
  have hperiod : ∀ period inner, .duplicate period inner ∈ s.preorder → period = ⟨0, 0, 0⟩ := by
    simp [s, preorder]
  have hinverse : ∀ placement inner, .placed placement inner ∈ s.preorder → ∀ p q : Vec3 ℝ,
      (placement.inverse.transform p - placement.inverse.transform q).length ≤
        (p - q).length := by
    simp only [s, preorder, List.mem_append, List.mem_cons]
    rintro placement inner h p q
    obtain ⟨rfl, -⟩ : placement = ⟨.scaling 2, .scaling 2⁻¹⟩ ∧ _ := by simpa using h
    simp only [Matrix4.transform_scaling, Vec3.scale_sub_scale, Vec3.length_scale]
    exact mul_le_of_le_one_right (Vec3.length_nonneg _) (by norm_num)
  exact ⟨hs, hperiod, hinverse, abs_distance_sub_le hs hperiod hinverse _ _⟩

end SolidScene.Solid
