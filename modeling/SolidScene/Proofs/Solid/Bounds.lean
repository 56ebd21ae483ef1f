import SolidScene.Proofs.Solid.Enclosure

/-!
# What boxes contain

Solids are in their boxes where every blend is of solids without matrices (`bounds_contains`). A
blend of solids with matrices is in its box where these lengthen nothing more than four times
(`blend_bounds_contains`), but not always where they do (`blend_bounds_not_contains`): a matrix
leaves distances as they were in the solid it moves, and the box is expanded by the same margin.
-/

namespace SolidScene.Solid

open BoundingBox (contains_expand)
open ExactScalar (isFinite_of_abs_le)

variable {K : Type} [Field K] [LinearOrder K] [IsStrictOrderedRing K] [ExactScalar K]

/-- A solid outside whose subtracted solids there are no planes, no repetition, no matrices below a
blend and none with another last row than `0 0 0 1` is in its box. Where there are no matrices at
all, the points up to any distance from it are in the box expanded by the distance. -/
theorem bounds_contains {s : Solid K} (hs : s.WellFormed) (hbounded : ∀ t ∈ s.additive, t.Bounded)
    (hblend : ∀ a b, .boolean .blend a b ∈ s.additive →
      ∀ placement inner, .placed placement inner ∉ a.additive ++ b.additive) :
    (∀ p, s.distance p ≤ 0 → s.bounds.contains p = true) ∧
      ((∀ placement inner, .placed placement inner ∉ s.additive) →
        ∀ t, 0 ≤ t → ∀ p, s.distance p ≤ t → (s.bounds.expand t).contains p = true) := by
  have henclosable : ∀ u ∈ s.additive, u.Enclosable := by
    intro u hu
    refine ⟨hs u ((additive_sublist_preorder s).mem hu), hbounded u hu, ?_⟩
    rintro a b rfl f hf v
    obtain rfl : f = id := by
      refine eq_id_of_mem_routes (s := .boolean .blend a b) ?_ hf
      rintro t ht placement inner rfl
      exact hblend a b hu placement inner (by simpa [additive] using ht)
    exact le_mul_of_one_le_left v.length_nonneg (by norm_num)
  refine ⟨fun p h => bounds_contains_of_nonpos henclosable h, fun hplaced t ht p h => ?_⟩
  obtain ⟨q, hq, f, hf, v, hv, hpq⟩ := near_bounds henclosable ht h
  obtain rfl : f = id := by
    refine eq_id_of_mem_routes ?_ hf
    rintro u hu placement inner rfl
    exact hplaced placement inner hu
  exact contains_expand hq (hpq ▸ hv)

/-- A box blended with a hollowed ball, as it is and twice as large. -/
theorem bounds_contains_seam :
    let seam : Solid ℝ := .boolean .blend (.box ⟨0, 0, 0⟩ ⟨1, 2, 1⟩)
      (.boolean .subtract (.sphere ⟨0, 0, 0⟩ 2) (.duplicate ⟨1, 0, 0⟩ (.sphere ⟨0, 0, 0⟩ 1)))
    let enlarged : Solid ℝ := .placed ⟨.scaling 2, .scaling 2⁻¹⟩ seam
    (enlarged.distance ⟨0, 0, 0⟩ ≤ 0 ∧ enlarged.bounds.contains ⟨0, 0, 0⟩ = true) ∧
      seam.distance ⟨2, 0, 0⟩ ≤ 1 ∧ (seam.bounds.expand 1).contains ⟨2, 0, 0⟩ = true := by
  intro seam enlarged
  have hplacement := Placement.ofMatrix?_scaling_real one_le_two (by norm_num)
  have hwellFormed : enlarged.WellFormed := by
    simp only [enlarged, seam, WellFormed, preorder, List.cons_append, List.nil_append,
      List.forall_mem_cons, checked_placed_iff]
    simp (disch := norm_num) [hplacement, checked_iff, stored, Solid.radii, halves, Usable,
      isFinite_of_abs_le, Vec3.toList]
  have hbounded : ∀ t ∈ enlarged.additive, t.Bounded := by
    simp [enlarged, seam, additive, Bounded, Matrix4.isAffine_scaling]
  have hblend : ∀ a b, .boolean .blend a b ∈ enlarged.additive →
      ∀ placement inner, .placed placement inner ∉ a.additive ++ b.additive := by
    rintro a b hab
    obtain ⟨rfl, rfl⟩ : a = _ ∧ b = _ := by simpa [enlarged, seam, additive] using hab
    simp [additive]
  have hbox : ∀ p, seam.distance p ≤ (box ⟨0, 0, 0⟩ ⟨1, 2, 1⟩).distance p := fun p =>
    Combiner.combine_blend_le_left _ _
  have horigin : enlarged.distance ⟨0, 0, 0⟩ ≤ 0 := by
    have hback : (Matrix4.scaling (2⁻¹ : ℝ)).transform ⟨0, 0, 0⟩ = ⟨0, 0, 0⟩ := by
      ext <;> simp [Matrix4.transform_scaling]
    refine (congrArg seam.distance hback).le.trans ((hbox _).trans ?_)
    simp only [distance]
    rw [overhangDistance_of_nonpos] <;> norm_num [Vec3.maximum_eq]
  have hside : seam.distance ⟨2, 0, 0⟩ ≤ 1 := by
    refine (hbox _).trans ?_
    simp only [distance]
    rw [overhangDistance_of_pos (by norm_num [Vec3.maximum_eq])]
    exact (Vec3.length_eq_of_sq zero_le_one (by norm_num)).le
  have hseam : seam ∈ enlarged.children := List.mem_singleton_self _
  have hwhole := bounds_contains ((wellFormed_iff.1 hwellFormed).2 seam hseam)
    ((forall_mem_additive_iff.1 hbounded).2 seam hseam)
    fun a b hab => hblend a b (List.mem_cons_of_mem _ hab)
  refine ⟨⟨horigin, (bounds_contains hwellFormed hbounded hblend).1 _ horigin⟩, hside, ?_⟩
  exact hwhole.2 (by simp [seam, additive]) 1 zero_le_one _ hside

/-- A blend of solids with neither planes nor repetition outside what they subtract, and with
matrices with the last row `0 0 0 1`, is in its box, where the matrices on no way down from it or
from a blend below it together lengthen anything more than four times. -/
theorem blend_bounds_contains {a b : Solid K} (hs : (boolean .blend a b).WellFormed)
    (hbounded : ∀ t ∈ (boolean .blend a b).additive, t.Bounded)
    (hlengthens : ∀ c d, .boolean .blend c d ∈ (boolean .blend a b).additive →
      ∀ f ∈ c.routes ++ d.routes, ∀ v, (f v).length ≤ 4 * v.length)
    {p : Vec3 K} (h : (boolean .blend a b).distance p ≤ 0) :
    (boolean .blend a b).bounds.contains p = true := by
  refine bounds_contains_of_nonpos (fun u hu => ⟨hs u ?_, hbounded u hu, ?_⟩) h
  · exact (additive_sublist_preorder _).mem hu
  · rintro c d rfl
    exact hlengthens c d hu

/-! ## Two enlarged balls -/

/-- The blend of two balls at the same place, both `k` times as large as they were. -/
noncomputable def enlargedBalls (k : ℝ) : Solid ℝ :=
  let ball := .placed ⟨.scaling k, .scaling k⁻¹⟩ (.sphere ⟨0, 0, 0⟩ 1)
  .boolean .blend ball ball

theorem wellFormed_enlargedBalls {k : ℝ} (hk : 1 ≤ k) (hle : k ≤ 2 ^ 17) :
    (enlargedBalls k).WellFormed := by
  have hplacement := Placement.ofMatrix?_scaling_real hk hle
  simp only [enlargedBalls, WellFormed, preorder, List.cons_append, List.nil_append,
    List.forall_mem_cons, checked_placed_iff]
  simp (disch := norm_num) [hplacement, checked_iff, stored, Solid.radii, halves, Usable,
    isFinite_of_abs_le, Vec3.toList]

theorem bounded_enlargedBalls (k : ℝ) : ∀ t ∈ (enlargedBalls k).preorder, t.Bounded := by
  simp [enlargedBalls, preorder, Bounded, Matrix4.isAffine_scaling]

theorem distance_enlargedBalls {k x : ℝ} (hk : 0 ≤ k) (hx : 0 ≤ x) :
    (enlargedBalls k).distance ⟨x, 0, 0⟩ = x / k - 17 / 16 := by
  have hlength : ((Matrix4.scaling k⁻¹).transform ⟨x, 0, 0⟩ - ⟨0, 0, 0⟩).length = x / k := by
    refine Vec3.length_eq_of_sq (div_nonneg hx hk) ?_
    simp [Matrix4.transform_scaling, div_eq_mul_inv]
  simp only [enlargedBalls, distance, hlength, Combiner.combine_blend_self]
  ring

theorem upper_enlargedBalls_le {k : ℝ} (hk : 0 ≤ k) :
    (enlargedBalls k).bounds.upper.x ≤ k + 1 / 4 := by
  have hpos : (0 : ℝ) ≤ Scalar.largest := by norm_num [Scalar.largest]
  have hlargest : -Scalar.largest ≤ k := (neg_nonpos.2 hpos).trans hk
  simp [enlargedBalls, bounds, BoundingBox.expand, BoundingBox.union, BoundingBox.hull,
    BoundingBox.corners, BoundingBox.around, Matrix4.transform_scaling, Combiner.blendRadius_eq,
    hk, hlargest]

/-- Four times as large, they are in the box up to its face. -/
theorem blend_bounds_contains_enlargedBalls :
    (enlargedBalls 4).distance ⟨4.25, 0, 0⟩ ≤ 0 ∧
      (enlargedBalls 4).bounds.contains ⟨4.25, 0, 0⟩ = true := by
  have hlengthens : ∀ c d, .boolean .blend c d ∈ (enlargedBalls 4).additive →
      ∀ f ∈ c.routes ++ d.routes, ∀ v, (f v).length ≤ 4 * v.length := by
    rintro c d hcd f hf v
    obtain ⟨rfl, rfl⟩ : c = _ ∧ d = _ := by simpa [enlargedBalls, additive] using hcd
    obtain rfl : f = fun v => (Matrix4.scaling 4).linear v := by simpa [routes] using hf
    refine (congrArg Vec3.length (Matrix4.linear_scaling 4 v)).trans_le ?_
    rw [Vec3.length_scale, mul_comm]
    norm_num
  have hdistance : (enlargedBalls 4).distance ⟨4.25, 0, 0⟩ ≤ 0 := by
    rw [distance_enlargedBalls] <;> norm_num
  exact ⟨hdistance, blend_bounds_contains (wellFormed_enlargedBalls (by norm_num) (by norm_num))
    (fun t ht => bounded_enlargedBalls 4 t ((additive_sublist_preorder _).mem ht)) hlengthens
    hdistance⟩

/-- Eight times as large, they are not. -/
theorem blend_bounds_not_contains :
    (enlargedBalls 8).WellFormed ∧ (∀ t ∈ (enlargedBalls 8).preorder, t.Bounded) ∧
      (enlargedBalls 8).distance ⟨8.375, 0, 0⟩ ≤ 0 ∧
      (enlargedBalls 8).bounds.contains ⟨8.375, 0, 0⟩ = false := by
  refine ⟨wellFormed_enlargedBalls (by norm_num) (by norm_num), bounded_enlargedBalls 8, ?_, ?_⟩
  · rw [distance_enlargedBalls] <;> norm_num
  · rw [Bool.eq_false_iff, ne_eq, BoundingBox.contains_iff]
    rintro ⟨⟨-, hx⟩, -⟩
    have hle := hx.trans (upper_enlargedBalls_le (by norm_num))
    norm_num at hle

end SolidScene.Solid
