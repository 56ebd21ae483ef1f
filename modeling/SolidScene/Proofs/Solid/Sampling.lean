import SolidScene.Proofs.Geometry.BoundingBox
import SolidScene.Proofs.Solid.Repetition
import SolidScene.Proofs.Solid.Tree
import SolidScene.Solid.Bounds

/-!
# Sampled solids

Planes and repeated solids have no end, and their boxes reach as far as they are sampled. A factor
above one of them makes its box larger or smaller with it, so a tree without blends and matrices is
in its box as far as each of these boxes reaches after scaling (`contains_bounds_of_reach`). Where
they are made smaller, the box does not hold all that is sampled
(`not_contains_bounds_halvedGround`).
-/

namespace SolidScene.Solid

variable {K : Type} [Field K] [LinearOrder K]

/-- How many times larger than by itself each part without an end appears: the planes and repeated
solids outside subtracted ones, with the factors above them. -/
def endlessScales : Solid K → List K
  | .plane .. => [1]
  | .boolean .subtract a _ => a.endlessScales
  | .boolean _ a b => a.endlessScales ++ b.endlessScales
  | .duplicate period inner =>
    if period = ⟨0, 0, 0⟩ then inner.endlessScales else 1 :: inner.endlessScales
  | .scaled factor inner => inner.endlessScales.map (|factor| * ·)
  | .placed _ inner => inner.endlessScales
  | _ => []

theorem mem_endlessScales_duplicate {inner : Solid K} {k : K} (period : Vec3 K)
    (hk : k ∈ inner.endlessScales) : k ∈ (duplicate period inner).endlessScales := by
  unfold endlessScales
  split_ifs
  · exact hk
  · exact List.mem_cons_of_mem _ hk

theorem one_mem_endlessScales_duplicate (inner : Solid K) {period : Vec3 K}
    (h : period ≠ ⟨0, 0, 0⟩) : 1 ∈ (duplicate period inner).endlessScales := by
  simp [endlessScales, h]

theorem mul_mem_endlessScales_scaled {inner : Solid K} {k : K} (factor : K)
    (hk : k ∈ inner.endlessScales) : |factor| * k ∈ (scaled factor inner).endlessScales :=
  List.mem_map_of_mem hk

/-- No blend, no matrix and no factor of zero. -/
def Undistorted : Solid K → Prop
  | .boolean .blend .. | .placed .. => False
  | .scaled factor _ => factor ≠ 0
  | _ => True

variable [IsStrictOrderedRing K] [ExactScalar K]

open BoundingBox (contains_iff contains_around_iff contains_cube_iff contains_cube_of_le
  contains_union_left contains_union_right contains_scale)

/-! ## Shapes -/

section Shapes

variable {center p : Vec3 K}

theorem nonpos_of_overhangDistance_nonpos {q : Vec3 K} (h : overhangDistance q ≤ 0) :
    q.x ≤ 0 ∧ q.y ≤ 0 ∧ q.z ≤ 0 := by
  have hmax : q.maximum ≤ 0 := by
    by_contra hpos
    rw [not_le] at hpos
    rw [overhangDistance_of_pos hpos] at h
    exact h.not_gt (length_greatest_pos hpos)
  simpa [Vec3.maximum_eq] using hmax

theorem nonpos_of_planarOverhangDistance_nonpos {x y : K} (h : planarOverhangDistance x y ≤ 0) :
    x ≤ 0 ∧ y ≤ 0 := by
  rw [planarOverhangDistance_eq (min_le_left y 0) (min_le_right y 0)] at h
  obtain ⟨hx, hy, -⟩ := nonpos_of_overhangDistance_nonpos h
  exact ⟨hx, hy⟩

/-- A shape with an end is in its box, whatever its radii and sizes are. -/
theorem contains_bounds_of_isPrimitive {s : Solid K} (hs : s.isPrimitive = true)
    (hend : s.endlessScales = []) (h : s.distance p ≤ 0) : s.bounds.contains p = true := by
  cases s with
  | sphere center radius =>
    simp only [distance, sub_nonpos] at h
    exact contains_around_iff.2 ⟨(Vec3.abs_x_le_length _).trans h,
      (Vec3.abs_y_le_length _).trans h, (Vec3.abs_z_le_length _).trans h⟩
  | box center halfExtents =>
    have hq := nonpos_of_overhangDistance_nonpos h
    simp only [Vec3.sub_x, Vec3.sub_y, Vec3.sub_z, Vec3.abs_x, Vec3.abs_y, Vec3.abs_z,
      sub_nonpos] at hq
    exact contains_around_iff.2 hq
  | torus center majorRadius minorRadius =>
    simp only [distance, sub_nonpos] at h
    have hring := (le_abs_self _).trans ((abs_left_le_planarLength _ _).trans h)
    rw [sub_le_iff_le_add'] at hring
    exact contains_around_iff.2 ⟨(abs_left_le_planarLength _ _).trans hring,
      (abs_right_le_planarLength _ _).trans h, (abs_right_le_planarLength _ _).trans hring⟩
  | cylinder center radius halfLength =>
    obtain ⟨hmantle, hcaps⟩ := nonpos_of_planarOverhangDistance_nonpos h
    rw [ExactScalar.abs_eq, sub_nonpos] at hmantle hcaps
    have hside := (le_abs_self _).trans hmantle
    exact contains_around_iff.2 ⟨(abs_left_le_planarLength _ _).trans hside, hcaps,
      (abs_right_le_planarLength _ _).trans hside⟩
  | plane => simp [endlessScales] at hend
  | boolean | duplicate | placed | scaled => simp [isPrimitive, children] at hs

end Shapes

/-! ## Repetition -/

theorem contains_repeatedBounds {period p : Vec3 K} {b : BoundingBox K}
    (hreach : period ≠ ⟨0, 0, 0⟩ → BoundingBox.unbounded.contains p = true)
    (h : b.contains (Vec3.zip foldAxis p period) = true) :
    (repeatedBounds period b).contains p = true := by
  have haxis {s x lower upper far : K} (hfar : s ≠ 0 → -far ≤ x ∧ x ≤ far)
      (hx : lower ≤ foldAxis x s ∧ foldAxis x s ≤ upper) :
      (if repeats s then -far else lower) ≤ x ∧ x ≤ if repeats s then far else upper := by
    split_ifs with hrepeats
    · exact hfar (repeats_iff.1 hrepeats)
    · rwa [foldAxis, if_neg hrepeats] at hx
  have hfar : period ≠ ⟨0, 0, 0⟩ → _ := fun hne => contains_iff.1 (hreach hne)
  obtain ⟨hx, hy, hz⟩ := contains_iff.1 h
  refine contains_iff.2 ⟨haxis (fun hs => ?_) hx, haxis (fun hs => ?_) hy, haxis (fun hs => ?_) hz⟩
  · exact (hfar fun hperiod => hs (congrArg Vec3.x hperiod)).1
  · exact (hfar fun hperiod => hs (congrArg Vec3.y hperiod)).2.1
  · exact (hfar fun hperiod => hs (congrArg Vec3.z hperiod)).2.2

theorem contains_cube_fold [ExactRemainder K] {reach : K} {p : Vec3 K} (period : Vec3 K)
    (h : (BoundingBox.cube reach).contains p = true) :
    (BoundingBox.cube reach).contains (Vec3.zip foldAxis p period) = true := by
  rw [contains_cube_iff] at h ⊢
  exact ⟨(abs_foldAxis_le _ _).trans h.1, (abs_foldAxis_le _ _).trans h.2.1,
    (abs_foldAxis_le _ _).trans h.2.2⟩

/-! ## Factors -/

section Factors

variable {factor : K} {p : Vec3 K}

theorem contains_cube_divide {reach : K} (hfactor : factor ≠ 0)
    (h : (BoundingBox.cube reach).contains p = true) :
    (BoundingBox.cube (reach / |factor|)).contains (p.divide factor) = true := by
  rw [contains_cube_iff] at h ⊢
  simp only [Vec3.divide_x, Vec3.divide_y, Vec3.divide_z, abs_div,
    div_le_div_iff_of_pos_right (abs_pos.2 hfactor)]
  exact h

theorem contains_bounds_scaled {inner : Solid K} (hfactor : factor ≠ 0)
    (h : inner.bounds.contains (p.divide factor) = true) :
    (scaled factor inner).bounds.contains p = true := by
  have hback : (p.divide factor).scale factor = p := by
    ext <;> simp [hfactor]
  have hscaled := contains_scale h factor
  rwa [hback] at hscaled

end Factors

/-! ## Trees -/

/-- A tree without blends and matrices is in its box as far as the boxes of its parts without an end
reach after scaling. -/
theorem contains_bounds_of_reach [ExactRemainder K] {s : Solid K}
    (hs : ∀ t ∈ s.additive, t.Undistorted) {reach : K}
    (hreach : ∀ k ∈ s.endlessScales, reach ≤ BoundingBox.unboundedReach * k) {p : Vec3 K}
    (hp : (BoundingBox.cube reach).contains p = true) (h : s.distance p ≤ 0) :
    s.bounds.contains p = true := by
  induction s generalizing reach p with
  | sphere | box | torus | cylinder => exact contains_bounds_of_isPrimitive rfl rfl h
  | plane =>
    have hle : reach ≤ BoundingBox.unboundedReach := by
      simpa [endlessScales] using hreach
    exact contains_cube_of_le hle hp
  | boolean combiner a b iha ihb =>
    obtain ⟨hroot, hchildren⟩ := forall_mem_additive_iff.1 hs
    have ha := @iha (hchildren a (by cases combiner <;> simp [addends, children]))
    simp only [distance] at h
    cases combiner with
    | add | union =>
      obtain ⟨hra, hrb⟩ := List.forall_mem_append.1 hreach
      have hb := ihb (hchildren b (by simp [addends, children])) hrb hp
      simp only [Combiner.combine_add, Combiner.combine_union, min_le_iff] at h
      exact h.elim (fun h => contains_union_left (ha hra hp h))
        (fun h => contains_union_right (hb h))
    | subtract =>
      rw [Combiner.combine_subtract] at h
      exact ha hreach hp (le_of_max_le_left h)
    | blend => exact hroot.elim
  | duplicate period inner ih =>
    obtain ⟨-, hinner⟩ := forall_mem_additive_iff.1 hs
    refine contains_repeatedBounds (fun hne => ?_) ?_
    · have hle := hreach 1 (one_mem_endlessScales_duplicate inner hne)
      rw [mul_one] at hle
      exact contains_cube_of_le hle hp
    · exact ih (hinner inner (by simp [addends, children]))
        (fun k hk => hreach k (mem_endlessScales_duplicate period hk))
        (contains_cube_fold period hp) h
  | placed => exact (forall_mem_additive_iff.1 hs).1.elim
  | scaled factor inner ih =>
    obtain ⟨hfactor, hinner⟩ := forall_mem_additive_iff.1 hs
    have hpos := abs_pos.2 hfactor
    have hscales : ∀ k ∈ inner.endlessScales,
        reach / |factor| ≤ BoundingBox.unboundedReach * k := by
      intro k hk
      have hle := hreach (|factor| * k) (mul_mem_endlessScales_scaled factor hk)
      rw [div_le_iff₀ hpos]
      linarith
    have hdistance : inner.distance (p.divide factor) ≤ 0 := by
      simp only [distance, ExactScalar.abs_eq] at h
      exact nonpos_of_mul_nonpos_left h hpos
    exact contains_bounds_scaled hfactor (ih (hinner inner (by simp [addends, children])) hscales
      (contains_cube_divide hfactor hp) hdistance)

/-! ## The ground -/

/-- The half space below a height of zero, made smaller. -/
noncomputable def halvedGround : Solid ℝ := .scaled 0.5 (.plane ⟨0, 0, 0⟩ ⟨0, 1, 0⟩)

theorem distance_halvedGround (p : Vec3 ℝ) : halvedGround.distance p = p.y := by
  have hlength : (⟨0, 1, 0⟩ : Vec3 ℝ).length = 1 := Vec3.length_eq_of_sq zero_le_one (by simp)
  norm_num [halvedGround, distance, Vec3.dot, Vec3.direction, Vec3.unitFactor, hlength]

theorem contains_bounds_of_reach_balls :
    let balls : Solid ℝ := .boolean .union halvedGround (.duplicate ⟨3, 0, 0⟩ (.sphere ⟨0, 1, 0⟩ 1))
    let p : Vec3 ℝ := ⟨50, -50, 0⟩
    (∀ t ∈ balls.additive, t.Undistorted) ∧
      (∀ k ∈ balls.endlessScales, 50 ≤ BoundingBox.unboundedReach * k) ∧
      (BoundingBox.cube 50).contains p = true ∧ balls.distance p ≤ 0 ∧
      balls.bounds.contains p = true := by
  intro balls p
  have hs : ∀ t ∈ balls.additive, t.Undistorted := by
    norm_num [balls, halvedGround, additive, Undistorted]
  have hreach : ∀ k ∈ balls.endlessScales, 50 ≤ BoundingBox.unboundedReach * k := by
    norm_num [balls, halvedGround, endlessScales, BoundingBox.unboundedReach]
  have hp : (BoundingBox.cube 50).contains p = true := by
    norm_num [contains_cube_iff, p]
  have hdistance : balls.distance p ≤ 0 := by
    refine (min_le_left _ _).trans ?_
    norm_num [distance_halvedGround, p]
  exact ⟨hs, hreach, hp, hdistance, contains_bounds_of_reach hs hreach hp hdistance⟩

/-- The halved ground is sampled twice as far as its box reaches. -/
theorem not_contains_bounds_halvedGround :
    (∀ t ∈ halvedGround.preorder, t.Undistorted) ∧
      BoundingBox.unbounded.contains (⟨99, 0, 0⟩ : Vec3 ℝ) = true ∧
      halvedGround.distance ⟨99, 0, 0⟩ ≤ 0 ∧
      halvedGround.bounds.contains ⟨99, 0, 0⟩ = false := by
  refine ⟨by norm_num [halvedGround, preorder, Undistorted], ?_, ?_, ?_⟩
  · norm_num [BoundingBox.unbounded, BoundingBox.unboundedReach, contains_cube_iff]
  · rw [distance_halvedGround]
  · rw [Bool.eq_false_iff, ne_eq, contains_iff]
    rintro ⟨⟨-, hx⟩, -⟩
    norm_num [halvedGround, bounds, BoundingBox.unbounded, BoundingBox.cube,
      BoundingBox.unboundedReach] at hx

end SolidScene.Solid
