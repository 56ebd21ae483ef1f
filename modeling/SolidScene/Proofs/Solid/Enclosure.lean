import SolidScene.Proofs.Geometry.BoundingBox
import SolidScene.Proofs.Solid.Distance
import SolidScene.Proofs.Solid.Placement
import SolidScene.Solid.Bounds

/-!
# Boxes around solids

Exactly, every point of a solid is in its box where no plane, no repetition and no matrix with
another last row than `0 0 0 1` adds to it. A matrix leaves the distance as it was in the solid it
moves, and a blend goes beyond its solids by a distance, so the box of a blend is large enough only
where the matrices below it lengthen nothing more than four times.

The induction is over points at a distance up to `t`, as those of a blend's solids: each is as far
from the box as the matrices on some way down make of a vector no longer than `t`
(`near_bounds`).
-/

namespace SolidScene.Solid

variable {K : Type} [Field K]

/-! ## Ways down -/

/-- What the matrices on the ways down to the shapes of a solid together make of the way between two
points. A factor is no part of it, as distances are scaled by it too. -/
def routes : Solid K → List (Vec3 K → Vec3 K)
  | .boolean .subtract a _ => a.routes
  | .boolean _ a b => a.routes ++ b.routes
  | .duplicate _ inner | .scaled _ inner => inner.routes
  | .placed placement inner => inner.routes.map fun f v => placement.matrix.linear (f v)
  | _ => [id]

theorem route_scale {s : Solid K} {f : Vec3 K → Vec3 K} (hf : f ∈ s.routes) (v : Vec3 K) (k : K) :
    f (v.scale k) = (f v).scale k := by
  induction s generalizing f v with
  | sphere | box | torus | cylinder | plane =>
    obtain rfl := List.mem_singleton.1 hf
    rfl
  | boolean combiner a b iha ihb =>
    cases combiner with
    | subtract => exact iha hf v
    | add | union | blend =>
      rcases List.mem_append.1 hf with hf | hf
      · exact iha hf v
      · exact ihb hf v
  | duplicate _ _ ih | scaled _ _ ih => exact ih hf v
  | placed placement inner ih =>
    obtain ⟨g, hg, rfl⟩ := List.mem_map.1 hf
    simp only [ih hg v, Matrix4.linear_scale]

/-- Without matrices nothing is lengthened. -/
theorem eq_id_of_mem_routes {s : Solid K}
    (hs : ∀ t ∈ s.additive, ∀ placement inner, t ≠ .placed placement inner)
    {f : Vec3 K → Vec3 K} (hf : f ∈ s.routes) : f = id := by
  induction s with
  | sphere | box | torus | cylinder | plane => exact List.mem_singleton.1 hf
  | boolean combiner a b iha ihb =>
    obtain ⟨-, hs⟩ := forall_mem_additive_iff.1 hs
    have ha := hs a (by cases combiner <;> simp [addends, children])
    cases combiner with
    | subtract => exact iha ha hf
    | add | union | blend =>
      rcases List.mem_append.1 hf with hf | hf
      · exact iha ha hf
      · exact ihb (hs b (by simp [addends, children])) hf
  | duplicate _ inner ih | scaled _ inner ih =>
    exact ih ((forall_mem_additive_iff.1 hs).2 inner (by simp [addends, children])) hf
  | placed placement inner => exact absurd rfl (hs _ List.mem_cons_self placement inner)

/-- No plane, no repetition along an axis and no matrix but one with the last row `0 0 0 1`. -/
def Bounded : Solid K → Prop
  | .plane .. => False
  | .duplicate period _ => period = ⟨0, 0, 0⟩
  | .placed placement _ => placement.matrix.IsAffine
  | _ => True

variable [LinearOrder K] [IsStrictOrderedRing K] [ExactScalar K]

open BoundingBox (contains_union_left contains_union_right contains_expand contains_scale
  contains_hull_corners exists_contains_around)

/-! ## Shapes -/

section Shapes

variable {center p : Vec3 K}

theorem overhangDistance_le_sphere {radius : K} (hr : 0 ≤ radius) :
    overhangDistance ((p - center).abs - Vec3.uniform radius) ≤
      (sphere center radius).distance p := by
  simp only [distance]
  generalize p - center = v
  obtain ⟨n, hn, h⟩ := exists_outward_dot_eq (v.abs - Vec3.uniform radius)
  have hlength : n.dot v.abs ≤ v.length :=
    (hn.dot_le_length _).trans (Vec3.length_le_length (by simp) (by simp) (by simp))
  have hsum := mul_le_mul_of_nonneg_right hn.one_le_sum hr
  rw [← h, Vec3.dot_sub]
  simp only [Vec3.dot, Vec3.uniform] at hlength ⊢
  linarith

theorem overhangDistance_le_torus {majorRadius minorRadius : K} (hmajor : 0 ≤ majorRadius)
    (hminor : 0 ≤ minorRadius) :
    overhangDistance ((p - center).abs -
        ⟨majorRadius + minorRadius, minorRadius, majorRadius + minorRadius⟩) ≤
      (torus center majorRadius minorRadius).distance p := by
  simp only [distance]
  generalize p - center = v
  obtain ⟨n, hn, h⟩ := exists_outward_dot_eq
    (v.abs - ⟨majorRadius + minorRadius, minorRadius, majorRadius + minorRadius⟩)
  have hsides := hn.sides_le_mantle hmajor v
  have hring := hn.turned.dot_le_length ⟨planarLength v.x v.z - majorRadius, |v.y|, 0⟩
  have hplanar : (⟨planarLength v.x v.z - majorRadius, |v.y|, 0⟩ : Vec3 K).length =
      planarLength (planarLength v.x v.z - majorRadius) v.y := by
    refine Vec3.length_eq_of_sq (planarLength_nonneg _ _) ?_
    simp [sq_planarLength]
  have hsum := mul_le_mul_of_nonneg_right hn.one_le_sum hminor
  rw [← h, ← hplanar]
  refine le_trans ?_ (sub_le_sub_right hring _)
  simp only [Vec3.dot, Vec3.sub_x, Vec3.sub_y, Vec3.sub_z, Vec3.abs_x, Vec3.abs_y, Vec3.abs_z]
  linarith

theorem overhangDistance_le_cylinder {radius halfLength : K} (hr : 0 ≤ radius) :
    overhangDistance ((p - center).abs - ⟨radius, halfLength, radius⟩) ≤
      (cylinder center radius halfLength).distance p := by
  simp only [distance, ExactScalar.abs_eq]
  generalize p - center = v
  obtain ⟨n, hn, h⟩ := exists_outward_dot_eq (v.abs - ⟨radius, halfLength, radius⟩)
  have hsides := hn.sides_le_mantle hr v
  obtain ⟨z, hz, hzero⟩ : ∃ z, z ≤ |v.y| - halfLength ∧ z ≤ 0 :=
    ⟨min (|v.y| - halfLength) 0, min_le_left _ _, min_le_right _ _⟩
  have hcaps := hn.turned.dot_le_overhangDistance
    ⟨planarLength v.x v.z - radius, |v.y| - halfLength, z⟩
  rw [← h, abs_of_nonneg (planarLength_nonneg _ _), planarOverhangDistance_eq hz hzero]
  refine le_trans ?_ hcaps
  simp only [Vec3.dot, Vec3.sub_x, Vec3.sub_y, Vec3.sub_z, Vec3.abs_x, Vec3.abs_y, Vec3.abs_z]
  linarith

/-- Where the distance to a shape with an end is at most `t`, a point of its box is as near. -/
theorem exists_shape_bounds_contains {s : Solid K} (hs : s.Checked) (hbounded : s.Bounded)
    (hshape : s.isPrimitive = true) {t : K} (ht : 0 ≤ t) (h : s.distance p ≤ t) :
    ∃ q, s.bounds.contains q = true ∧ (p - q).length ≤ t := by
  have hradii : ∀ x ∈ s.radii, 0 ≤ x := fun x hx => by simpa using hs.radii x hx
  have hhalves : ∀ x ∈ s.halves, 0 ≤ x := fun x hx => by
    have htwice := (hs.halves x hx).2
    norm_num at htwice
    exact htwice
  cases s with
  | sphere center radius =>
    have hr : 0 ≤ radius := hradii radius (by simp [Solid.radii])
    exact exists_contains_around hr hr hr ht ((overhangDistance_le_sphere hr).trans h)
  | box center halfExtents =>
    exact exists_contains_around (hhalves _ (by simp [halves, Vec3.toList]))
      (hhalves _ (by simp [halves, Vec3.toList])) (hhalves _ (by simp [halves, Vec3.toList])) ht h
  | torus center majorRadius minorRadius =>
    have hmajor := hradii majorRadius (by simp [Solid.radii])
    have hminor := hradii minorRadius (by simp [Solid.radii])
    exact exists_contains_around (add_nonneg hmajor hminor) hminor (add_nonneg hmajor hminor) ht
      ((overhangDistance_le_torus hmajor hminor).trans h)
  | cylinder center radius halfLength =>
    have hr := hradii radius (by simp [Solid.radii])
    have hhalf := hhalves halfLength (by simp [halves])
    exact exists_contains_around hr hhalf hr ht ((overhangDistance_le_cylinder hr).trans h)
  | plane => exact hbounded.elim
  | boolean | duplicate | placed | scaled => simp [isPrimitive, children] at hshape

end Shapes

/-! ## Near boxes -/

/-- A point as far from a point of a box as one of the routes makes of a vector no longer than
`t`. -/
def Near (box : BoundingBox K) (routes : List (Vec3 K → Vec3 K)) (t : K) (p : Vec3 K) : Prop :=
  ∃ q, box.contains q = true ∧ ∃ f ∈ routes, ∃ v, v.length ≤ t ∧ p - q = f v

namespace Near

variable {box box' : BoundingBox K} {routes routes' : List (Vec3 K → Vec3 K)} {t : K} {p : Vec3 K}

omit [IsStrictOrderedRing K] in
theorem union_left (h : Near box routes t p) :
    Near (box.union box') (routes ++ routes') t p := by
  obtain ⟨q, hq, f, hf, hway⟩ := h
  exact ⟨q, contains_union_left hq, f, List.mem_append_left _ hf, hway⟩

omit [IsStrictOrderedRing K] in
theorem union_right (h : Near box' routes' t p) :
    Near (box.union box') (routes ++ routes') t p := by
  obtain ⟨q, hq, f, hf, hway⟩ := h
  exact ⟨q, contains_union_right hq, f, List.mem_append_right _ hf, hway⟩

theorem placed {m : Matrix4 K} (h : Near box routes t p) :
    Near (.hull (box.corners.map m.transform)) (routes.map fun f v => m.linear (f v)) t
      (m.transform p) := by
  obtain ⟨q, hq, f, hf, v, hv, hpq⟩ := h
  refine ⟨m.transform q, contains_hull_corners hq m, _, List.mem_map_of_mem hf, v, hv, ?_⟩
  rw [Matrix4.transform_sub_transform, hpq]

theorem scaled {k : K} (hroutes : ∀ f ∈ routes, ∀ v k, f (v.scale k) = (f v).scale k)
    (h : Near box routes t p) :
    Near ⟨(box.lower.scale k).least (box.upper.scale k),
      (box.lower.scale k).greatest (box.upper.scale k)⟩ routes (t * |k|) (p.scale k) := by
  obtain ⟨q, hq, f, hf, v, hv, hpq⟩ := h
  refine ⟨q.scale k, contains_scale hq k, f, hf, v.scale k, ?_, ?_⟩
  · rw [Vec3.length_scale]
    exact mul_le_mul_of_nonneg_right hv (abs_nonneg k)
  · rw [hroutes f hf, ← hpq, Vec3.scale_sub_scale]

/-- What a blend goes beyond its solids is made up for where the routes lengthen nothing more than
four times. -/
theorem expand (hroutes : ∀ f ∈ routes, ∀ v k, f (v.scale k) = (f v).scale k)
    (hlengthens : ∀ f ∈ routes, ∀ v, (f v).length ≤ 4 * v.length) (ht : 0 ≤ t)
    (h : Near box routes (t + 1 / 16) p) : Near (box.expand blendRadius) routes t p := by
  obtain ⟨q, hq, f, hf, v, hv, hpq⟩ := h
  have hpos : 0 < t + 1 / 16 := by linarith
  -- go so far on the way to `p` that what remains of the vector is no longer than `t`
  set share : K := t / (t + 1 / 16) with hshare
  have hshare0 : 0 ≤ share := div_nonneg ht hpos.le
  have hrest : 1 - share = 1 / 16 / (t + 1 / 16) := by
    rw [hshare]
    field_simp
    ring
  have hrest0 : 0 ≤ 1 - share := hrest ▸ div_nonneg (by norm_num) hpos.le
  refine ⟨q + (f v).scale (1 - share), contains_expand hq ?_, f, hf, v.scale share, ?_, ?_⟩
  · have hway : q + (f v).scale (1 - share) - q = f (v.scale (1 - share)) := by
      rw [hroutes f hf]
      ext <;> simp
    rw [hway, Combiner.blendRadius_eq]
    calc (f (v.scale (1 - share))).length ≤ 4 * (v.scale (1 - share)).length := hlengthens f hf _
      _ = 4 * (v.length * (1 - share)) := by rw [Vec3.length_scale, abs_of_nonneg hrest0]
      _ ≤ 4 * ((t + 1 / 16) * (1 - share)) := by gcongr
      _ = 1 / 4 := by rw [hrest]; field_simp; norm_num
  · calc (v.scale share).length = v.length * share := by
          rw [Vec3.length_scale, abs_of_nonneg hshare0]
      _ ≤ (t + 1 / 16) * share := mul_le_mul_of_nonneg_right hv hshare0
      _ = t := by rw [hshare]; field_simp
  · rw [hroutes f hf, ← hpq]
    ext <;> simp <;> ring

/-- At no distance a point is in the box. -/
theorem contains (hroutes : ∀ f ∈ routes, ∀ v k, f (v.scale k) = (f v).scale k)
    (h : Near box routes 0 p) : box.contains p = true := by
  obtain ⟨q, hq, f, hf, v, hv, hpq⟩ := h
  have hself : v - v.scale 0 = v := by ext <;> simp
  have hzero : v = v.scale 0 := Vec3.eq_of_length_sub_nonpos (hself.symm ▸ hv)
  have hlength : (p - q).length ≤ 0 := by
    rw [hpq, hzero, hroutes f hf, Vec3.length_scale, abs_zero, mul_zero]
  rwa [Vec3.eq_of_length_sub_nonpos hlength]

end Near

/-! ## Trees -/

/-- What makes the box of a node large enough where those of its children are. -/
structure Enclosable (s : Solid K) : Prop where
  checked : s.Checked
  bounded : s.Bounded
  lengthens : ∀ a b, s = .boolean .blend a b → ∀ f ∈ a.routes ++ b.routes,
    ∀ v, (f v).length ≤ 4 * v.length

/-- Where the distance is at most `t`, the matrices on some way down make the way to a point of the
box from a vector no longer than `t`. -/
theorem near_bounds {s : Solid K} (hs : ∀ u ∈ s.additive, u.Enclosable) {t : K} (ht : 0 ≤ t)
    {p : Vec3 K} (h : s.distance p ≤ t) : Near s.bounds s.routes t p := by
  induction s generalizing t p with
  | sphere | box | torus | cylinder | plane =>
    obtain ⟨hroot, -⟩ := forall_mem_additive_iff.1 hs
    obtain ⟨q, hq, hpq⟩ := exists_shape_bounds_contains hroot.checked hroot.bounded rfl ht h
    exact ⟨q, hq, id, List.mem_singleton_self _, p - q, hpq, rfl⟩
  | boolean combiner a b iha ihb =>
    obtain ⟨hroot, hchildren⟩ := forall_mem_additive_iff.1 hs
    have ha := hchildren a (by cases combiner <;> simp [addends, children])
    simp only [distance] at h
    cases combiner with
    | add | union =>
      have hb := hchildren b (by simp [addends, children])
      simp only [Combiner.combine_add, Combiner.combine_union, min_le_iff] at h
      exact h.elim (fun h => (iha ha ht h).union_left) (fun h => (ihb hb ht h).union_right)
    | subtract =>
      rw [Combiner.combine_subtract] at h
      exact iha ha ht (le_of_max_le_left h)
    | blend =>
      have hb := hchildren b (by simp [addends, children])
      have ht' : (0 : K) ≤ t + 1 / 16 := by linarith
      have hmin := (Combiner.min_sub_le_combine_blend _ _).trans h
      rw [sub_le_iff_le_add, min_le_iff] at hmin
      refine Near.expand (fun f => route_scale (s := .boolean .blend a b))
        (hroot.lengthens a b rfl) ht ?_
      exact hmin.elim (fun h => (iha ha ht' h).union_left) (fun h => (ihb hb ht' h).union_right)
  | duplicate period inner ih =>
    obtain ⟨hroot, hinner⟩ := forall_mem_additive_iff.1 hs
    obtain rfl : period = ⟨0, 0, 0⟩ := hroot.bounded
    have hfold : Vec3.zip foldAxis p ⟨0, 0, 0⟩ = p := by ext <;> simp [Vec3.zip, foldAxis_zero]
    have hbounds : (duplicate ⟨0, 0, 0⟩ inner).bounds = inner.bounds := by
      simp [bounds, repeatedBounds, Vec3.zip, repeats_iff]
    simp only [distance, hfold] at h
    rw [hbounds]
    exact ih (hinner inner (by simp [addends, children])) ht h
  | placed placement inner ih =>
    obtain ⟨hroot, hinner⟩ := forall_mem_additive_iff.1 hs
    have hnear := ih (hinner inner (by simp [addends, children])) ht h
    rw [← Placement.transform_inverse hroot.checked.usable hroot.bounded p]
    exact hnear.placed
  | scaled factor inner ih =>
    obtain ⟨hroot, hinner⟩ := forall_mem_additive_iff.1 hs
    have hfactor : factor ≠ 0 := by simpa [Usable] using hroot.checked.usable
    have hpos := abs_pos.2 hfactor
    simp only [distance, ExactScalar.abs_eq, ← le_div_iff₀ hpos] at h
    have hnear := ih (hinner inner (by simp [addends, children])) (div_nonneg ht hpos.le) h
    have hp : (p.divide factor).scale factor = p := by ext <;> simp [hfactor]
    have hscaled := hnear.scaled (k := factor) fun f => route_scale
    rwa [hp, div_mul_cancel₀ _ hpos.ne'] at hscaled

/-- The box contains what the solid contains. -/
theorem bounds_contains_of_nonpos {s : Solid K} (hs : ∀ u ∈ s.additive, u.Enclosable)
    {p : Vec3 K} (h : s.distance p ≤ 0) : s.bounds.contains p = true :=
  (near_bounds hs le_rfl h).contains fun _ => route_scale

end SolidScene.Solid
