import SolidScene.Proofs.Number.Addition
import SolidScene.Proofs.Scene.Soundness
import SolidScene.Solid.Bounds

/-!
# The corners of boxes of doubles

In doubles, no coordinate of the box of a scene that was read is a NaN, and along each axis its
lower corner is not above its upper one where the box is drawn around anything
(`bounds_ordered_iff`). It is not where a matrix meets infinite coordinates, or makes some, and
takes all eight corners to NaN: then the hull stays as it starts, with its lower corner at the
greatest double and its upper one at the least (`bounds_not_ordered`).
-/

namespace SolidScene

open Binary64

/-! ## Axes -/

inductive Axis where
  | x
  | y
  | z

namespace Vec3

variable {α : Type}

/-- The coordinate along an axis. -/
def along (axis : Axis) (v : Vec3 α) : α :=
  match axis with
  | .x => v.x
  | .y => v.y
  | .z => v.z

variable (axis : Axis) (v w : Vec3 α)

theorem along_mem_toList : v.along axis ∈ v.toList := by
  cases axis <;> simp [along, toList]

theorem along_zip (f : α → α → α) : (zip f v w).along axis = f (v.along axis) (w.along axis) := by
  cases axis <;> rfl

theorem along_uniform (k : α) : (uniform k).along axis = k := by
  cases axis <;> rfl

end Vec3

/-! ## Ends -/

/-- The ends of a box along an axis are no NaN. They are in order if the box is drawn around
anything, and those that hulls start from if it is not. -/
structure Ends (drawn : Prop) (l u : Float) : Prop where
  lower : l.isNaN = false
  upper : u.isNaN = false
  le (h : drawn) : place l ≤ place u
  start (h : ¬ drawn) : l = largest ∧ u = -largest

/-- How far a shape reaches: neither a NaN nor below zero. -/
def Reach (r : Float) : Prop := r.isNaN = false ∧ 0 ≤ place r

namespace Ends

variable {drawn drawn' : Prop} {l u l' u' v : Float}

theorem of_le (hl : l.isNaN = false) (hu : u.isNaN = false) (hle : place l ≤ place u) :
    Ends True l u :=
  ⟨hl, hu, fun _ => hle, fun h => absurd True.intro h⟩

theorem at_start : Ends False largest (-largest) :=
  ⟨by decide, by decide, False.elim, fun _ => ⟨rfl, rfl⟩⟩

theorem ordered_iff (h : Ends drawn l u) : l ≤ u ↔ drawn := by
  rw [le_iff_place_le h.lower h.upper]
  refine ⟨fun hle => ?_, h.le⟩
  by_contra hdrawn
  obtain ⟨rfl, rfl⟩ := h.start hdrawn
  exact absurd hle (by decide)

theorem congr (h : Ends drawn l u) (hdrawn : drawn ↔ drawn') : Ends drawn' l u :=
  propext hdrawn ▸ h

/-- Around two boxes, of which one that is not drawn adds nothing. -/
theorem union (h : Ends drawn l u) (h' : Ends drawn' l' u') :
    Ends (drawn ∨ drawn') (least l l') (greatest u u') := by
  obtain ⟨hl, hplace⟩ := place_least h.lower h'.lower
  obtain ⟨hu, hplace'⟩ := place_greatest h.upper h'.upper
  refine ⟨hl, hu, fun hdrawn => ?_, fun hdrawn => ?_⟩
  · rw [hplace, hplace']
    rcases hdrawn with hdrawn | hdrawn
    · exact (min_le_left _ _).trans ((h.le hdrawn).trans (le_max_left _ _))
    · exact (min_le_right _ _).trans ((h'.le hdrawn).trans (le_max_right _ _))
  · obtain ⟨rfl, rfl⟩ := h.start fun hd => hdrawn (.inl hd)
    obtain ⟨rfl, rfl⟩ := h'.start fun hd => hdrawn (.inr hd)
    exact ⟨by decide, by decide⟩

/-- A NaN adds nothing either. -/
theorem insert (h : Ends drawn l u) (v : Float) :
    Ends (drawn ∨ v.isNaN = false) (least l v) (greatest u v) := by
  cases hv : v.isNaN with
  | false => exact (h.union (.of_le hv hv le_rfl)).congr (by simp)
  | true =>
    rw [least_of_isNaN h.lower hv, greatest_of_isNaN h.upper hv]
    exact h.congr (by simp)

/-- Moving the ends apart keeps them in order, and does not reach beyond where hulls start. -/
theorem expand (h : Ends drawn l u) : Ends drawn (l - 0.25) (u + 0.25) := by
  have hmargin : (0.25 : Float).isFinite = true := by decide
  obtain ⟨hl, hle⟩ := place_sub_le h.lower (isNaN_of_isFinite hmargin) (by decide) (.inr hmargin)
  obtain ⟨hu, hle'⟩ := le_place_add h.upper (isNaN_of_isFinite hmargin) (by decide) (.inr hmargin)
  refine ⟨hl, hu, fun hdrawn => hle.trans ((h.le hdrawn).trans hle'), fun hdrawn => ?_⟩
  obtain ⟨rfl, rfl⟩ := h.start hdrawn
  exact ⟨by decide +kernel, by decide +kernel⟩

theorem around {center r : Float} (hcenter : center.isFinite = true) (hr : Reach r) :
    Ends True (center - r) (center + r) := by
  have hnan := isNaN_of_isFinite hcenter
  obtain ⟨hl, hle⟩ := place_sub_le hnan hr.1 hr.2 (.inl hcenter)
  obtain ⟨hu, hle'⟩ := le_place_add hnan hr.1 hr.2 (.inl hcenter)
  exact .of_le hl hu (hle.trans hle')

/-- Ends that are no NaN may change places in scaling. -/
theorem scaled (h : Ends drawn l u) {factor : Float} (hfactor : factor.isFinite = true)
    (h0 : magnitudeBits factor ≠ 0) :
    Ends True (least (l * factor) (u * factor)) (greatest (l * factor) (u * factor)) := by
  have hl := isNaN_mul h.lower hfactor h0
  have hu := isNaN_mul h.upper hfactor h0
  obtain ⟨hleast, hplace⟩ := place_least hl hu
  obtain ⟨hgreatest, hplace'⟩ := place_greatest hl hu
  refine .of_le hleast hgreatest ?_
  rw [hplace, hplace']
  exact (min_le_left _ _).trans (le_max_left _ _)

end Ends

/-! ## Boxes -/

namespace BoundingBox

/-- What the ends of a box along an axis satisfy. -/
def EndsAlong (axis : Axis) (drawn : Prop) (b : BoundingBox Float) : Prop :=
  Ends drawn (b.lower.along axis) (b.upper.along axis)

variable {axis : Axis} {drawn : Prop} {b : BoundingBox Float}

theorem endsAlong_foldl (h : b.EndsAlong axis drawn) (points : List (Vec3 Float)) :
    (points.foldl (fun b p => ⟨b.lower.least p, b.upper.greatest p⟩) b).EndsAlong axis
      (drawn ∨ ∃ p ∈ points, (p.along axis).isNaN = false) := by
  induction points generalizing b drawn with
  | nil => exact h.congr (by simp)
  | cons p points ih =>
    have hp : BoundingBox.EndsAlong axis (drawn ∨ (p.along axis).isNaN = false)
        ⟨b.lower.least p, b.upper.greatest p⟩ := by
      rw [EndsAlong, Vec3.least, Vec3.greatest, Vec3.along_zip, Vec3.along_zip]
      exact h.insert (p.along axis)
    exact (ih hp).congr (by simp [or_assoc])

/-- A hull is drawn where the coordinate of some point is no NaN. -/
theorem endsAlong_hull (points : List (Vec3 Float)) :
    (hull points).EndsAlong axis (∃ p ∈ points, (p.along axis).isNaN = false) := by
  have hstart : BoundingBox.EndsAlong axis False
      ⟨Vec3.uniform Scalar.largest, Vec3.uniform (-Scalar.largest)⟩ := by
    rw [EndsAlong, Vec3.along_uniform, Vec3.along_uniform]
    exact .at_start
  exact (endsAlong_foldl hstart points).congr (by simp)

theorem endsAlong_around {center reach : Vec3 Float}
    (hcenter : ∀ x ∈ center.toList, x.isFinite = true) (hreach : ∀ r ∈ reach.toList, Reach r) :
    (around center reach).EndsAlong axis True := by
  have h := Ends.around (hcenter _ (center.along_mem_toList axis))
    (hreach _ (reach.along_mem_toList axis))
  cases axis <;> exact h

end BoundingBox

/-! ## Solids -/

namespace Solid

/-- Along an axis the box of a solid is drawn around anything: a matrix leaves nothing to draw it
around where it takes all corners to NaN. -/
def Drawn (axis : Axis) : Solid Float → Prop
  | .boolean .subtract a _ => a.Drawn axis
  | .boolean _ a b => a.Drawn axis ∨ b.Drawn axis
  | .duplicate period inner => repeats (period.along axis) = true ∨ inner.Drawn axis
  | .placed placement inner => ∃ corner ∈ inner.bounds.corners,
    ((placement.matrix.transform corner).along axis).isNaN = false
  | _ => True

variable {axis : Axis}

theorem reach_of_not_lt {r : Float} (hfinite : r.isFinite = true)
    (hsign : Scalar.lt r 0.0 = false) : Reach r := by
  have hle := (lt_iff hfinite isFinite_zero).not.1 (of_decide_eq_false hsign)
  rw [place_zero, not_lt] at hle
  exact ⟨isNaN_of_isFinite hfinite, hle⟩

theorem Checked.reach {s : Solid Float} (h : s.Checked) :
    ∀ r ∈ s.radii ++ s.halves, Reach r := by
  intro r hr
  have hstored : r ∈ s.stored := by
    rcases List.mem_append.1 hr with hr | hr
    · exact radii_subset_stored r hr
    · exact halves_subset_stored r hr
  exact reach_of_not_lt (h.finite r hstored) (h.not_lt_zero r hr)

theorem endsAlong_repeatedBounds {b : BoundingBox Float} {drawn : Prop}
    (h : b.EndsAlong axis drawn) (period : Vec3 Float) :
    (repeatedBounds period b).EndsAlong axis
      (repeats (period.along axis) = true ∨ drawn) := by
  rw [BoundingBox.EndsAlong, repeatedBounds, Vec3.along_zip, Vec3.along_zip]
  dsimp only
  split_ifs with hrepeats
  · exact (Ends.of_le (by decide) (by decide) (by decide)).congr (by simp [hrepeats])
  · exact h.congr (by simp [hrepeats])

theorem endsAlong_unbounded : BoundingBox.unbounded.EndsAlong axis True := by
  rw [BoundingBox.EndsAlong, BoundingBox.unbounded, BoundingBox.cube, Vec3.along_uniform,
    Vec3.along_uniform]
  exact .of_le (by decide) (by decide) (by decide)

theorem magnitudeBits_factor_ne_zero {factor : Float} (hfinite : factor.isFinite = true)
    (hfactor : Scalar.eq factor 0.0 = false) : magnitudeBits factor ≠ 0 := by
  intro hzero
  have hplace := (beq_iff hfinite isFinite_zero).not.1 (Bool.eq_false_iff.1 hfactor)
  rw [place_zero, place, hzero, onLine_zero] at hplace
  exact hplace rfl

/-- Along every axis, the ends of a shape's box are no NaN, and in order. -/
theorem endsAlong_shape {s : Solid Float} (hs : s.Checked) (hshape : s.isPrimitive = true) :
    s.bounds.EndsAlong axis (s.Drawn axis) := by
  cases s with
  | sphere center radius =>
    have hradius := hs.reach radius (by simp [radii])
    refine BoundingBox.endsAlong_around (fun x hx => hs.finite x (by simp [stored, hx])) ?_
    simp [Vec3.uniform, Vec3.toList, hradius]
  | box center halfExtents =>
    exact BoundingBox.endsAlong_around (fun x hx => hs.finite x (by simp [stored, hx]))
      fun r hr => hs.reach r (by simp [halves, hr])
  | torus center majorRadius minorRadius =>
    have hmajor := hs.reach majorRadius (by simp [radii])
    have hminor := hs.reach minorRadius (by simp [radii])
    -- the sum may be infinite, which is no NaN
    obtain ⟨hnan, hle⟩ := le_place_add hmajor.1 hminor.1 hminor.2
      (.inl (hs.finite majorRadius (by simp [stored])))
    have hsum : Reach (majorRadius + minorRadius) := ⟨hnan, hmajor.2.trans hle⟩
    refine BoundingBox.endsAlong_around (fun x hx => hs.finite x (by simp [stored, hx])) ?_
    simp [Vec3.toList, hsum, hminor]
  | cylinder center radius halfLength =>
    have hradius := hs.reach radius (by simp [radii])
    have hhalf := hs.reach halfLength (by simp [halves])
    refine BoundingBox.endsAlong_around (fun x hx => hs.finite x (by simp [stored, hx])) ?_
    simp [Vec3.toList, hradius, hhalf]
  | plane point normal => exact endsAlong_unbounded
  | boolean | duplicate | placed | scaled => cases hshape

/-- Along every axis, the ends of a well-formed solid's box are no NaN, and in order just where the
box is drawn around anything. -/
theorem endsAlong_bounds {s : Solid Float} (hs : s.WellFormed) :
    s.bounds.EndsAlong axis (s.Drawn axis) := by
  induction s with
  | sphere | box | torus | cylinder | plane => exact endsAlong_shape (wellFormed_iff.1 hs).1 rfl
  | boolean combiner a b iha ihb =>
    obtain ⟨-, hchildren⟩ := wellFormed_iff.1 hs
    have ha := iha (hchildren a (by simp [children]))
    have hb := ihb (hchildren b (by simp [children]))
    have hunion : (a.bounds.union b.bounds).EndsAlong axis (a.Drawn axis ∨ b.Drawn axis) := by
      rw [BoundingBox.EndsAlong, BoundingBox.union, Vec3.least, Vec3.greatest, Vec3.along_zip,
        Vec3.along_zip]
      exact ha.union hb
    cases combiner with
    | subtract => exact ha
    | add | union => exact hunion
    | blend =>
      have hexpand := hunion.expand
      cases axis <;> exact hexpand
  | duplicate period inner ih =>
    obtain ⟨-, hinner⟩ := wellFormed_iff.1 hs
    exact endsAlong_repeatedBounds (ih (hinner inner (by simp [children]))) period
  | placed placement inner ih =>
    refine (BoundingBox.endsAlong_hull _).congr ?_
    simp [Drawn]
  | scaled factor inner ih =>
    obtain ⟨hchecked, hinner⟩ := wellFormed_iff.1 hs
    have hfinite : factor.isFinite = true := hchecked.finite factor (by simp [stored])
    have h0 := magnitudeBits_factor_ne_zero hfinite hchecked.usable
    have hscaled := (ih (hinner inner (by simp [children]))).scaled hfinite h0
    cases axis <;> exact hscaled

end Solid

namespace Scene

/-- The box of a scene that was read has no NaN in its corners, and they are in order along just the
axes along which it is drawn around anything. -/
theorem bounds_ordered_iff {limit : ℕ} {text : String} {s : Scene} (h : parse limit text = .ok s)
    (axis : Axis) :
    (s.bounds.lower.along axis).isNaN = false ∧ (s.bounds.upper.along axis).isNaN = false ∧
      (s.bounds.lower.along axis ≤ s.bounds.upper.along axis ↔ s.Drawn axis) := by
  have hends : s.bounds.EndsAlong axis (s.Drawn axis) :=
    Solid.endsAlong_bounds (wellFormed_of_parse h).1
  exact ⟨hends.lower, hends.upper, hends.ordered_iff⟩

/-- A ball so far away that its box reaches to infinity once the matrix has moved it. -/
theorem bounds_ordered_iff_far :
    let text := "[% matrix 1e300 0 0 0 0 1 0 0 0 0 1 0 [+ sphere 1e300 0 0 1]]"
    let m : Matrix4 Float := ⟨⟨1e300, 0.0, 0.0, 0.0⟩, ⟨0.0, 1.0, 0.0, 0.0⟩, ⟨0.0, 0.0, 1.0, 0.0⟩,
      ⟨0.0, 0.0, 0.0, 1.0⟩⟩
    let s : Scene := .placed ⟨m, m.inverse⟩ (.sphere ⟨1e300, 0.0, 0.0⟩ 1.0)
    parse 2 text = .ok s ∧ s.bounds.upper.x.isFinite = false ∧
      s.bounds.lower.x.isNaN = false ∧ s.bounds.upper.x.isNaN = false ∧
      s.bounds.lower.x ≤ s.bounds.upper.x := by
  intro text m s
  have hparse : parse 2 text = .ok s := by decide +kernel
  have hdrawn : s.Drawn .x := by
    show ∃ corner ∈ _, _
    decide +kernel
  obtain ⟨hlower, hupper, hordered⟩ := bounds_ordered_iff hparse .x
  exact ⟨hparse, by decide +kernel, hlower, hupper, hordered.2 hdrawn⟩

/-- The matrix moves nothing, but the torus is wider than any double, and zeros of the matrix times
infinity are NaN. -/
theorem bounds_not_ordered :
    let text := "[% matrix 1 0 0 0 0 1 0 0 0 0 1 0 [+ torus 0 0 0 1e308 1e308]]"
    let m : Matrix4 Float := ⟨⟨1.0, 0.0, 0.0, 0.0⟩, ⟨0.0, 1.0, 0.0, 0.0⟩, ⟨0.0, 0.0, 1.0, 0.0⟩,
      ⟨0.0, 0.0, 0.0, 1.0⟩⟩
    let s : Scene := .placed ⟨m, m.inverse⟩ (.torus ⟨0.0, 0.0, 0.0⟩ 1e308 1e308)
    parse 2 text = .ok s ∧
      ∀ axis, ¬ s.bounds.lower.along axis ≤ s.bounds.upper.along axis := by
  intro text m s
  refine ⟨by decide +kernel, fun axis => ?_⟩
  cases axis <;> decide +kernel

end Scene

end SolidScene
