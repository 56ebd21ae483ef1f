import SolidScene.Proofs.Geometry.Length
import SolidScene.Proofs.Solid.Distance

/-!
# Repeated solids

An axis is folded by taking every point to its copy in the cell around zero
(`foldAxis_eq_of_isCopy`). So a repeated solid shows at every copy of a point what the solid has at
the one in the cell, and of a solid that reaches out of the cell, or lies outside it, only the part
in the cell is repeated (`distance_duplicate_copies`, `distance_duplicate_outside_cell`). Neither
the sign of a period nor repeating once more makes a difference (`distance_duplicate_folded`).
-/

namespace SolidScene

variable {K : Type} [Field K]

/-! ## Copies and cells -/

/-- Whole periods apart. Without a period there are no other copies. -/
def IsCopy (period x y : K) : Prop := ∃ n : ℤ, y = x + n * period

section Copies

variable {period x y z : K}

theorem IsCopy.symm (h : IsCopy period x y) : IsCopy period y x := by
  obtain ⟨n, rfl⟩ := h
  exact ⟨-n, by push_cast; ring⟩

theorem IsCopy.trans (h : IsCopy period x y) (h' : IsCopy period y z) : IsCopy period x z := by
  obtain ⟨n, rfl⟩ := h
  obtain ⟨m, rfl⟩ := h'
  exact ⟨n + m, by push_cast; ring⟩

end Copies

variable [LinearOrder K]

/-- In the cell around zero. Without a period every point is. -/
def InCell (period x : K) : Prop := period ≠ 0 → -(|period| * 0.5) ≤ x ∧ x < |period| * 0.5

variable [IsStrictOrderedRing K] {period x y : K}

/-- Two copies in the cell are one. -/
theorem IsCopy.eq_of_inCell (h : IsCopy period x y) (hx : InCell period x)
    (hy : InCell period y) : x = y := by
  obtain ⟨n, rfl⟩ := h
  by_cases hperiod : period = 0
  · rw [hperiod, mul_zero, add_zero]
  obtain ⟨hx, hx'⟩ := hx hperiod
  obtain ⟨hy, hy'⟩ := hy hperiod
  have hpos := abs_pos.2 hperiod
  -- the whole number of periods between them is less than one period
  have hlt : |(n : K)| * |period| < 1 * |period| := by
    rw [← abs_mul, abs_lt]
    constructor <;> linarith
  have hn : |n| < 1 := by
    have hcast := lt_of_mul_lt_mul_right hlt hpos.le
    exact_mod_cast hcast
  simp [Int.abs_lt_one_iff.1 hn]

/-- No copy is nearer to zero than the one in the cell. -/
theorem IsCopy.abs_le_of_inCell (h : IsCopy period x y) (hy : InCell period y) : |y| ≤ |x| := by
  obtain ⟨n, rfl⟩ := h
  by_cases hperiod : period = 0
  · rw [hperiod, mul_zero, add_zero]
  by_cases hn : n = 0
  · simp [hn]
  obtain ⟨hlow, hhigh⟩ := hy hperiod
  have hone : (1 : K) ≤ |(n : K)| := by exact_mod_cast Int.one_le_abs hn
  have hperiods : |period| ≤ |n * period| := by
    rw [abs_mul]
    exact le_mul_of_one_le_left (abs_nonneg period) hone
  have hhalf : |x + n * period| ≤ |period| * 0.5 := abs_le.2 ⟨hlow, hhigh.le⟩
  have htriangle := abs_sub_abs_le_abs_sub (n * period : K) (x + n * period)
  rw [show (n * period : K) - (x + n * period) = -x by ring, abs_neg] at htriangle
  linarith

/-! ## Folded axes -/

variable [ExactScalar K] [ExactRemainder K]

open Scalar (euclideanRemainder)

theorem exists_euclideanRemainder_eq (x : K) {y : K} (hy : 0 < y) :
    ∃ n : ℤ, euclideanRemainder x y = x - n * y ∧ 0 ≤ euclideanRemainder x y ∧
      euclideanRemainder x y < y := by
  obtain ⟨n, hn⟩ := ExactRemainder.exists_remainder_eq x hy.ne'
  have hlt := ExactRemainder.abs_remainder_lt x hy.ne'
  rw [abs_of_pos hy, abs_lt] at hlt
  unfold euclideanRemainder
  simp only [Scalar.literal_zero, ExactScalar.lt_iff, ExactScalar.abs_eq, abs_of_pos hy]
  split_ifs with hneg
  · exact ⟨n - 1, by rw [hn]; push_cast; ring, by linarith, by linarith⟩
  · exact ⟨n, hn, le_of_not_gt hneg, hlt.2⟩

theorem isCopy_inCell_foldAxis (x period : K) : IsCopy period x (foldAxis x period) ∧
    InCell period (foldAxis x period) := by
  unfold foldAxis
  split_ifs with hrepeats
  · have hperiod := repeats_iff.1 hrepeats
    have hpos := abs_pos.2 hperiod
    obtain ⟨n, hn, hlow, hhigh⟩ := exists_euclideanRemainder_eq (x + |period| * 0.5) hpos
    simp only [ExactScalar.abs_eq]
    constructor
    · -- a negative period counts the other way
      rcases abs_choice period with habs | habs <;> rw [hn, habs]
      · exact ⟨-n, by push_cast; ring⟩
      · exact ⟨n, by ring⟩
    · intro _
      norm_num at hlow hhigh ⊢
      constructor <;> linarith
  · have hperiod : period = 0 := by
      by_contra hne
      exact hrepeats (repeats_iff.2 hne)
    exact ⟨⟨0, by simp⟩, fun hne => absurd hperiod hne⟩

/-- An axis is folded to the copy in the cell. -/
theorem foldAxis_eq_of_isCopy (h : IsCopy period x y) (hy : InCell period y) :
    foldAxis x period = y := by
  obtain ⟨hcopy, hcell⟩ := isCopy_inCell_foldAxis x period
  exact (hcopy.symm.trans h).eq_of_inCell hcell hy

omit [IsStrictOrderedRing K] [ExactRemainder K] in
/-- The sign of a period makes no difference. -/
theorem foldAxis_of_abs_eq (x : K) {period' : K} (h : |period'| = |period|) :
    foldAxis x period' = foldAxis x period := by
  simp only [foldAxis, repeats, ExactScalar.abs_eq, h]

theorem abs_foldAxis_le (x period : K) : |foldAxis x period| ≤ |x| := by
  obtain ⟨hcopy, hcell⟩ := isCopy_inCell_foldAxis x period
  exact hcopy.abs_le_of_inCell hcell

/-! ## Points -/

namespace Vec3

/-- Whole periods apart along every axis. -/
structure IsCopy (period p q : Vec3 K) : Prop where
  x : SolidScene.IsCopy period.x p.x q.x
  y : SolidScene.IsCopy period.y p.y q.y
  z : SolidScene.IsCopy period.z p.z q.z

/-- In the cell around zero along every axis. -/
structure InCell (period p : Vec3 K) : Prop where
  x : SolidScene.InCell period.x p.x
  y : SolidScene.InCell period.y p.y
  z : SolidScene.InCell period.z p.z

/-- The copy of a point so many periods away along each axis. -/
def copy (p period : Vec3 K) (n : Vec3 ℤ) : Vec3 K :=
  ⟨p.x + n.x * period.x, p.y + n.y * period.y, p.z + n.z * period.z⟩

omit [LinearOrder K] [IsStrictOrderedRing K] [ExactScalar K] [ExactRemainder K] in
theorem isCopy_copy (p period : Vec3 K) (n : Vec3 ℤ) : IsCopy period p (p.copy period n) :=
  ⟨⟨n.x, rfl⟩, ⟨n.y, rfl⟩, ⟨n.z, rfl⟩⟩

omit [LinearOrder K] [IsStrictOrderedRing K] [ExactScalar K] [ExactRemainder K] in
theorem isCopy_self (period p : Vec3 K) : IsCopy period p p := by
  simpa [copy] using p.isCopy_copy period ⟨0, 0, 0⟩

theorem isCopy_inCell_fold (period p : Vec3 K) : IsCopy period p (zip foldAxis p period) ∧
    InCell period (zip foldAxis p period) := by
  obtain ⟨hx, hx'⟩ := isCopy_inCell_foldAxis p.x period.x
  obtain ⟨hy, hy'⟩ := isCopy_inCell_foldAxis p.y period.y
  obtain ⟨hz, hz'⟩ := isCopy_inCell_foldAxis p.z period.z
  exact ⟨⟨hx, hy, hz⟩, hx', hy', hz'⟩

theorem fold_eq_of_isCopy {period p q : Vec3 K} (h : IsCopy period p q) (hq : InCell period q) :
    zip foldAxis p period = q := by
  ext
  · exact foldAxis_eq_of_isCopy h.x hq.x
  · exact foldAxis_eq_of_isCopy h.y hq.y
  · exact foldAxis_eq_of_isCopy h.z hq.z

/-- The one copy of a point in the cell is where it is folded to. -/
theorem isCopy_inCell_iff {period p q : Vec3 K} :
    IsCopy period p q ∧ InCell period q ↔ q = zip foldAxis p period := by
  constructor
  · rintro ⟨hcopy, hcell⟩
    exact (fold_eq_of_isCopy hcopy hcell).symm
  · rintro rfl
    exact isCopy_inCell_fold period p

theorem fold_of_inCell {period p : Vec3 K} (h : InCell period p) : zip foldAxis p period = p :=
  fold_eq_of_isCopy (isCopy_self period p) h

omit [IsStrictOrderedRing K] [ExactRemainder K] in
theorem fold_of_abs_eq (p : Vec3 K) {period period' : Vec3 K} (h : period'.abs = period.abs) :
    zip foldAxis p period' = zip foldAxis p period := by
  simp only [Vec3.ext_iff, abs_x, abs_y, abs_z] at h
  ext
  · exact foldAxis_of_abs_eq p.x h.1
  · exact foldAxis_of_abs_eq p.y h.2.1
  · exact foldAxis_of_abs_eq p.z h.2.2

/-- All copies of a point are folded to the same one. -/
theorem fold_copy (p period : Vec3 K) (n : Vec3 ℤ) :
    zip foldAxis (p.copy period n) period = zip foldAxis p period := by
  obtain ⟨hcopy, hcell⟩ := isCopy_inCell_fold period p
  have hback := p.isCopy_copy period n
  exact fold_eq_of_isCopy ⟨hback.x.symm.trans hcopy.x, hback.y.symm.trans hcopy.y,
    hback.z.symm.trans hcopy.z⟩ hcell

end Vec3

namespace Solid

/-- A repeated solid has at every copy of a point the distance of the solid at the one copy in the
cell. So it contains all copies of the points of the solid that are in the cell. -/
theorem distance_duplicate_copies (inner : Solid K) (period p : Vec3 K) :
    (∃ q, (∀ q', Vec3.IsCopy period p q' ∧ Vec3.InCell period q' ↔ q' = q) ∧
      ∀ n, (duplicate period inner).distance (p.copy period n) = inner.distance q) ∧
    (Vec3.InCell period p → inner.distance p ≤ 0 →
      ∀ n, (duplicate period inner).distance (p.copy period n) ≤ 0) := by
  have hdistance : ∀ n, (duplicate period inner).distance (p.copy period n) =
      inner.distance (Vec3.zip foldAxis p period) := fun n =>
    congrArg inner.distance (p.fold_copy period n)
  refine ⟨⟨Vec3.zip foldAxis p period, fun q' => ⟨?_, ?_⟩, hdistance⟩, fun hp h n => ?_⟩
  · rintro ⟨hcopy, hcell⟩
    exact (Vec3.fold_eq_of_isCopy hcopy hcell).symm
  · rintro rfl
    exact Vec3.isCopy_inCell_fold period p
  · rw [hdistance, Vec3.fold_eq_of_isCopy (Vec3.isCopy_self period p) hp]
    exact h

/-- A ball that reaches out of the cell on one side is shown whole at the copies of its center. -/
theorem distance_duplicate_copies_ball :
    let ball : Solid ℝ := .sphere ⟨1, 0, 0⟩ 2
    Vec3.InCell (⟨-4, 0, 0⟩ : Vec3 ℝ) ⟨1, 0, 0⟩ ∧ ball.distance ⟨1, 0, 0⟩ ≤ 0 ∧
      (duplicate ⟨-4, 0, 0⟩ ball).distance ⟨13, 0, 0⟩ ≤ 0 := by
  intro ball
  have hcell : Vec3.InCell (⟨-4, 0, 0⟩ : Vec3 ℝ) ⟨1, 0, 0⟩ := by
    constructor <;> norm_num [InCell]
  have hcenter : ball.distance ⟨1, 0, 0⟩ ≤ 0 := by
    have hzero : ((⟨1, 0, 0⟩ : Vec3 ℝ) - ⟨1, 0, 0⟩).length = 0 :=
      Vec3.length_eq_of_sq le_rfl (by simp)
    simp only [ball, distance, hzero]
    norm_num
  have hcopies := (distance_duplicate_copies ball ⟨-4, 0, 0⟩ ⟨1, 0, 0⟩).2 hcell hcenter ⟨-3, 0, 0⟩
  have hcopy : (⟨1, 0, 0⟩ : Vec3 ℝ).copy ⟨-4, 0, 0⟩ ⟨-3, 0, 0⟩ = ⟨13, 0, 0⟩ := by
    ext <;> norm_num [Vec3.copy]
  rw [hcopy] at hcopies
  exact ⟨hcell, hcenter, hcopies⟩

/-- Of a ball outside the cell nothing is repeated: not even its own center is inside. -/
theorem distance_duplicate_outside_cell :
    let ball : Solid ℝ := .sphere ⟨5, 0, 0⟩ 1
    ball.distance ⟨5, 0, 0⟩ = -1 ∧
      ∀ n, (duplicate ⟨2, 0, 0⟩ ball).distance ((⟨5, 0, 0⟩ : Vec3 ℝ).copy ⟨2, 0, 0⟩ n) = 5 := by
  intro ball
  have hcopy : Vec3.IsCopy (⟨2, 0, 0⟩ : Vec3 ℝ) ⟨5, 0, 0⟩ ⟨-1, 0, 0⟩ :=
    ⟨⟨-3, by norm_num⟩, ⟨0, by norm_num⟩, 0, by norm_num⟩
  have hcell : Vec3.InCell (⟨2, 0, 0⟩ : Vec3 ℝ) ⟨-1, 0, 0⟩ := by
    constructor <;> norm_num [InCell]
  have hlength : ∀ x r : ℝ, 0 ≤ r → (x - 5) ^ 2 = r ^ 2 →
      ((⟨x, 0, 0⟩ : Vec3 ℝ) - ⟨5, 0, 0⟩).length = r := fun x r hr h =>
    Vec3.length_eq_of_sq hr (by simpa using h)
  constructor
  · simp only [ball, distance, hlength 5 0 le_rfl (by norm_num)]
    norm_num
  · intro n
    have hfold := (Vec3.fold_copy ⟨5, 0, 0⟩ ⟨2, 0, 0⟩ n).trans
      (Vec3.fold_eq_of_isCopy hcopy hcell)
    simp only [distance, hfold, ball, hlength (-1) 6 (by norm_num) (by norm_num)]
    norm_num

/-- A repeated solid is the solid itself at the one copy of a point in the cell. So it is the same
at all copies of a point and for periods with other signs, the solid itself in the cell, and not
changed by repeating it again. -/
theorem distance_duplicate_folded (inner : Solid K) (period p : Vec3 K) :
    (∃ q, (∀ q', Vec3.IsCopy period p q' ∧ Vec3.InCell period q' ↔ q' = q) ∧
      (duplicate period inner).distance p = inner.distance q) ∧
    (∀ n, (duplicate period inner).distance (p.copy period n) =
      (duplicate period inner).distance p) ∧
    (∀ period', period'.abs = period.abs →
      (duplicate period' inner).distance p = (duplicate period inner).distance p) ∧
    (Vec3.InCell period p → (duplicate period inner).distance p = inner.distance p) ∧
    (duplicate period (duplicate period inner)).distance p =
      (duplicate period inner).distance p := by
  have hcell := (Vec3.isCopy_inCell_fold period p).2
  refine ⟨⟨_, fun q' => Vec3.isCopy_inCell_iff, rfl⟩, fun n => ?_, fun period' h => ?_, fun h => ?_,
    ?_⟩
  · exact congrArg inner.distance (p.fold_copy period n)
  · exact congrArg inner.distance (p.fold_of_abs_eq h)
  · exact congrArg inner.distance (Vec3.fold_of_inCell h)
  · exact congrArg inner.distance (Vec3.fold_of_inCell hcell)

/-- A point is folded to the lower end of the cell, along a negative period and along none. -/
theorem distance_duplicate_folded_end :
    let ball : Solid ℝ := .sphere ⟨-2, 5, -1⟩ 3
    let period : Vec3 ℝ := ⟨-4, 0, 2⟩
    (duplicate period ball).distance ⟨6, 5, -1⟩ = ball.distance ⟨-2, 5, -1⟩ ∧
      (duplicate ⟨4, 0, -2⟩ ball).distance ⟨6, 5, -1⟩ = ball.distance ⟨-2, 5, -1⟩ ∧
      (duplicate period ball).distance ⟨-2, 5, -1⟩ = ball.distance ⟨-2, 5, -1⟩ ∧
      (duplicate period (duplicate period ball)).distance ⟨6, 5, -1⟩ =
        ball.distance ⟨-2, 5, -1⟩ := by
  intro ball period
  have hcopy : Vec3.IsCopy period ⟨6, 5, -1⟩ ⟨-2, 5, -1⟩ :=
    ⟨⟨2, by norm_num [period]⟩, ⟨0, by norm_num⟩, 0, by norm_num⟩
  have hcell : Vec3.InCell period ⟨-2, 5, -1⟩ := by
    constructor <;> norm_num [InCell, period]
  have habs : (⟨4, 0, -2⟩ : Vec3 ℝ).abs = period.abs := by
    ext <;> norm_num [period]
  obtain ⟨⟨q, hq, hdistance⟩, -, hsign, -, htwice⟩ :=
    distance_duplicate_folded ball period ⟨6, 5, -1⟩
  obtain rfl := (hq _).1 ⟨hcopy, hcell⟩
  have hinner := (distance_duplicate_folded ball period ⟨-2, 5, -1⟩).2.2.2.1 hcell
  exact ⟨hdistance, (hsign _ habs).trans hdistance, hinner, htwice.trans hdistance⟩

end Solid

end SolidScene
