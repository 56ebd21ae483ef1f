import SolidScene.Proofs.Number.Arithmetic
import SolidScene.Proofs.Solid.Tree

/-!
# Well-formed solids

A solid is well-formed when every node of it is `Checked`: its numbers are finite, its lengths are
not below zero, also doubled, and a plane, a matrix and a factor can be used. A solid of doubles
that is well-formed equals itself (`WellFormed.beq_self`), and its sizes as they are stored are not
below zero either (`Checked.not_lt_zero`).
-/

namespace SolidScene

section Placement

variable {α : Type} [Add α] [Sub α] [Mul α] [Div α] [Neg α] [OfScientific α] [Scalar α]

/-- A matrix can be used when it, its determinant and its inverse are finite and its determinant is
not zero. -/
theorem Placement.ofMatrix?_eq_some_iff {m : Matrix4 α} {p : Placement α} :
    Placement.ofMatrix? m = some p ↔ Scalar.eq m.determinant 0.0 = false ∧
      Scalar.isFinite m.determinant = true ∧ m.all Scalar.isFinite = true ∧
      m.inverse.all Scalar.isFinite = true ∧ p = ⟨m, m.inverse⟩ := by
  unfold Placement.ofMatrix?
  simp only
  split_ifs with h1 h2
  · simp only [Bool.or_eq_true, Bool.not_eq_true'] at h1
    refine iff_of_false (by simp) fun ⟨ha, hb, hc, _⟩ => ?_
    rw [ha, hb, hc] at h1
    simp at h1
  · simp only [Bool.or_eq_true, Bool.not_eq_true', not_or, Bool.not_eq_true,
      Bool.not_eq_false] at h1
    simp [h1, h2, eq_comm]
  · simp [h2]

omit [Add α] [Sub α] [Mul α] [Div α] [Neg α] [OfScientific α] [Scalar α] in
theorem Matrix4.forall_mem_entries {q : α → Bool} {m : Matrix4 α} (h : m.all q = true) :
    ∀ x ∈ m.entries, q x = true := by
  simp only [Matrix4.all, Vec4.all, Bool.and_eq_true] at h
  simp only [Matrix4.entries, Matrix4.transpose, Vec4.toList, List.cons_append, List.nil_append,
    List.forall_mem_cons]
  simp [h]

/-- A placement by a matrix is that of its own matrix, and all its entries are finite. -/
theorem Placement.of_ofMatrix? {m : Matrix4 α} {p : Placement α}
    (h : Placement.ofMatrix? m = some p) : Placement.ofMatrix? p.matrix = some p ∧
      ∀ x ∈ p.matrix.entries ++ p.inverse.entries, Scalar.isFinite x = true := by
  obtain ⟨-, -, hm, hinverse, rfl⟩ := Placement.ofMatrix?_eq_some_iff.1 h
  exact ⟨h, List.forall_mem_append.2
    ⟨Matrix4.forall_mem_entries hm, Matrix4.forall_mem_entries hinverse⟩⟩

end Placement

namespace Solid

open Binary64

section Checks

variable {α : Type} [Add α] [Sub α] [Mul α] [Div α] [Neg α] [OfScientific α] [Scalar α]

/-- The numbers that a node keeps beside its children. -/
def stored : Solid α → List α
  | .sphere center radius => center.toList ++ [radius]
  | .box center halfExtents => center.toList ++ halfExtents.toList
  | .torus center majorRadius minorRadius => center.toList ++ [majorRadius, minorRadius]
  | .cylinder center radius halfLength => center.toList ++ [radius, halfLength]
  | .plane point normal => point.toList ++ normal.toList
  | .boolean .. => []
  | .duplicate period _ => period.toList
  | .placed placement _ => placement.matrix.entries ++ placement.inverse.entries
  | .scaled factor _ => [factor]

def radii : Solid α → List α
  | .sphere _ radius => [radius]
  | .torus _ majorRadius minorRadius => [majorRadius, minorRadius]
  | .cylinder _ radius _ => [radius]
  | _ => []

/-- The sizes of which a node keeps the half. -/
def halves : Solid α → List α
  | .box _ halfExtents => halfExtents.toList
  | .cylinder _ _ halfLength => [halfLength]
  | _ => []

/-- What makes a node's numbers usable beside being finite and not below zero. -/
def Usable : Solid α → Prop
  | .plane _ normal => normal.hasDirection = true
  | .placed placement _ => Placement.ofMatrix? placement.matrix = some placement
  | .scaled factor _ => Scalar.eq factor 0.0 = false
  | _ => True

/-- What the numbers of a node satisfy. -/
@[mk_iff]
structure Checked (s : Solid α) : Prop where
  finite : ∀ x ∈ s.stored, Scalar.isFinite x = true
  radii : ∀ x ∈ s.radii, Scalar.lt x 0.0 = false
  halves : ∀ x ∈ s.halves, Scalar.isFinite (x * 2.0) = true ∧ Scalar.lt (x * 2.0) 0.0 = false
  usable : s.Usable

/-- Every node of the tree is checked. -/
def WellFormed (s : Solid α) : Prop := ∀ t ∈ s.preorder, t.Checked

theorem wellFormed_iff {s : Solid α} :
    s.WellFormed ↔ s.Checked ∧ ∀ t ∈ s.children, t.WellFormed :=
  forall_mem_preorder_iff

variable [DecidableEq α]

instance : (s : Solid α) → Decidable s.Usable
  | .plane .. | .placed .. | .scaled .. => inferInstanceAs (Decidable (_ = _))
  | .sphere .. | .box .. | .torus .. | .cylinder .. | .boolean .. | .duplicate .. =>
    inferInstanceAs (Decidable True)

instance (s : Solid α) : Decidable s.Checked :=
  decidable_of_iff ((∀ x ∈ s.stored, Scalar.isFinite x = true) ∧
      (∀ x ∈ s.radii, Scalar.lt x 0.0 = false) ∧
      (∀ x ∈ s.halves, Scalar.isFinite (x * 2.0) = true ∧ Scalar.lt (x * 2.0) 0.0 = false) ∧
      s.Usable)
    ⟨fun ⟨hfinite, hradii, hhalves, husable⟩ => ⟨hfinite, hradii, hhalves, husable⟩,
      fun h => ⟨h.finite, h.radii, h.halves, h.usable⟩⟩

instance (s : Solid α) : Decidable s.WellFormed :=
  inferInstanceAs (Decidable (∀ t ∈ s.preorder, t.Checked))

end Checks

/-! ## Equality -/

section Equality

variable {α : Type} [BEq α]

theorem vec3_beq_self {v : Vec3 α} (h : ∀ x ∈ v.toList, (x == x) = true) : (v == v) = true := by
  obtain ⟨x, y, z⟩ := v
  simp only [Vec3.toList, List.forall_mem_cons] at h
  show ((x == x) && ((y == y) && (z == z))) = true
  simp [h]

theorem vec4_beq_self {v : Vec4 α} (h : ∀ x ∈ v.toList, (x == x) = true) : (v == v) = true := by
  obtain ⟨x, y, z, w⟩ := v
  simp only [Vec4.toList, List.forall_mem_cons] at h
  show ((x == x) && ((y == y) && ((z == z) && (w == w)))) = true
  simp [h]

theorem matrix4_beq_self {m : Matrix4 α} (h : ∀ x ∈ m.entries, (x == x) = true) :
    (m == m) = true := by
  obtain ⟨⟨_, _, _, _⟩, ⟨_, _, _, _⟩, ⟨_, _, _, _⟩, ⟨_, _, _, _⟩⟩ := m
  simp only [Matrix4.entries, Matrix4.transpose, Vec4.toList, List.cons_append, List.nil_append,
    List.forall_mem_cons] at h
  show ((_ == _) && ((_ == _) && ((_ == _) && (_ == _)))) = true
  rw [vec4_beq_self, vec4_beq_self, vec4_beq_self, vec4_beq_self] <;> simp [Vec4.toList, h]

/-- A solid equals itself where all its numbers do. -/
theorem beq_self {s : Solid α} (h : ∀ t ∈ s.preorder, ∀ x ∈ t.stored, (x == x) = true) :
    (s == s) = true := by
  induction s with
  | sphere center radius =>
    simp only [preorder, stored, List.forall_mem_append, List.forall_mem_cons] at h
    exact Bool.and_eq_true_iff.2 ⟨vec3_beq_self h.1.1, h.1.2.1⟩
  | box center halfExtents =>
    simp only [preorder, stored, List.forall_mem_append, List.forall_mem_cons] at h
    exact Bool.and_eq_true_iff.2 ⟨vec3_beq_self h.1.1, vec3_beq_self h.1.2⟩
  | torus center majorRadius minorRadius =>
    simp only [preorder, stored, List.forall_mem_append, List.forall_mem_cons] at h
    exact Bool.and_eq_true_iff.2 ⟨vec3_beq_self h.1.1, Bool.and_eq_true_iff.2 ⟨h.1.2.1, h.1.2.2.1⟩⟩
  | cylinder center radius halfLength =>
    simp only [preorder, stored, List.forall_mem_append, List.forall_mem_cons] at h
    exact Bool.and_eq_true_iff.2 ⟨vec3_beq_self h.1.1, Bool.and_eq_true_iff.2 ⟨h.1.2.1, h.1.2.2.1⟩⟩
  | plane point normal =>
    simp only [preorder, stored, List.forall_mem_append, List.forall_mem_cons] at h
    exact Bool.and_eq_true_iff.2 ⟨vec3_beq_self h.1.1, vec3_beq_self h.1.2⟩
  | boolean combiner a b iha ihb =>
    simp only [preorder, List.forall_mem_append, List.forall_mem_cons] at h
    have hcombiner : (combiner == combiner) = true := by cases combiner <;> rfl
    exact Bool.and_eq_true_iff.2 ⟨hcombiner, Bool.and_eq_true_iff.2 ⟨iha h.2.1, ihb h.2.2⟩⟩
  | duplicate period inner ih =>
    simp only [preorder, stored, List.forall_mem_cons] at h
    exact Bool.and_eq_true_iff.2 ⟨vec3_beq_self h.1, ih h.2⟩
  | placed placement inner ih =>
    simp only [preorder, stored, List.forall_mem_append, List.forall_mem_cons] at h
    have hplacement : (placement == placement) = true :=
      Bool.and_eq_true_iff.2 ⟨matrix4_beq_self h.1.1, matrix4_beq_self h.1.2⟩
    exact Bool.and_eq_true_iff.2 ⟨hplacement, ih h.2⟩
  | scaled factor inner ih =>
    simp only [preorder, stored, List.forall_mem_cons] at h
    exact Bool.and_eq_true_iff.2 ⟨h.1.1, ih h.2⟩

end Equality

/-! ## Solids of doubles -/

/-- A well-formed solid equals itself. -/
theorem WellFormed.beq_self {s : Solid Float} (h : s.WellFormed) : (s == s) = true :=
  Solid.beq_self fun t ht x hx =>
    have hfinite := (h t ht).finite x hx
    (beq_iff hfinite hfinite).2 rfl

theorem radii_subset_stored {α : Type} {s : Solid α} : ∀ x ∈ s.radii, x ∈ s.stored := by
  cases s <;> simp +contextual [radii, stored]

theorem halves_subset_stored {α : Type} {s : Solid α} : ∀ x ∈ s.halves, x ∈ s.stored := by
  cases s <;> simp +contextual [halves, stored]

/-- A size that is not below zero when it is doubled is not below zero. -/
theorem Checked.not_lt_zero {s : Solid Float} (h : s.Checked) :
    ∀ x ∈ s.radii ++ s.halves, Scalar.lt x 0.0 = false := by
  intro x hx
  rcases List.mem_append.1 hx with hx | hx
  · exact h.radii x hx
  · have hfinite := h.finite x (halves_subset_stored x hx)
    obtain ⟨hdouble, hsign⟩ := h.halves x hx
    rw [← mul_two_mul_half hfinite hdouble]
    refine decide_eq_false fun hlt => of_decide_eq_false hsign ?_
    refine lt_zero_of_mul_lt_zero hdouble isFinite_half (isFinite_mul_half hdouble).1 ?_ hlt
    decide

/-- The least coordinate of a finite vector is not below zero where none is. -/
theorem minimum_lt_zero_iff {v : Vec3 Float} (h : ∀ x ∈ v.toList, x.isFinite = true) :
    Scalar.lt v.minimum 0.0 = false ↔ ∀ x ∈ v.toList, Scalar.lt x 0.0 = false := by
  simp only [Vec3.toList, List.forall_mem_cons] at h ⊢
  have hlt (x : Float) : Scalar.lt x 0.0 = false ↔ ¬ x < 0.0 := decide_eq_false_iff_not
  rw [hlt, hlt, hlt, hlt]
  show ¬ Binary64.least v.x (Binary64.least v.y v.z) < 0.0 ↔ _
  rw [Binary64.least_lt_zero_iff h.1 (Binary64.isFinite_least h.2.1 h.2.2.1),
    Binary64.least_lt_zero_iff h.2.1 h.2.2.1]
  simp [not_or]

/-- Half of a size that is not below zero can be kept. -/
theorem mul_half_checked {x : Float} (hx : x.isFinite = true) (hsign : Scalar.lt x 0.0 = false) :
    Scalar.isFinite (x * 0.5) = true ∧ Scalar.isFinite (x * 0.5 * 2.0) = true ∧
      Scalar.lt (x * 0.5 * 2.0) 0.0 = false := by
  obtain ⟨hhalf, hdouble⟩ := isFinite_mul_half hx
  refine ⟨hhalf, hdouble, decide_eq_false fun hlt => of_decide_eq_false hsign ?_⟩
  have hlt' := lt_zero_of_mul_lt_zero hhalf isFinite_two hdouble (by decide) hlt
  exact lt_zero_of_mul_lt_zero hx isFinite_half hhalf (by decide) hlt'

end Solid

end SolidScene
