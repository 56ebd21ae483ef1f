import Mathlib
import SolidScene.Solid.Basic

/-!
# Solids as trees

The nodes of a solid and its depth by way of its children, a pair of brackets for every node, and
the nodes outside the solids that are subtracted.
-/

namespace SolidScene.Solid

variable {α : Type}

theorem preorder_eq (s : Solid α) : s.preorder = s :: s.children.flatMap preorder := by
  cases s <;> simp [preorder, children]

/-- What holds of every node holds of the root and of every node of its children. -/
theorem forall_mem_preorder_iff {P : Solid α → Prop} {s : Solid α} :
    (∀ t ∈ s.preorder, P t) ↔ P s ∧ ∀ u ∈ s.children, ∀ t ∈ u.preorder, P t := by
  rw [preorder_eq, List.forall_mem_cons, List.forall_mem_flatMap]

theorem depth_pos (s : Solid α) : 0 < s.depth := by
  cases s <;> simp only [depth] <;> omega

theorem depth_le_succ_iff {s : Solid α} {n : Nat} :
    s.depth ≤ n + 1 ↔ ∀ t ∈ s.children, t.depth ≤ n := by
  cases s <;> simp [depth, children] <;> omega

/-! ## Brackets -/

/-- A pair of brackets for every node, around those of its children. -/
def brackets : Solid α → List Char
  | .boolean _ a b => '[' :: (a.brackets ++ b.brackets ++ [']'])
  | .duplicate _ inner | .placed _ inner | .scaled _ inner => '[' :: (inner.brackets ++ [']'])
  | _ => ['[', ']']

theorem brackets_eq (s : Solid α) : s.brackets = '[' :: (s.children.flatMap brackets ++ [']']) := by
  cases s <;> simp [brackets, children]

theorem count_brackets {b : Char} (hb : b = '[' ∨ b = ']') (s : Solid α) :
    s.brackets.count b = s.nodeCount := by
  have hends (cs : List Char) : ('[' :: (cs ++ [']'])).count b = 1 + cs.count b := by
    rcases hb with rfl | rfl <;> simp [Nat.add_comm]
  induction s with
  | sphere | box | torus | cylinder | plane => exact hends []
  | boolean _ _ _ iha ihb => rw [brackets, hends, List.count_append, iha, ihb, nodeCount]
  | duplicate _ _ ih | placed _ _ ih | scaled _ _ ih => rw [brackets, hends, ih, nodeCount]

/-! ## Outside subtracted solids -/

/-- The children of a solid but for a subtracted one. -/
def addends : Solid α → List (Solid α)
  | .boolean .subtract a _ => [a]
  | s => s.children

/-- All solids of the tree that are in no subtracted one. -/
def additive (s : Solid α) : List (Solid α) :=
  s :: match s with
    | .boolean .subtract a _ => a.additive
    | .boolean _ a b => a.additive ++ b.additive
    | .duplicate _ inner | .placed _ inner | .scaled _ inner => inner.additive
    | _ => []

theorem additive_eq (s : Solid α) : s.additive = s :: s.addends.flatMap additive := by
  cases s with
  | boolean combiner => cases combiner <;> simp [additive, addends, children]
  | _ => simp [additive, addends, children]

theorem forall_mem_additive_iff {P : Solid α → Prop} {s : Solid α} :
    (∀ t ∈ s.additive, P t) ↔ P s ∧ ∀ u ∈ s.addends, ∀ t ∈ u.additive, P t := by
  rw [additive_eq, List.forall_mem_cons, List.forall_mem_flatMap]

theorem additive_sublist_preorder (s : Solid α) : s.additive.Sublist s.preorder := by
  induction s with
  | sphere | box | torus | cylinder | plane => exact .refl _
  | boolean combiner a b iha ihb =>
    cases combiner with
    | subtract => exact (iha.trans (List.sublist_append_left _ _)).cons_cons _
    | add | union | blend => exact (iha.append ihb).cons_cons _
  | duplicate _ _ ih | placed _ _ ih | scaled _ _ ih => exact ih.cons_cons _

end SolidScene.Solid
