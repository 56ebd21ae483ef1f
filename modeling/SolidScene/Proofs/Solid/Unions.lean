import Mathlib.Data.Multiset.Lattice
import SolidScene.Proofs.Number.Extremes
import SolidScene.Solid.Bounds

/-!
# Solids put together

Adding and uniting put solids together. A number that is the lesser of two at every such node is the
least of those of the solids, in whatever order and grouping they were put together
(`UnionOf.eq_inf`). So neither the distance nor the box depends on it (`same_of_unionOf`).
-/

namespace SolidScene.Solid

open Binary64 (Same rank rank_least rank_greatest same_of_rank_eq)

variable {α : Type}

/-- The solid puts these solids together, one after another in any order and grouping. -/
inductive UnionOf : Multiset (Solid α) → Solid α → Prop
  | leaf (s : Solid α) : UnionOf {s} s
  | node {m n : Multiset (Solid α)} {combiner : Combiner} {a b : Solid α}
    (hcombiner : combiner = .add ∨ combiner = .union) (ha : UnionOf m a) (hb : UnionOf n b) :
    UnionOf (m + n) (.boolean combiner a b)

/-- What is the lesser of both at every node that puts solids together is the least of all. -/
theorem UnionOf.eq_inf {L : Type} [LinearOrder L] [OrderTop L] {f : Solid α → L}
    (hadd : ∀ a b, f (.boolean .add a b) = min (f a) (f b))
    (hunion : ∀ a b, f (.boolean .union a b) = min (f a) (f b)) {leaves : Multiset (Solid α)}
    {s : Solid α} (h : UnionOf leaves s) : f s = (leaves.map f).inf := by
  induction h with
  | leaf s => rw [Multiset.map_singleton, Multiset.inf_singleton]
  | @node m n combiner a b hcombiner _ _ iha ihb =>
    have hnode : f (.boolean combiner a b) = min (f a) (f b) := by
      rcases hcombiner with rfl | rfl
      · exact hadd a b
      · exact hunion a b
    rw [hnode, iha, ihb, Multiset.map_add, Multiset.inf_add]

variable {leaves : Multiset (Solid Float)} {u v : Solid Float}

theorem UnionOf.same {L : Type} [LinearOrder L] {number : ℤ → L} (hnumber : number.Injective)
    {f : Solid Float → Float}
    (hadd : ∀ a b,
      rank number (f (.boolean .add a b)) = min (rank number (f a)) (rank number (f b)))
    (hunion : ∀ a b,
      rank number (f (.boolean .union a b)) = min (rank number (f a)) (rank number (f b)))
    (hu : UnionOf leaves u) (hv : UnionOf leaves v) : Same (f u) (f v) := by
  have hleaves {s : Solid Float} (h : UnionOf leaves s) :
      rank number (f s) = (leaves.map fun t => rank number (f t)).inf :=
    h.eq_inf (f := fun t => rank number (f t)) hadd hunion
  exact same_of_rank_eq hnumber ((hleaves hu).trans (hleaves hv).symm)

theorem UnionOf.same_distance (hu : UnionOf leaves u) (hv : UnionOf leaves v) (p : Vec3 Float) :
    Same (u.distance p) (v.distance p) :=
  hu.same Function.injective_id (f := fun s => s.distance p) (fun _ _ => rank_least _ _)
    (fun _ _ => rank_least _ _) hv

theorem UnionOf.same_corner {L : Type} [LinearOrder L] {number : ℤ → L}
    (hnumber : number.Injective) {join : Float → Float → Float}
    (hjoin : ∀ x y, rank number (join x y) = min (rank number x) (rank number y))
    {f : Solid Float → Vec3 Float}
    (hadd : ∀ a b, f (.boolean .add a b) = Vec3.zip join (f a) (f b))
    (hunion : ∀ a b, f (.boolean .union a b) = Vec3.zip join (f a) (f b))
    (hu : UnionOf leaves u) (hv : UnionOf leaves v) :
    List.Forall₂ Same (f u).toList (f v).toList := by
  have hcoordinate (c : Vec3 Float → Float)
      (hc : ∀ a b, c (Vec3.zip join a b) = join (c a) (c b)) : Same (c (f u)) (c (f v)) := by
    refine hu.same hnumber (f := fun s => c (f s)) (fun a b => ?_) (fun a b => ?_) hv
    · rw [hadd, hc, hjoin]
    · rw [hunion, hc, hjoin]
  exact .cons (hcoordinate Vec3.x fun _ _ => rfl) (.cons (hcoordinate Vec3.y fun _ _ => rfl)
    (.cons (hcoordinate Vec3.z fun _ _ => rfl) .nil))

theorem UnionOf.same_bounds (hu : UnionOf leaves u) (hv : UnionOf leaves v) :
    List.Forall₂ Same u.bounds.lower.toList v.bounds.lower.toList ∧
      List.Forall₂ Same u.bounds.upper.toList v.bounds.upper.toList :=
  ⟨hu.same_corner Function.injective_id rank_least (f := fun s => s.bounds.lower)
      (fun _ _ => rfl) (fun _ _ => rfl) hv,
    hu.same_corner OrderDual.toDual.injective rank_greatest (f := fun s => s.bounds.upper)
      (fun _ _ => rfl) (fun _ _ => rfl) hv⟩

/-- Whatever doubles their numbers are, solids put together have the same distances and the same
box in any order and grouping. -/
theorem same_of_unionOf (hu : UnionOf leaves u) (hv : UnionOf leaves v) :
    (∀ p, Same (u.distance p) (v.distance p)) ∧
      List.Forall₂ Same u.bounds.lower.toList v.bounds.lower.toList ∧
      List.Forall₂ Same u.bounds.upper.toList v.bounds.upper.toList :=
  ⟨hu.same_distance hv, hu.same_bounds hv⟩

/-- Two balls, one without a radius, and a box without end, written in two ways. -/
theorem same_of_unionOf_endless :
    let ball : Solid Float := .sphere ⟨1.0, -0.0, 0.0⟩ 0.5
    let lost : Solid Float := .sphere ⟨0.0, 0.0, 0.0⟩ Binary64.nan
    let endless : Solid Float := .box ⟨0.0, 0.0, 0.0⟩ ⟨2.0, 1.0 / 0.0, 0.0⟩
    let u : Solid Float := .boolean .union (.boolean .add ball lost) endless
    let v : Solid Float := .boolean .add endless (.boolean .add lost ball)
    UnionOf ({ball} + {lost} + {endless}) u ∧ UnionOf ({ball} + {lost} + {endless}) v ∧
      (lost.distance ⟨1.0, 0.0, 0.0⟩).isNaN = true ∧
      Same (u.distance ⟨1.0, 0.0, 0.0⟩) (v.distance ⟨1.0, 0.0, 0.0⟩) ∧
      List.Forall₂ Same u.bounds.lower.toList v.bounds.lower.toList ∧
      List.Forall₂ Same u.bounds.upper.toList v.bounds.upper.toList := by
  intro ball lost endless u v
  have hu : UnionOf ({ball} + {lost} + {endless}) u :=
    .node (.inr rfl) (.node (.inl rfl) (.leaf ball) (.leaf lost)) (.leaf endless)
  have hv : UnionOf ({ball} + {lost} + {endless}) v := by
    have horder : ({ball} + {lost} + {endless} : Multiset (Solid Float)) =
        {endless} + ({lost} + {ball}) := by ac_rfl
    rw [horder]
    exact .node (.inl rfl) (.leaf endless) (.node (.inl rfl) (.leaf lost) (.leaf ball))
  obtain ⟨hdistance, hbounds⟩ := same_of_unionOf hu hv
  exact ⟨hu, hv, by decide +kernel, hdistance _, hbounds⟩

end SolidScene.Solid
