import SolidScene.Proofs.Number.ReadBack
import SolidScene.Proofs.Solid.WellFormed
import SolidScene.Scene.Parse

/-!
# What is read is well-formed

Whatever a source delivers, a scene that is read from it is well-formed and no deeper than the limit
(`expression_yields`): values are checked as soon as they are read, and no check is left out on the
way to a result.
-/

namespace SolidScene

namespace Read

variable {α β : Type} {P : α → Prop} {Q : β → Prop}

/-- Every result of the action satisfies `P`. -/
def Yields (P : α → Prop) (x : Read α) : Prop := ∀ r a r', x r = (.ok a, r') → P a

theorem Yields.trivial (x : Read α) : Yields (fun _ => True) x := fun _ _ _ _ => True.intro

theorem Yields.pure {a : α} (h : P a) : Yields P (pure a) := by
  intro r b r' hb
  cases hb
  exact h

theorem Yields.bind {x : Read α} {f : α → Read β} (hx : Yields P x)
    (hf : ∀ a, P a → Yields Q (f a)) : Yields Q (x >>= f) := by
  intro r b r' h
  obtain ⟨a, r₁, ha, hb⟩ := bind_eq_ok h
  exact hf a (hx r a r₁ ha) r₁ b r' hb

theorem Yields.reject (fault : Fault) (at_ : Text.Position) :
    Yields P (reject fault at_ : Read α) := by
  intro r a r' h
  cases h

theorem Yields.rejectAtStart (fault : Fault) :
    Yields P (tokenStart >>= fun at_ => Read.reject fault at_ : Read α) :=
  .bind (.trivial _) fun _ _ => .reject _ _

/-! ## Values -/

theorem readNumber_yields (what : String) :
    Yields (fun x => x.isFinite = true) (readNumber what) := by
  refine .bind (.trivial _) fun token _ => ?_
  split
  · exact .pure (Number.isFinite_of_finite? ‹_›)
  · exact .reject _ _

theorem readVector_yields (what : String) :
    Yields (fun v => ∀ x ∈ v.toList, Scalar.isFinite x = true) (readVector what) := by
  refine .bind (readNumber_yields _) fun x hx => .bind (readNumber_yields _) fun y hy =>
    .bind (readNumber_yields _) fun z hz => .pure ?_
  simp only [Vec3.toList, List.forall_mem_cons]
  exact ⟨hx, hy, hz, by simp⟩

theorem readNonNegative_yields (what : String) :
    Yields (fun x => x.isFinite = true ∧ Scalar.lt x 0.0 = false) (readNonNegative what) := by
  refine .bind (readNumber_yields _) fun x hx => ?_
  split
  · exact .rejectAtStart _
  · exact .pure ⟨hx, Bool.eq_false_of_not_eq_true ‹_›⟩

/-! ## Nodes -/

open Solid (Checked minimum_lt_zero_iff mul_half_checked)

theorem cuboid_checked {center size : Vec3 Float}
    (hcenter : ∀ x ∈ center.toList, Scalar.isFinite x = true)
    (hsize : ∀ x ∈ size.toList, x.isFinite = true ∧ Scalar.lt x 0.0 = false) :
    (Solid.cuboid center size).Checked := by
  have hhalf : ∀ x ∈ (size.scale 0.5).toList, Scalar.isFinite x = true ∧
      Scalar.isFinite (x * 2.0) = true ∧ Scalar.lt (x * 2.0) 0.0 = false := by
    have hmap : (size.scale 0.5).toList = size.toList.map (· * 0.5) := rfl
    rw [hmap, List.forall_mem_map]
    exact fun x hx => mul_half_checked (hsize x hx).1 (hsize x hx).2
  exact ⟨List.forall_mem_append.2 ⟨hcenter, fun x hx => (hhalf x hx).1⟩, List.forall_mem_nil _,
    fun x hx => (hhalf x hx).2, True.intro⟩

theorem readObject_yields (name : ObjectName) :
    Yields (fun s => s.Checked ∧ s.children = []) (readObject name) := by
  cases name with
  | sphere =>
    refine .bind (readVector_yields _) fun center hcenter =>
      .bind (readNonNegative_yields _) fun radius ⟨hfinite, hsign⟩ => .pure ⟨?_, rfl⟩
    exact ⟨List.forall_mem_append.2 ⟨hcenter, List.forall_mem_singleton.2 hfinite⟩,
      List.forall_mem_singleton.2 hsign, List.forall_mem_nil _, True.intro⟩
  | cube =>
    refine .bind (readVector_yields _) fun center hcenter =>
      .bind (readNonNegative_yields _) fun size hsize => .pure ⟨cuboid_checked hcenter ?_, rfl⟩
    simp only [Vec3.uniform, Vec3.toList, List.forall_mem_cons]
    exact ⟨hsize, hsize, hsize, List.forall_mem_nil _⟩
  | box =>
    refine .bind (readVector_yields _) fun center hcenter =>
      .bind (readVector_yields _) fun size hfinite => ?_
    split
    · exact .rejectAtStart _
    · rename_i hmin
      have hsign := (minimum_lt_zero_iff hfinite).1 (Bool.eq_false_of_not_eq_true hmin)
      exact .pure ⟨cuboid_checked hcenter fun x hx => ⟨hfinite x hx, hsign x hx⟩, rfl⟩
  | torus =>
    refine .bind (readVector_yields _) fun center hcenter =>
      .bind (readNonNegative_yields _) fun majorRadius ⟨hR, hRsign⟩ =>
        .bind (readNonNegative_yields _) fun minorRadius ⟨hr, hrsign⟩ => .pure ⟨?_, rfl⟩
    exact ⟨List.forall_mem_append.2 ⟨hcenter, List.forall_mem_cons.2
        ⟨hR, List.forall_mem_singleton.2 hr⟩⟩,
      List.forall_mem_cons.2 ⟨hRsign, List.forall_mem_singleton.2 hrsign⟩, List.forall_mem_nil _,
      True.intro⟩
  | cylinder =>
    refine .bind (readVector_yields _) fun center hcenter =>
      .bind (readNonNegative_yields _) fun radius ⟨hr, hrsign⟩ =>
        .bind (readNonNegative_yields _) fun length ⟨hl, hlsign⟩ => .pure ⟨?_, rfl⟩
    obtain ⟨hhalf, hdouble⟩ := mul_half_checked hl hlsign
    exact ⟨List.forall_mem_append.2 ⟨hcenter, List.forall_mem_cons.2
        ⟨hr, List.forall_mem_singleton.2 hhalf⟩⟩,
      List.forall_mem_singleton.2 hrsign, List.forall_mem_singleton.2 hdouble, True.intro⟩
  | plane =>
    refine .bind (readVector_yields _) fun point hpoint =>
      .bind (readVector_yields _) fun normal hnormal => ?_
    unfold Solid.halfSpace?
    split
    · rename_i hs
      split_ifs at hs with hdirection
      cases hs
      exact .pure ⟨⟨List.forall_mem_append.2 ⟨hpoint, hnormal⟩, List.forall_mem_nil _,
        List.forall_mem_nil _, hdirection⟩, rfl⟩
    · exact .rejectAtStart _

theorem readOperation_yields {P : Scene → Prop} {child : Read Scene} (hchild : Yields P child)
    (name : OperationName) :
    Yields (fun s => s.Checked ∧ ∀ t ∈ s.children, P t) (readOperation child name) := by
  cases name with
  | boolean =>
    refine .bind (.trivial _) fun combiner _ => .bind hchild fun a ha =>
      .bind hchild fun b hb => .pure ⟨?_, ?_⟩
    · exact ⟨List.forall_mem_nil _, List.forall_mem_nil _, List.forall_mem_nil _, True.intro⟩
    · exact List.forall_mem_cons.2 ⟨ha, List.forall_mem_singleton.2 hb⟩
  | duplicate =>
    refine .bind (readVector_yields _) fun period hperiod => .bind hchild fun inner hinner =>
      .pure ⟨?_, List.forall_mem_singleton.2 hinner⟩
    exact ⟨hperiod, List.forall_mem_nil _, List.forall_mem_nil _, True.intro⟩
  | matrix =>
    refine .bind (.trivial _) fun matrix _ => ?_
    split
    · rename_i placement hplacement
      refine .bind hchild fun inner hinner => .pure ⟨?_, List.forall_mem_singleton.2 hinner⟩
      obtain ⟨hmatrix, hfinite⟩ := Placement.of_ofMatrix? hplacement
      exact ⟨hfinite, List.forall_mem_nil _, List.forall_mem_nil _, hmatrix⟩
    · exact .rejectAtStart _
  | scale =>
    refine .bind (readNumber_yields _) fun factor hfactor => ?_
    split
    · exact .rejectAtStart _
    · rename_i hzero
      refine .bind hchild fun inner hinner => .pure ⟨?_, List.forall_mem_singleton.2 hinner⟩
      exact ⟨List.forall_mem_singleton.2 hfactor, List.forall_mem_nil _, List.forall_mem_nil _,
        Bool.eq_false_of_not_eq_true hzero⟩

/-! ## Expressions -/

theorem readBody_yields {P : Scene → Prop} {child : Read Scene} (hchild : Yields P child) :
    ∀ name, Yields (fun s => s.Checked ∧ ∀ t ∈ s.children, P t) (readBody child name)
  | .object name => fun r s r' h => by
    obtain ⟨hs, hchildren⟩ := readObject_yields name r s r' h
    exact ⟨hs, by simp [hchildren]⟩
  | .operation name => readOperation_yields hchild name

/-- An expression is read as a well-formed scene that is no deeper than the room for it. -/
theorem expression_yields (limit : ℕ) :
    ∀ room, Yields (fun s => s.WellFormed ∧ s.depth ≤ room) (expression limit room)
  | 0 => .bind (.trivial _) fun _ _ => .bind (.trivial _) fun _ _ => by
    intro r s r' h
    cases h
  | room + 1 => by
    have hbody := readBody_yields (expression_yields limit room)
    refine .bind (.trivial _) fun _ _ => .bind (.trivial _) fun name _ =>
      .bind (hbody name) fun s ⟨hs, hchildren⟩ => .bind (.trivial _) fun _ _ => .pure ⟨?_, ?_⟩
    · exact Solid.wellFormed_iff.2 ⟨hs, fun t ht => (hchildren t ht).1⟩
    · exact Solid.depth_le_succ_iff.2 fun t ht => (hchildren t ht).2

theorem readAll_yields {limit : ℕ} {P : Scene → Prop} (h : Yields P (construct limit)) :
    Yields (fun ss => ∀ s ∈ ss, P s) (readAll limit) := by
  intro r ss r' hx
  induction ss generalizing r with
  | nil => exact List.forall_mem_nil _
  | cons s ss ih =>
    rw [readAll_eq] at hx
    obtain ⟨next, r₁, -, hx⟩ := bind_eq_ok hx
    cases next with
    | none => cases hx
    | some c =>
      obtain ⟨s, r₂, hread, hx⟩ := bind_eq_ok hx
      obtain ⟨ss, r₃, hrest, hx⟩ := bind_eq_ok hx
      cases hx
      exact List.forall_mem_cons.2 ⟨h _ _ _ hread, ih _ hrest⟩

end Read

namespace Scene

/-- What holds of a scene that was read where brackets may nest as deep as a limit. -/
structure Sound (limit : ℕ) (s : Scene) : Prop where
  depth_le : s.depth ≤ limit
  wellFormed : s.WellFormed
  sizes : ∀ t ∈ s.preorder, ∀ x ∈ t.radii ++ t.halves, Scalar.lt x 0.0 = false
  invertible : ∀ t ∈ s.preorder, ∀ placement inner, t = .placed placement inner →
    placement.inverse = placement.matrix.inverse ∧
      Scalar.isFinite placement.matrix.determinant = true ∧
      Scalar.eq placement.matrix.determinant 0.0 = false
  beq_self : (s == s) = true

theorem sound_of_wellFormed {limit : ℕ} {s : Scene} (h : s.WellFormed) (hdepth : s.depth ≤ limit) :
    s.Sound limit where
  depth_le := hdepth
  wellFormed := h
  sizes t ht := (h t ht).not_lt_zero
  invertible := by
    rintro _ ht placement inner rfl
    obtain ⟨hzero, hfinite, -, -, hplacement⟩ :=
      Placement.ofMatrix?_eq_some_iff.1 (h _ ht).usable
    exact ⟨congrArg Placement.inverse hplacement, hfinite, hzero⟩
  beq_self := h.beq_self

theorem construct_yields (limit : ℕ) : Read.Yields (Sound limit) (Read.construct limit) := by
  intro r s r' h
  obtain ⟨hs, hdepth⟩ := Read.expression_yields limit limit r s r' h
  exact sound_of_wellFormed hs hdepth

theorem wellFormed_of_parse {limit : ℕ} {text : String} {s : Scene}
    (h : parse limit text = .ok s) : s.WellFormed ∧ s.depth ≤ limit := by
  have hwhole : Read.Yields (fun s => s.WellFormed ∧ s.depth ≤ limit) (Read.whole limit) :=
    .bind (Read.expression_yields limit limit) fun _ hs => .bind (.trivial _) fun _ _ => .pure hs
  exact hwhole _ s _ (Prod.ext h rfl)

/-- Every scene that is read is sound, whatever its source delivers and wherever reading starts. -/
theorem sound_of_read (limit : ℕ) :
    (∀ r s r', Read.construct limit r = (.ok s, r') → Sound limit s) ∧
    (∀ r ss r', Read.constructAll limit r = (.ok ss, r') → ∀ s ∈ ss, Sound limit s) ∧
    (∀ events s, ofEvents limit events = .ok s → Sound limit s) ∧
    (∀ events ss, manyOfEvents limit events = .ok ss → ∀ s ∈ ss, Sound limit s) := by
  have hone := construct_yields limit
  have hmany := Read.readAll_yields hone
  refine ⟨hone, hmany, fun events s h => ?_, fun events ss h => ?_⟩
  · have hwhole : Read.Yields (Sound limit) (Read.whole limit) :=
      .bind hone fun s hs => .bind (.trivial _) fun _ _ => .pure hs
    exact hwhole _ s _ (Prod.ext h rfl)
  · exact hmany _ ss _ (Prod.ext h rfl)

/-- Scenes are sound when their source fails behind them, and when they are the last ones of it. -/
theorem sound_of_read_scaled_box :
    let text := "[%scale -2.5 [+box 0 0 0 1 1 1e-1]]"
    let s : Scene := .scaled (-2.5) (.box ⟨0.0, 0.0, 0.0⟩ ⟨0.5, 0.5, 0.05⟩)
    let failing := Source.ofText text ++ [.failure "gone"]
    ((Read.construct 2 (.ofEvents failing)).1 = .ok s ∧ Sound 2 s) ∧
      ((Read.constructAll 2 (.ofEvents (Source.ofText text))).1 = .ok [s] ∧
        ∀ t ∈ [s], Sound 2 t) ∧
      (ofEvents 2 (Source.ofText text) = .ok s ∧ Sound 2 s) ∧
      manyOfEvents 2 (Source.ofText (text ++ text)) = .ok [s, s] ∧ ∀ t ∈ [s, s], Sound 2 t := by
  intro text s failing
  have hone : (Read.construct 2 (.ofEvents failing)).1 = .ok s := by decide +kernel
  have hall : (Read.constructAll 2 (.ofEvents (Source.ofText text))).1 = .ok [s] := by
    decide +kernel
  have hwhole : ofEvents 2 (Source.ofText text) = .ok s := by decide +kernel
  have hmany : manyOfEvents 2 (Source.ofText (text ++ text)) = .ok [s, s] := by decide +kernel
  obtain ⟨h₁, h₂, h₃, h₄⟩ := sound_of_read 2
  exact ⟨⟨hone, h₁ _ s _ (Prod.ext hone rfl)⟩, ⟨hall, h₂ _ [s] _ (Prod.ext hall rfl)⟩,
    ⟨hwhole, h₃ _ s hwhole⟩, hmany, h₄ _ [s, s] hmany⟩

end Scene

end SolidScene
