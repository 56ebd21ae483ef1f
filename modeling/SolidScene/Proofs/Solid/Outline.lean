import SolidScene.Proofs.Solid.Tree
import SolidScene.Solid.Outline

/-!
# Outlines and skeletons

The outline of a solid has a line for every node, in preorder, and the line that stands furthest in
shows the depth (`exists_outlined`). A label tells how many children its node has, so nothing of the
tree is lost but the values: solids have the same outline just where they have the same skeleton
(`outline_determines_skeleton`).
-/

namespace SolidScene

namespace Text

/-- The text is made of these lines, each with a line feed behind it. -/
structure HasLines (text : String) (lines : List (List Char)) : Prop where
  toList_eq : text.toList = lines.flatMap (· ++ ['\n'])
  notMem : ∀ line ∈ lines, '\n' ∉ line

/-- The number of spaces that a line begins with. -/
def indentation (line : List Char) : ℕ := (line.takeWhile (· = ' ')).length

theorem HasLines.splitOn_eq {text : String} {lines : List (List Char)} (h : HasLines text lines) :
    text.toList.splitOn '\n' = lines ++ [[]] := by
  obtain ⟨htext, hlines⟩ := h
  rw [htext]
  clear htext
  induction lines with
  | nil => rfl
  | cons line lines ih =>
    simp only [List.forall_mem_cons] at hlines
    simp only [List.flatMap_cons, List.append_assoc, List.cons_append, List.nil_append,
      List.splitOn_append_cons_self, List.splitOn_eq_singleton hlines.1, ih hlines.2]

theorem HasLines.unique {text : String} {lines lines' : List (List Char)} (h : HasLines text lines)
    (h' : HasLines text lines') : lines = lines' :=
  List.append_cancel_right (h.splitOn_eq.symm.trans h'.splitOn_eq)

theorem takeWhile_replicate_append (n : ℕ) {cs : List Char} (h : cs.head? ≠ some ' ') :
    (List.replicate n ' ' ++ cs).takeWhile (· = ' ') = List.replicate n ' ' := by
  rw [List.takeWhile_append_of_pos (by simp)]
  cases cs with
  | nil => simp
  | cons c cs =>
    simp only [List.head?_cons, ne_eq, Option.some.injEq] at h
    simp [h]

theorem indentation_replicate_append (n : ℕ) {cs : List Char} (h : cs.head? ≠ some ' ') :
    indentation (List.replicate n ' ' ++ cs) = n := by
  rw [indentation, takeWhile_replicate_append n h, List.length_replicate]

end Text

open Text (HasLines indentation indentation_replicate_append)

section Forests

variable {A B C : Type} {f : A → List C} {g : B → List C} {R : A → B → Prop} {as : List A}
  {bs : List B}

/-- As many trees one after another are told apart where each tree is told from what follows it. -/
theorem forall₂_of_flatMap_append
    (hfg : ∀ a ∈ as, ∀ b rest rest', f a ++ rest = g b ++ rest' → R a b ∧ rest = rest')
    (hlength : as.length = bs.length) {rest rest' : List C}
    (h : as.flatMap f ++ rest = bs.flatMap g ++ rest') : List.Forall₂ R as bs ∧ rest = rest' := by
  induction as generalizing bs with
  | nil =>
    obtain rfl := List.length_eq_zero_iff.1 hlength.symm
    exact ⟨.nil, h⟩
  | cons a as ih =>
    cases bs with
    | nil => simp at hlength
    | cons b bs =>
      simp only [List.flatMap_cons, List.append_assoc, List.length_cons, Nat.add_right_cancel_iff]
        at h hlength
      obtain ⟨hab, h⟩ := hfg a List.mem_cons_self b _ _ h
      obtain ⟨hall, hrest⟩ := ih (fun a' ha' => hfg a' (List.mem_cons_of_mem a ha')) hlength h
      exact ⟨.cons hab hall, hrest⟩

theorem flatMap_eq_of_forall₂ (h : List.Forall₂ R as bs) (hfg : ∀ a ∈ as, ∀ b, R a b → f a = g b) :
    as.flatMap f = bs.flatMap g := by
  induction h with
  | nil => rfl
  | cons hab _ ih =>
    simp only [List.forall_mem_cons] at hfg
    simp only [List.flatMap_cons, hfg.1 _ hab, ih hfg.2]

end Forests

namespace Solid

variable {α β : Type}

/-! ## Skeletons -/

/-- The combiner of a node, where it has one. -/
def combiner? : Solid α → Option Combiner
  | .boolean combiner _ _ => some combiner
  | _ => none

/-- Two solids of one kind, with the same combiner and children with the same skeletons in the same
order. Their values make no difference. -/
inductive SameSkeleton : Solid α → Solid β → Prop
  | node {s : Solid α} {t : Solid β} (hkind : s.kind = t.kind)
    (hcombiner : s.combiner? = t.combiner?)
    (hchildren : List.Forall₂ SameSkeleton s.children t.children) : SameSkeleton s t

/-- What a solid has from its children all solids have. -/
theorem children_induction {P : Solid α → Prop} (step : ∀ s, (∀ t ∈ s.children, P t) → P s)
    (s : Solid α) : P s := by
  induction s with
  | sphere | box | torus | cylinder | plane => exact step _ (by simp [children])
  | boolean _ _ _ iha ihb => exact step _ (by simp [children, iha, ihb])
  | duplicate _ _ ih | placed _ _ ih | scaled _ _ ih => exact step _ (by simp [children, ih])

/-- The number of children of a node of this kind. -/
def arity (kind : String) : ℕ :=
  if kind = "boolean" then 2 else if kind ∈ ["duplicate", "matrix", "scale"] then 1 else 0

theorem length_children (s : Solid α) : s.children.length = arity s.kind := by
  cases s <;> simp [children, arity, kind]

/-! ## Labels -/

theorem label_eq (s : Solid α) :
    s.label = s.combiner?.elim s.kind fun combiner => s!"boolean {combiner.keyword}" := by
  cases s <;> rfl

theorem kind_eq (s : Solid α) : s.kind = s.combiner?.elim s.label fun _ => "boolean" := by
  cases s <;> rfl

theorem combiner?_eq (s : Solid α) : s.combiner? =
    [.add, .subtract, .union, .blend].find? fun c => s!"boolean {c.keyword}" = s.label := by
  cases s with
  | boolean combiner => cases combiner <;> rfl
  | _ => rfl

theorem label_eq_iff {s : Solid α} {t : Solid β} :
    s.label = t.label ↔ s.kind = t.kind ∧ s.combiner? = t.combiner? := by
  constructor
  · intro h
    have hcombiner : s.combiner? = t.combiner? := by
      rw [combiner?_eq s, combiner?_eq t, h]
    exact ⟨by rw [kind_eq s, kind_eq t, hcombiner, h], hcombiner⟩
  · rintro ⟨hkind, hcombiner⟩
    rw [label_eq s, label_eq t, hkind, hcombiner]

/-- A label begins where the spaces before it end, and stays on its line. -/
theorem label_chars (s : Solid α) :
    s.label.toList.head? ≠ some ' ' ∧ '\n' ∉ s.label.toList := by
  cases s with
  | boolean combiner => cases combiner <;> (simp only [label]; decide)
  | _ => simp only [label, kind]; decide

/-! ## Lines -/

theorem outlineLines_eq (level : ℕ) (s : Solid α) : s.outlineLines level =
    (level, s.label) :: s.children.flatMap (outlineLines (level + 1)) := by
  cases s <;> simp [outlineLines, children]

theorem map_snd_outlineLines (level : ℕ) (s : Solid α) :
    (s.outlineLines level).map Prod.snd = s.preorder.map label := by
  induction s using children_induction generalizing level with
  | step s ih =>
    rw [outlineLines_eq, preorder_eq, List.map_cons, List.map_cons, List.map_flatMap,
      List.map_flatMap]
    exact congrArg _ (List.flatMap_congr fun t ht => ih t ht (level + 1))

theorem length_preorder (s : Solid α) : s.preorder.length = s.nodeCount := by
  induction s with
  | sphere | box | torus | cylinder | plane => rfl
  | boolean _ _ _ iha ihb =>
    simp only [preorder, nodeCount, List.length_cons, List.length_append]
    omega
  | duplicate _ _ ih | placed _ _ ih | scaled _ _ ih =>
    simp only [preorder, nodeCount, List.length_cons]
    omega

theorem level_lt {level : ℕ} {s : Solid α} {entry : ℕ × String}
    (h : entry ∈ s.outlineLines level) : entry.1 < level + s.depth := by
  induction s using children_induction generalizing level with
  | step s ih =>
    have hpos := s.depth_pos
    rw [outlineLines_eq] at h
    simp only [List.mem_cons, List.mem_flatMap] at h
    rcases h with rfl | ⟨t, ht, h⟩
    · dsimp only
      omega
    · have hentry := ih t ht h
      have hdepth : t.depth ≤ s.depth - 1 := depth_le_succ_iff.1 (by omega) t ht
      omega

/-- Some line stands as far in as the solid is deep. -/
theorem exists_deepest (level : ℕ) (s : Solid α) :
    ∃ entry ∈ s.outlineLines level, entry.1 + 1 = level + s.depth := by
  induction s generalizing level with
  | sphere | box | torus | cylinder | plane => exact ⟨_, List.mem_cons_self, rfl⟩
  | boolean _ a b iha ihb =>
    obtain ⟨entry, hentry, hlevel⟩ := iha (level + 1)
    obtain ⟨entry', hentry', hlevel'⟩ := ihb (level + 1)
    simp only [outlineLines, depth, List.mem_cons, List.mem_append]
    rcases le_total a.depth b.depth with hle | hle
    · exact ⟨entry', by simp [hentry'], by omega⟩
    · exact ⟨entry, by simp [hentry], by omega⟩
  | duplicate _ _ ih | placed _ _ ih | scaled _ _ ih =>
    obtain ⟨entry, hentry, hlevel⟩ := ih (level + 1)
    simp only [outlineLines, depth, List.mem_cons]
    exact ⟨entry, .inr hentry, by omega⟩

/-- A line of an outline without its line feed. -/
def outlineLine (entry : ℕ × String) : List Char :=
  List.replicate (2 * entry.1) ' ' ++ entry.2.toList

theorem exists_label {level : ℕ} {s : Solid α} {entry : ℕ × String}
    (h : entry ∈ s.outlineLines level) : ∃ t ∈ s.preorder, t.label = entry.2 := by
  have hlabel := List.mem_map_of_mem (f := Prod.snd) h
  rwa [map_snd_outlineLines, List.mem_map] at hlabel

theorem hasLines_outline (s : Solid α) :
    HasLines s.outline ((s.outlineLines 0).map outlineLine) := by
  constructor
  · simp only [outline, String.toList_ofList, List.flatMap_map]
    rfl
  · intro line hline hfeed
    obtain ⟨entry, hentry, rfl⟩ := List.mem_map.1 hline
    obtain ⟨t, -, hlabel⟩ := exists_label hentry
    simp [outlineLine, ← hlabel, t.label_chars.2] at hfeed

theorem indentation_outlineLine {level : ℕ} {s : Solid α} {entry : ℕ × String}
    (h : entry ∈ s.outlineLines level) : indentation (outlineLine entry) = 2 * entry.1 := by
  obtain ⟨t, -, hlabel⟩ := exists_label h
  exact indentation_replicate_append _ (hlabel ▸ t.label_chars.1)

/-! ## Skeletons from outlines -/

/-- What a line of an outline says, and how far in it stands. -/
def entryOf (line : List Char) : ℕ × String :=
  (indentation line / 2, String.ofList (line.drop (indentation line)))

theorem entryOf_outlineLine {level : ℕ} {s : Solid α} {entry : ℕ × String}
    (h : entry ∈ s.outlineLines level) : entryOf (outlineLine entry) = entry := by
  rw [entryOf, indentation_outlineLine h, outlineLine, List.drop_left' (List.length_replicate ..),
    String.ofList_toList, Nat.mul_div_cancel_left _ Nat.two_pos]

theorem map_entryOf (level : ℕ) (s : Solid α) :
    ((s.outlineLines level).map outlineLine).map entryOf = s.outlineLines level := by
  rw [List.map_map]
  exact (List.map_congr_left fun _ h => entryOf_outlineLine h).trans (List.map_id _)

theorem outlineLines_eq_of_outline_eq {s : Solid α} {t : Solid β} (h : s.outline = t.outline) :
    s.outlineLines 0 = t.outlineLines 0 := by
  have hlines := (hasLines_outline s).unique (h ▸ hasLines_outline t)
  rw [← map_entryOf 0 s, hlines, map_entryOf]

theorem sameSkeleton_of_append {s : Solid α} {t : Solid β} {level : ℕ}
    {rest rest' : List (ℕ × String)}
    (h : s.outlineLines level ++ rest = t.outlineLines level ++ rest') :
    SameSkeleton s t ∧ rest = rest' := by
  induction s using children_induction generalizing t level rest rest' with
  | step s ih =>
    rw [outlineLines_eq, outlineLines_eq] at h
    simp only [List.cons_append, List.cons.injEq, Prod.mk.injEq, true_and] at h
    obtain ⟨hlabel, h⟩ := h
    obtain ⟨hkind, hcombiner⟩ := label_eq_iff.1 hlabel
    obtain ⟨hchildren, hrest⟩ := forall₂_of_flatMap_append (fun u hu v _ _ => ih u hu)
      (by rw [length_children, length_children, hkind]) h
    exact ⟨.node hkind hcombiner hchildren, hrest⟩

theorem SameSkeleton.outlineLines_eq {s : Solid α} {t : Solid β} (h : SameSkeleton s t)
    (level : ℕ) : s.outlineLines level = t.outlineLines level := by
  induction s using children_induction generalizing t level with
  | step s ih =>
    obtain ⟨hkind, hcombiner, hchildren⟩ := h
    rw [Solid.outlineLines_eq, Solid.outlineLines_eq, label_eq_iff.2 ⟨hkind, hcombiner⟩]
    exact congrArg _ (flatMap_eq_of_forall₂ hchildren fun u hu v huv => ih u hu huv (level + 1))

/-- What an outline shows of a solid. -/
structure Outlined (s : Solid α) (lines : List (List Char)) : Prop where
  text : HasLines s.outline lines
  length : lines.length = s.nodeCount
  preorder : List.Forall₂ (fun line t => ∃ level, line = List.replicate (2 * level) ' ' ++
    t.label.toList) lines s.preorder
  deepest : (lines.map indentation).max? = some (2 * (s.depth - 1))

theorem exists_outlined (s : Solid α) : ∃ lines, Outlined s lines := by
  have hlabels := map_snd_outlineLines 0 s
  refine ⟨_, hasLines_outline s, ?_, ?_, ?_⟩
  · have hlength := congrArg List.length hlabels
    simp only [List.length_map] at hlength ⊢
    rw [hlength, length_preorder]
  · rw [← List.forall₂_eq_eq_eq, List.forall₂_map_left_iff, List.forall₂_map_right_iff] at hlabels
    rw [List.forall₂_map_left_iff]
    refine hlabels.imp fun entry t hlabel => ⟨entry.1, ?_⟩
    rw [outlineLine, hlabel]
  · obtain ⟨entry, hentry, hlevel⟩ := exists_deepest 0 s
    simp only [List.map_map, List.max?_eq_some_iff, List.mem_map, Function.comp_apply,
      forall_exists_index, and_imp, forall_apply_eq_imp_iff₂]
    refine ⟨⟨entry, hentry, ?_⟩, fun entry' hentry' => ?_⟩
    · rw [indentation_outlineLine hentry]
      omega
    · have hlt := level_lt hentry'
      rw [indentation_outlineLine hentry']
      omega

/-- The outline lists the nodes, one on a line, and determines the skeleton. -/
theorem outline_determines_skeleton :
    (∀ s : Solid α, ∃ lines, Outlined s lines) ∧
      ∀ s t : Solid α, s.outline = t.outline ↔ SameSkeleton s t := by
  refine ⟨exists_outlined, fun s t => ⟨fun h => ?_, fun h => ?_⟩⟩
  · have hlines := congrArg (· ++ []) (outlineLines_eq_of_outline_eq h)
    exact (sameSkeleton_of_append hlines).1
  · rw [outline, outline, h.outlineLines_eq]

end Solid

end SolidScene
