import Mathlib.Data.List.Forall2
import SolidScene.Proofs.Solid.Tree
import SolidScene.Proofs.Text.Lexeme
import SolidScene.Scene.Expression

/-!
# The grammar of scenes

Which lists of lexemes are expressions, and of which scenes. An expression is a tag, a name and the
body that belongs to the name, in brackets. `Expression n` nests brackets at most `n` deep. That is
as deep as the scene (`expression_iff`), and the brackets are those of the scene's nodes
(`Expression.brackets_eq`).
-/

namespace SolidScene.Grammar

open Text (Lexeme)

/-- The words are finite literals of these numbers. -/
def Numbers (ls : List Lexeme) (xs : List Float) : Prop :=
  List.Forall₂ (fun l x => ∃ w, l = .word w ∧ Number.finite? w = some x) ls xs

/-- A tag and a word, in one lexeme or in two. -/
inductive Tagged (tag : Tag) (w : List Char) : List Lexeme → Prop
  | glued (hne : w ≠ []) : Tagged tag w [.word (tag.char :: w)]
  | apart : Tagged tag w [.word [tag.char], .word w]

/-- A tag and a word for a name, in any letter case. -/
def Heading (ls : List Lexeme) (name : Name) : Prop :=
  ∃ tag w, Tagged tag w ls ∧ (lowercase (String.ofList w), name) ∈ tag.words

/-- The values of a shape, and the shape they describe. -/
inductive Shape : ObjectName → List Float → Scene → Prop
  | sphere (center : Vec3 Float) {radius : Float} (h : Scalar.lt radius 0.0 = false) :
    Shape .sphere (center.toList ++ [radius]) (.sphere center radius)
  | cube (center : Vec3 Float) {size : Float} (h : Scalar.lt size 0.0 = false) :
    Shape .cube (center.toList ++ [size]) (.box center ⟨size * 0.5, size * 0.5, size * 0.5⟩)
  | box (center : Vec3 Float) {size : Vec3 Float} (h : ∀ x ∈ size.toList, Scalar.lt x 0.0 = false) :
    Shape .box (center.toList ++ size.toList)
      (.box center ⟨size.x * 0.5, size.y * 0.5, size.z * 0.5⟩)
  | torus (center : Vec3 Float) {majorRadius minorRadius : Float}
    (hmajor : Scalar.lt majorRadius 0.0 = false) (hminor : Scalar.lt minorRadius 0.0 = false) :
    Shape .torus (center.toList ++ [majorRadius, minorRadius])
      (.torus center majorRadius minorRadius)
  | cylinder (center : Vec3 Float) {radius length : Float}
    (hradius : Scalar.lt radius 0.0 = false) (hlength : Scalar.lt length 0.0 = false) :
    Shape .cylinder (center.toList ++ [radius, length]) (.cylinder center radius (length * 0.5))
  | plane (point : Vec3 Float) {normal : Vec3 Float} (h : normal.hasDirection = true) :
    Shape .plane (point.toList ++ normal.toList) (.plane point normal)

/-- The values of a matrix row by row, all sixteen or without the last row. -/
def MatrixValues (xs : List Float) (m : Matrix4 Float) : Prop :=
  m.entries = xs ∨ m.entries = xs ++ [0.0, 0.0, 0.0, 1.0]

/-- What stands between a name and the closing bracket, where `E` holds of the expressions in it. -/
inductive Body (E : List Lexeme → Scene → Prop) : Name → List Lexeme → Scene → Prop
  | object {name ls xs s} (hvalues : Numbers ls xs) (hshape : Shape name xs s) :
    Body E (.object name) ls s
  | boolean {w combiner u v a b} (hword : (lowercase (String.ofList w), combiner) ∈ Combiner.words)
    (ha : E u a) (hb : E v b) :
    Body E (.operation .boolean) (.word w :: (u ++ v)) (.boolean combiner a b)
  | duplicate {ls u period inner} (hvalues : Numbers ls period.toList) (hinner : E u inner) :
    Body E (.operation .duplicate) (ls ++ u) (.duplicate period inner)
  | matrix {ls xs u m placement inner} (hvalues : Numbers ls xs) (hmatrix : MatrixValues xs m)
    (hplacement : Placement.ofMatrix? m = some placement) (hinner : E u inner) :
    Body E (.operation .matrix) (ls ++ u) (.placed placement inner)
  | scale {ls u factor inner} (hvalues : Numbers ls [factor])
    (hfactor : Scalar.eq factor 0.0 = false) (hinner : E u inner) :
    Body E (.operation .scale) (ls ++ u) (.scaled factor inner)

/-- The expressions that nest brackets at most `n` deep, and the scenes they describe. -/
def Expression : Nat → List Lexeme → Scene → Prop
  | 0, _, _ => False
  | n + 1, ls, s => ∃ head name body,
    Heading head name ∧ Body (Expression n) name body s ∧
      ls = .opening :: (head ++ body ++ [.closing])

/-- Expressions one after another. -/
inductive Expressions (n : Nat) : List Lexeme → List Scene → Prop
  | nil : Expressions n [] []
  | cons {u v s ss} (hs : Expression n u s) (hss : Expressions n v ss) :
    Expressions n (u ++ v) (s :: ss)

/-! ## Depth -/

section Body

variable {E E' : List Lexeme → Scene → Prop} {name : Name} {ls : List Lexeme} {s : Scene}

/-- A body depends on the expressions for the children only. -/
theorem Body.imp (h : Body E name ls s) (hE : ∀ t ∈ s.children, ∀ u, E u t → E' u t) :
    Body E' name ls s := by
  cases h with
  | object hvalues hshape => exact .object hvalues hshape
  | boolean hword ha hb =>
    exact .boolean hword (hE _ List.mem_cons_self _ ha)
      (hE _ (List.mem_cons_of_mem _ List.mem_cons_self) _ hb)
  | duplicate hvalues hinner => exact .duplicate hvalues (hE _ List.mem_cons_self _ hinner)
  | matrix hvalues hmatrix hplacement hinner =>
    exact .matrix hvalues hmatrix hplacement (hE _ List.mem_cons_self _ hinner)
  | scale hvalues hfactor hinner => exact .scale hvalues hfactor (hE _ List.mem_cons_self _ hinner)

theorem Shape.children_eq_nil {name : ObjectName} {xs : List Float} (h : Shape name xs s) :
    s.children = [] := by
  cases h <;> rfl

/-- Every child has an expression in the body. -/
theorem Body.exists_child (h : Body E name ls s) : ∀ t ∈ s.children, ∃ u, E u t := by
  cases h with
  | object _ hshape => simp [hshape.children_eq_nil]
  | boolean _ ha hb => exact List.forall_mem_cons.2 ⟨⟨_, ha⟩, List.forall_mem_singleton.2 ⟨_, hb⟩⟩
  | duplicate _ hinner => exact List.forall_mem_singleton.2 ⟨_, hinner⟩
  | matrix _ _ _ hinner => exact List.forall_mem_singleton.2 ⟨_, hinner⟩
  | scale _ _ hinner => exact List.forall_mem_singleton.2 ⟨_, hinner⟩

end Body

/-- Brackets are nested as deep as the scene. -/
theorem expression_iff {n m : ℕ} (h : n ≤ m) {ls : List Lexeme} {s : Scene} :
    Expression n ls s ↔ Expression m ls s ∧ s.depth ≤ n := by
  induction n generalizing m ls s with
  | zero =>
    have := s.depth_pos
    exact iff_of_false id fun h => by omega
  | succ n ih =>
    obtain ⟨m, rfl⟩ : ∃ k, m = k + 1 := ⟨m - 1, by omega⟩
    have ih {ls : List Lexeme} {s : Scene} := @ih m (by omega) ls s
    constructor
    · rintro ⟨head, name, body, hhead, hbody, rfl⟩
      refine ⟨⟨head, name, body, hhead, hbody.imp fun t _ u hu => (ih.1 hu).1, rfl⟩, ?_⟩
      refine Solid.depth_le_succ_iff.2 fun t ht => ?_
      obtain ⟨u, hu⟩ := hbody.exists_child t ht
      exact (ih.1 hu).2
    · rintro ⟨⟨head, name, body, hhead, hbody, rfl⟩, hdepth⟩
      have hchildren := Solid.depth_le_succ_iff.1 hdepth
      exact ⟨head, name, body, hhead, hbody.imp fun t ht u hu => ih.2 ⟨hu, hchildren t ht⟩, rfl⟩

theorem expressions_iff {n m : ℕ} (h : n ≤ m) {ls : List Lexeme} {ss : List Scene} :
    Expressions n ls ss ↔ Expressions m ls ss ∧ ∀ s ∈ ss, s.depth ≤ n := by
  constructor
  · intro hn
    induction hn with
    | nil => exact ⟨.nil, by simp⟩
    | cons hs _ ih =>
      obtain ⟨hs, hdepth⟩ := (expression_iff h).1 hs
      exact ⟨.cons hs ih.1, List.forall_mem_cons.2 ⟨hdepth, ih.2⟩⟩
  · rintro ⟨hm, hdepth⟩
    induction hm with
    | nil => exact .nil
    | cons hs _ ih =>
      obtain ⟨hd, hds⟩ := List.forall_mem_cons.1 hdepth
      exact .cons ((expression_iff h).2 ⟨hs, hd⟩) (ih hds)

/-! ## Brackets -/

theorem Numbers.brackets_eq_nil {ls : List Lexeme} {xs : List Float} (h : Numbers ls xs) :
    ls.flatMap Lexeme.brackets = [] := by
  induction h with
  | nil => rfl
  | cons hl _ ih =>
    obtain ⟨w, rfl, -⟩ := hl
    rw [List.flatMap_cons, ih]
    rfl

theorem Heading.brackets_eq_nil {ls : List Lexeme} {name : Name} (h : Heading ls name) :
    ls.flatMap Lexeme.brackets = [] := by
  obtain ⟨tag, w, htagged, -⟩ := h
  cases htagged <;> rfl

theorem Body.brackets_eq {E : List Lexeme → Scene → Prop} {name : Name} {ls : List Lexeme}
    {s : Scene} (hE : ∀ u t, E u t → u.flatMap Lexeme.brackets = t.brackets)
    (h : Body E name ls s) :
    ls.flatMap Lexeme.brackets = s.children.flatMap Solid.brackets := by
  cases h with
  | object hvalues hshape => rw [hvalues.brackets_eq_nil, hshape.children_eq_nil, List.flatMap_nil]
  | boolean _ ha hb =>
    simp [Lexeme.brackets, Solid.children, hE _ _ ha, hE _ _ hb]
  | duplicate hvalues hinner | matrix hvalues _ _ hinner | scale hvalues _ hinner =>
    simp [Solid.children, hvalues.brackets_eq_nil, hE _ _ hinner]

/-- An expression has the brackets of its scene. -/
theorem Expression.brackets_eq : ∀ {n : ℕ} {ls : List Lexeme} {s : Scene}, Expression n ls s →
    ls.flatMap Lexeme.brackets = s.brackets
  | n + 1, _, s, ⟨head, name, body, hhead, hbody, hls⟩ => by
    have hchildren := hbody.brackets_eq fun _ _ => Expression.brackets_eq
    rw [hls, s.brackets_eq, List.flatMap_cons, List.flatMap_append, List.flatMap_append,
      hhead.brackets_eq_nil, hchildren]
    rfl

/-- An expression has an opening and a closing bracket for every node. -/
theorem Expression.count_eq {l : Lexeme} {b : Char} (hl : l.Bracket b) {n : ℕ} {ls : List Lexeme}
    {s : Scene} (h : Expression n ls s) : ls.count l = s.nodeCount := by
  rw [← hl.count_brackets, h.brackets_eq, Solid.count_brackets (by cases hl <;> simp)]

theorem Expressions.brackets_eq {n : ℕ} {ls : List Lexeme} {ss : List Scene}
    (h : Expressions n ls ss) : ls.flatMap Lexeme.brackets = ss.flatMap Solid.brackets := by
  induction h with
  | nil => rfl
  | cons hs _ ih => rw [List.flatMap_append, List.flatMap_cons, hs.brackets_eq, ih]

end SolidScene.Grammar
