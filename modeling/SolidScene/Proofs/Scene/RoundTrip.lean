import SolidScene.Proofs.Scene.Acceptance
import SolidScene.Scene.Canonical

/-!
# Canonical text reads back

The canonical text of a scene is cut into the words it was made of (`lexemes_canonicalBefore`). For
a well-formed scene they are an expression of this very scene (`expression_spelling`), so the text
is read as the scene it was written from wherever the limit allows the scene's depth.
-/

namespace SolidScene

open Text (Lexeme lexemes lexemes_append isWordChar)
open Grammar
open Binary64 (mul_two_mul_half)

theorem Text.lexemes_spaced {ws : List (List Char)} {c : Char} (hne : ∀ w ∈ ws, w ≠ [])
    (hws : ∀ w ∈ ws, ∀ c ∈ w, isWordChar c = true) (hc : isWordChar c = false)
    (rest : List Char) :
    lexemes (ws.flatMap (' ' :: ·) ++ c :: rest) = ws.map .word ++ lexemes (c :: rest) := by
  induction ws with
  | nil => rfl
  | cons w ws ih =>
    obtain ⟨hw, hne⟩ := List.forall_mem_cons.1 hne
    obtain ⟨hchars, hws⟩ := List.forall_mem_cons.1 hws
    -- the word ends at the space before the next one, or where the rest begins
    have hend : ∀ d ∈ (ws.flatMap (' ' :: ·) ++ c :: rest).head?, isWordChar d = false := by
      cases ws with
      | nil => simpa using hc
      | cons =>
        rintro _ ⟨⟩
        decide
    calc lexemes ((w :: ws).flatMap (' ' :: ·) ++ c :: rest)
        = lexemes (w ++ (ws.flatMap (' ' :: ·) ++ c :: rest)) := by simp
      _ = .word w :: (ws.map .word ++ lexemes (c :: rest)) := by
        rw [lexemes_append hw hchars hend, ih hne hws]

namespace Scene

/-! ## The words of a scene -/

/-- The lexemes of the canonical text. -/
def spelling (s : Scene) : List Lexeme :=
  .opening :: .word [s.tag.char] :: (s.headWords.map .word ++
    match s with
    | .boolean _ a b => spelling a ++ (spelling b ++ [.closing])
    | .duplicate _ inner | .placed _ inner | .scaled _ inner => spelling inner ++ [.closing]
    | _ => [.closing])

/-- The word for the combiner, where there is one. -/
def keywords : Scene → List (List Char)
  | .boolean combiner _ _ => [combiner.keyword.toList]
  | _ => []

theorem headWords_eq (s : Scene) :
    s.headWords = s.kind.toList :: (s.keywords ++ s.parameters.map Number.shortest) := by
  cases s <;> rfl

theorem isWord_of_mem_headWords (s : Scene) :
    ∀ w ∈ s.headWords, w ≠ [] ∧ ∀ c ∈ w, isWordChar c = true := by
  have hall (w : List Char) (h : w ≠ [] ∧ w.all isWordChar = true) :
      w ≠ [] ∧ ∀ c ∈ w, isWordChar c = true := ⟨h.1, List.all_eq_true.1 h.2⟩
  rw [headWords_eq]
  refine List.forall_mem_cons.2 ⟨hall _ ?_, List.forall_mem_append.2 ⟨?_, ?_⟩⟩
  · cases s <;> rw [Solid.kind] <;> decide
  · cases s with
    | boolean combiner =>
      exact List.forall_mem_singleton.2 (hall _ (by cases combiner <;> decide))
    | _ => simp [keywords]
  · refine List.forall_mem_map.2 fun x _ => ⟨Number.shortest_ne_nil x, fun c hc => ?_⟩
    exact Number.isWordChar_of_mem_shortest hc

theorem lexemes_opening (s : Scene) {c : Char} (hc : isWordChar c = false) (rest : List Char) :
    lexemes (s.opening ++ c :: rest)
      = .opening :: .word [s.tag.char] :: (s.headWords.map .word ++ lexemes (c :: rest)) := by
  have hwords := s.isWord_of_mem_headWords
  have htag : ∀ d ∈ (s.headWords.flatMap (' ' :: ·) ++ c :: rest).head?, isWordChar d = false := by
    rw [headWords_eq]
    rintro _ ⟨⟩
    decide
  calc lexemes (s.opening ++ c :: rest)
      = .opening :: lexemes ([s.tag.char] ++ (s.headWords.flatMap (' ' :: ·) ++ c :: rest)) := by
        simp [opening]
    _ = _ := by
      rw [lexemes_append (List.cons_ne_nil _ _)
          (List.forall_mem_singleton.2 s.tag.isWordChar_char) htag,
        Text.lexemes_spaced (fun w hw => (hwords w hw).1) (fun w hw => (hwords w hw).2) hc]

theorem lexemes_canonicalBefore (s : Scene) (rest : List Char) :
    lexemes (s.canonicalBefore rest) = s.spelling ++ lexemes rest := by
  induction s generalizing rest with
  | boolean combiner a b iha ihb =>
    rw [canonicalBefore, lexemes_opening _ (by decide), spelling, Text.lexemes_space, iha,
      Text.lexemes_space, ihb, Text.lexemes_closing]
    simp
  | duplicate period inner ih | placed placement inner ih | scaled factor inner ih =>
    rw [canonicalBefore, lexemes_opening _ (by decide), spelling, Text.lexemes_space, ih,
      Text.lexemes_closing]
    simp
  | _ =>
    simp only [canonicalBefore, spelling]
    rw [lexemes_opening _ (by decide), Text.lexemes_closing]
    simp

/-! ## Their meaning -/

/-- What a node is named in canonical text. -/
def name : Scene → Name
  | .sphere .. => .object .sphere
  | .box .. => .object .box
  | .torus .. => .object .torus
  | .cylinder .. => .object .cylinder
  | .plane .. => .object .plane
  | .boolean .. => .operation .boolean
  | .duplicate .. => .operation .duplicate
  | .placed .. => .operation .matrix
  | .scaled .. => .operation .scale

theorem heading_name (s : Scene) :
    Heading [.word [s.tag.char], .word s.kind.toList] s.name := by
  have hname : s.tag.lookup (lowercase s.kind) = some s.name := by
    cases s <;> simp only [tag, Solid.isPrimitive, Solid.children, Solid.kind, name,
      List.isEmpty_nil, List.isEmpty_cons, if_true, Bool.false_eq_true, if_false] <;>
      decide +kernel
  refine ⟨s.tag, s.kind.toList, .apart, ?_⟩
  rw [String.ofList_toList]
  exact Tag.lookup_eq_some_iff.1 hname

theorem numbers_shortest {xs : List Float} (h : ∀ x ∈ xs, x.isFinite = true) :
    Numbers ((xs.map Number.shortest).map .word) xs := by
  rw [List.map_map]
  refine List.forall₂_map_left_iff.2 (List.forall₂_same.2 fun x hx => ?_)
  exact ⟨_, rfl, Number.finite?_shortest (h x hx)⟩

/-- The numbers of the text are finite: those that are stored, and sizes also doubled. -/
theorem isFinite_parameters {s : Scene} (h : s.Checked) :
    ∀ x ∈ s.parameters, x.isFinite = true := by
  have hstored := h.finite
  cases s with
  | box center halfExtents =>
    have hdouble : ∀ x ∈ halfExtents.toList.map (· * 2.0), x.isFinite = true :=
      List.forall_mem_map.2 fun x hx => (h.halves x hx).1
    exact List.forall_mem_append.2 ⟨(List.forall_mem_append.1 hstored).1, hdouble⟩
  | cylinder center radius halfLength =>
    obtain ⟨hcenter, hrest⟩ := List.forall_mem_append.1 hstored
    obtain ⟨hradius, -⟩ := List.forall_mem_cons.1 hrest
    have hdouble := (h.halves halfLength List.mem_cons_self).1
    exact List.forall_mem_append.2 ⟨hcenter,
      List.forall_mem_cons.2 ⟨hradius, List.forall_mem_singleton.2 hdouble⟩⟩
  | placed placement inner => exact (List.forall_mem_append.1 hstored).1
  | _ => exact hstored

/-- The numbers of a checked shape are those of the shape: doubled sizes are halved again. -/
theorem shape_parameters {s : Scene} (h : s.Checked) {name : ObjectName}
    (hname : s.name = .object name) : Shape name s.parameters s := by
  have hstored := h.finite
  cases s with
  | sphere center radius =>
    cases hname
    exact .sphere center (h.radii _ List.mem_cons_self)
  | box center halfExtents =>
    cases hname
    have hback (x : Float) (hx : x ∈ halfExtents.toList) : x * 2.0 * 0.5 = x :=
      mul_two_mul_half (h.finite x (List.mem_append_right _ hx)) (h.halves x hx).1
    have hsign : ∀ x ∈ halfExtents.toList.map (· * 2.0), Scalar.lt x 0.0 = false :=
      List.forall_mem_map.2 fun x hx => (h.halves x hx).2
    have hshape := @Shape.box center (halfExtents.scale 2.0) hsign
    simp only [Vec3.scale, Vec3.map] at hshape
    rwa [hback _ (by simp [Vec3.toList]), hback _ (by simp [Vec3.toList]),
      hback _ (by simp [Vec3.toList])] at hshape
  | torus center majorRadius minorRadius =>
    cases hname
    exact .torus center (h.radii _ List.mem_cons_self)
      (h.radii _ (List.mem_cons_of_mem _ List.mem_cons_self))
  | cylinder center radius halfLength =>
    cases hname
    obtain ⟨hdouble, hsign⟩ := h.halves halfLength List.mem_cons_self
    have hshape := Shape.cylinder center (h.radii radius List.mem_cons_self) hsign
    rwa [mul_two_mul_half (h.finite _ (by simp [Solid.stored])) hdouble] at hshape
  | plane point normal =>
    cases hname
    exact .plane point h.usable
  | _ => cases hname

/-- Between name and closing bracket the canonical text has a body of the node. -/
theorem body_words {s : Scene} (h : s.Checked) {E : List Lexeme → Scene → Prop}
    (hE : ∀ t ∈ s.children, E (spelling t) t) :
    Body E s.name (s.keywords.map .word ++ (s.parameters.map Number.shortest).map .word ++
      s.children.flatMap spelling) s := by
  have hvalues := numbers_shortest (isFinite_parameters h)
  cases s with
  | boolean combiner a b =>
    have hword : Combiner.ofWord? (String.ofList combiner.keyword.toList) = some combiner := by
      rw [String.ofList_toList]
      cases combiner <;> decide +kernel
    have hbody := Body.boolean (Combiner.ofWord?_eq_some_iff.1 hword) (hE a List.mem_cons_self)
      (hE b (List.mem_cons_of_mem _ List.mem_cons_self))
    simpa [name, keywords, parameters, Solid.children] using hbody
  | duplicate period inner =>
    simpa [name, keywords, Solid.children] using
      Body.duplicate hvalues (hE inner List.mem_cons_self)
  | placed placement inner =>
    simpa [name, keywords, Solid.children] using
      Body.matrix hvalues (.inl rfl) h.usable (hE inner List.mem_cons_self)
  | scaled factor inner =>
    simpa [name, keywords, Solid.children] using
      Body.scale hvalues h.usable (hE inner List.mem_cons_self)
  | _ => simpa [name, keywords, Solid.children] using Body.object hvalues (shape_parameters h rfl)

theorem spelling_eq (s : Scene) : s.spelling = .opening ::
    ([.word [s.tag.char], .word s.kind.toList] ++
      (s.keywords.map .word ++ (s.parameters.map Number.shortest).map .word ++
        s.children.flatMap spelling) ++ [.closing]) := by
  have hwords := congrArg (List.map Lexeme.word) s.headWords_eq
  cases s <;> rw [spelling, hwords] <;> simp [Solid.children]

theorem expression_spelling {n : ℕ} {s : Scene} (h : s.WellFormed) (hdepth : s.depth ≤ n) :
    Expression n s.spelling s := by
  induction n generalizing s with
  | zero =>
    have := s.depth_pos
    omega
  | succ n ih =>
    obtain ⟨hchecked, hchildren⟩ := Solid.wellFormed_iff.1 h
    have hdepths := Solid.depth_le_succ_iff.1 hdepth
    have hbody := body_words hchecked fun t ht => ih (hchildren t ht) (hdepths t ht)
    exact ⟨_, _, _, s.heading_name, hbody, s.spelling_eq⟩

/-- A well-formed scene is read from its canonical text, bit for bit, wherever the limit allows its
depth. So what is read has the same text. -/
theorem parse_text {s : Scene} (h : s.WellFormed) {limit : ℕ} (hdepth : s.depth ≤ limit) :
    parse limit s.text = .ok s ∧ (parse limit s.text).map text = .ok s.text := by
  have hread : parse limit s.text = .ok s := by
    rw [parse_eq_ok_iff, text, String.toList_ofList, canonical, lexemes_canonicalBefore,
      Text.lexemes_nil, List.append_nil]
    exact expression_spelling h hdepth
  exact ⟨hread, by rw [hread, Except.map]⟩

theorem parse_text_moved_difference :
    let m : Matrix4 Float := .ofRows ⟨1.0, 0.0, 0.0, 1e-3⟩ ⟨0.0, -2.0, 0.0, 0.0⟩
      ⟨0.0, 0.0, 0.5, 0.0⟩ ⟨0.0, 0.0, 0.0, 1.0⟩
    let s : Scene := .placed ⟨m, m.inverse⟩ (.boolean .subtract
      (.box ⟨-0.0, 0.0, 0.1⟩ ⟨0.5, 2.5, 0.05⟩) (.scaled (-3.0) (.sphere ⟨0.0, 0.0, 0.0⟩ (-0.0))))
    s.WellFormed ∧ s.depth ≤ 4 ∧ s.text = "[% matrix 1 0 0 0.001 0 -2 0 0 0 0 0.5 0 0 0 0 1 " ++
        "[% boolean sub [+ box -0 0 0.1 1 5 0.1] [% scale -3 [+ sphere 0 0 0 -0]]]]" ∧
      parse 4 s.text = .ok s ∧ (parse 4 s.text).map text = .ok s.text := by
  intro m s
  have hwellFormed : s.WellFormed := by decide +kernel
  have hdepth : s.depth ≤ 4 := by decide
  exact ⟨hwellFormed, hdepth, by decide +kernel, parse_text hwellFormed hdepth⟩

end Scene

end SolidScene
