import SolidScene.Proofs.Scene.RoundTrip
import SolidScene.Proofs.Text.Nesting

/-!
# Brackets and nodes

The brackets of a solid nest as deep as the solid (`nests_brackets`). A text that is read has the
brackets of its scenes, and a canonical text those of its scene, whatever its numbers are. So
brackets and nodes are the same in number and in depth (`brackets_are_nodes`).
-/

namespace SolidScene

open Text (Lexeme lexemes excess Nests isBracket)

namespace Solid

variable {α : Type}

theorem nests_brackets (s : Solid α) : Nests s.brackets s.depth := by
  induction s with
  | sphere | box | torus | cylinder | plane => exact Nests.nil.enclosed
  | boolean _ a b iha ihb =>
    rw [depth, Nat.add_comm]
    exact (iha.append ihb).enclosed
  | duplicate _ inner ih | placed _ inner ih | scaled _ inner ih =>
    rw [depth, Nat.add_comm]
    exact ih.enclosed

theorem count_flatMap_brackets {b : Char} (hb : b = '[' ∨ b = ']') (ss : List (Solid α)) :
    (ss.flatMap brackets).count b = (ss.map nodeCount).sum := by
  rw [List.count_flatMap]
  exact congrArg List.sum (List.map_congr_left fun s _ => s.count_brackets hb)

end Solid

namespace Scene

/-! ## Texts that are read -/

theorem filter_isBracket_of_parseMany {limit : ℕ} {text : String} {ss : List Scene}
    (h : parseMany limit text = .ok ss) :
    text.toList.filter isBracket = ss.flatMap Solid.brackets := by
  rw [Text.filter_isBracket, (parseMany_eq_ok_iff.1 h).brackets_eq]

/-! ## Canonical texts -/

theorem brackets_spelling (s : Scene) : s.spelling.flatMap Lexeme.brackets = s.brackets := by
  have hwords (ws : List (List Char)) : (ws.map Lexeme.word).flatMap Lexeme.brackets = [] := by
    rw [List.flatMap_map]
    exact List.flatMap_eq_nil_iff.2 fun _ _ => rfl
  induction s with
  | sphere | box | torus | cylinder | plane =>
    simp [spelling, hwords, Lexeme.brackets, Solid.brackets]
  | boolean _ _ _ iha ihb => simp [spelling, hwords, Lexeme.brackets, Solid.brackets, iha, ihb]
  | duplicate _ _ ih | placed _ _ ih | scaled _ _ ih =>
    simp [spelling, hwords, Lexeme.brackets, Solid.brackets, ih]

theorem filter_isBracket_canonical (s : Scene) : s.canonical.filter isBracket = s.brackets := by
  rw [Text.filter_isBracket, canonical, lexemes_canonicalBefore, Text.lexemes_nil, List.append_nil,
    brackets_spelling]

/-- The canonical text of a solid has those of its children in it. -/
theorem canonical_eq (s : Scene) :
    s.canonical = s.opening ++ (s.children.flatMap fun t => ' ' :: canonical t) ++ [']'] := by
  cases s with
  | sphere | box | torus | cylinder | plane => simp [canonical, canonicalBefore, Solid.children]
  | boolean _ a b =>
    rw [canonical, canonicalBefore, canonicalBefore_eq a, canonicalBefore_eq b]
    simp [Solid.children]
  | duplicate _ inner | placed _ inner | scaled _ inner =>
    rw [canonical, canonicalBefore, canonicalBefore_eq inner]
    simp [Solid.children]

/-- A canonical text stands in brackets, and inside of them brackets nest properly. -/
theorem exists_inside (s : Scene) :
    ∃ inside depth, s.canonical = '[' :: (inside ++ [']']) ∧ Nests inside depth := by
  obtain ⟨inside, hinside⟩ : ∃ inside, s.canonical = '[' :: (inside ++ [']']) :=
    ⟨_, s.canonical_eq⟩
  have hfilter : inside.filter isBracket = s.children.flatMap Solid.brackets := by
    have h := s.filter_isBracket_canonical
    rw [hinside, s.brackets_eq, List.filter_cons_of_pos (by decide), List.filter_append] at h
    exact List.append_cancel_right (List.cons.inj h).2
  have hnests := Nests.flatMap fun t (_ : t ∈ s.children) => t.nests_brackets
  exact ⟨inside, _, hinside, .of_filter (hfilter ▸ hnests)⟩

/-- Brackets and nodes are the same in number and in depth. A text that is read as scenes has an
opening and a closing bracket for every node of them, nests them properly, and so deep as the
deepest scene. A canonical text, also of a scene that no text describes, stands in brackets, is
balanced at its end only, and has a bracket for every node, nested as deep as the scene. -/
theorem brackets_are_nodes :
    (∀ limit text ss, parseMany limit text = .ok ss →
      text.toList.count '[' = (ss.map Solid.nodeCount).sum ∧
      text.toList.count ']' = (ss.map Solid.nodeCount).sum ∧
      Nests text.toList ((ss.map Solid.depth).foldr max 0)) ∧
    ∀ s : Scene, s.text.toList.head? = some '[' ∧
      (∀ p, p <+: s.text.toList → p ≠ [] → (excess p = 0 ↔ p = s.text.toList)) ∧
      s.text.toList.count '[' = s.nodeCount ∧ Nests s.text.toList s.depth := by
  constructor
  · intro limit text ss h
    have hbrackets := filter_isBracket_of_parseMany h
    have hcount {l : Lexeme} {b : Char} (hl : l.Bracket b) :
        text.toList.count b = (ss.map Solid.nodeCount).sum := by
      rw [← Text.count_filter_isBracket hl, hbrackets]
      exact Solid.count_flatMap_brackets (by cases hl <;> simp) ss
    have hnests := Nests.flatMap fun s (_ : s ∈ ss) => s.nests_brackets
    exact ⟨hcount .opening, hcount .closing, .of_filter (hbrackets ▸ hnests)⟩
  · intro s
    obtain ⟨inside, depth, hinside, hnests⟩ := s.exists_inside
    rw [text, String.toList_ofList]
    refine ⟨by rw [hinside]; rfl, fun p hp hne => ?_, ?_, ?_⟩
    · rw [hinside] at hp ⊢
      exact hnests.excess_eq_zero_iff hp hne
    · rw [← Text.count_filter_isBracket .opening, filter_isBracket_canonical]
      exact s.count_brackets (.inl rfl)
    · exact .of_filter (s.filter_isBracket_canonical ▸ s.nests_brackets)

theorem brackets_are_nodes_two_scenes :
    let text := "[%boolean - [+sphere 0 0 0 1] [% scale 2[+sphere 0 0 0 1]]] [+sphere 0 0 0 1]"
    let ball : Scene := .sphere ⟨0.0, 0.0, 0.0⟩ 1.0
    let ss : List Scene := [.boolean .subtract ball (.scaled 2.0 ball), ball]
    let odd : Scene :=
      .duplicate ⟨1.0 / 0.0, 0.0 / 0.0, 0.0⟩ (.plane ⟨0.0, 0.0, 0.0⟩ ⟨0.0, 0.0, 0.0⟩)
    parseMany 3 text = .ok ss ∧ text.toList.count '[' = 5 ∧ text.toList.count ']' = 5 ∧
      Nests text.toList 3 ∧ odd.text = "[% duplicate inf NaN 0 [+ plane 0 0 0 0 0 0]]" ∧
      odd.text.toList.count '[' = 2 ∧ Nests odd.text.toList 2 := by
  intro text ball ss odd
  have hread : parseMany 3 text = .ok ss := by decide +kernel
  obtain ⟨hopen, hclose, hnests⟩ := brackets_are_nodes.1 3 text ss hread
  obtain ⟨-, -, hopen', hnests'⟩ := brackets_are_nodes.2 odd
  exact ⟨hread, hopen, hclose, hnests, by decide +kernel, hopen', hnests'⟩

end Scene

end SolidScene
