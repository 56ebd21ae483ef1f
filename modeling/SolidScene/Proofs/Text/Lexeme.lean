import Mathlib.Tactic.SplitIfs
import SolidScene.Text.Blank

/-!
# Lexemes

A text is cut into single brackets and maximal runs of other characters between blanks. It spells
these lexemes and no others (`spells_iff`), and it has as many brackets of a kind as they
(`count_lexemes`).
-/

namespace SolidScene.Text

/-- What a text is cut into. -/
inductive Lexeme where
  | opening
  | closing
  | word (text : List Char)
deriving Repr, DecidableEq

/-- The bracket that a lexeme stands for. -/
inductive Lexeme.Bracket : Lexeme → Char → Prop
  | opening : Bracket .opening '['
  | closing : Bracket .closing ']'

/-- The lexemes of a text, in order. -/
def lexemes : List Char → List Lexeme
  | [] => []
  | c :: cs =>
    if isBlank c then lexemes cs
    else if c = '[' then .opening :: lexemes cs
    else if c = ']' then .closing :: lexemes cs
    else .word (c :: cs.takeWhile isWordChar) :: lexemes (cs.dropWhile isWordChar)
termination_by cs => cs.length
decreasing_by
  all_goals simp only [List.length_cons]
  all_goals have := (List.dropWhile_suffix isWordChar (l := cs)).length_le
  all_goals omega

/-- The text spells these lexemes: blanks may stand anywhere between them, and a word ends where no
word character follows. -/
inductive Spells : List Char → List Lexeme → Prop
  | nil : Spells [] []
  | blank {c : Char} {cs : List Char} {ls : List Lexeme} (hc : isBlank c = true)
    (h : Spells cs ls) : Spells (c :: cs) ls
  | bracket {l : Lexeme} {b : Char} {cs : List Char} {ls : List Lexeme} (hl : l.Bracket b)
    (h : Spells cs ls) : Spells (b :: cs) (l :: ls)
  | word {w cs : List Char} {ls : List Lexeme} (hne : w ≠ []) (hw : ∀ c ∈ w, isWordChar c = true)
    (hend : ∀ c ∈ cs.head?, isWordChar c = false) (h : Spells cs ls) :
    Spells (w ++ cs) (.word w :: ls)

theorem isWordChar_iff {c : Char} :
    isWordChar c = true ↔ isBlank c = false ∧ c ≠ '[' ∧ c ≠ ']' := by
  simp [isWordChar, isBracket]

@[simp] theorem lexemes_nil : lexemes [] = [] := by rw [lexemes]

@[simp] theorem lexemes_opening (cs : List Char) :
    lexemes ('[' :: cs) = .opening :: lexemes cs := by
  rw [lexemes, if_neg (by decide), if_pos rfl]

@[simp] theorem lexemes_closing (cs : List Char) :
    lexemes (']' :: cs) = .closing :: lexemes cs := by
  rw [lexemes, if_neg (by decide), if_neg (by decide), if_pos rfl]

theorem lexemes_blank {c : Char} (hc : isBlank c = true) (cs : List Char) :
    lexemes (c :: cs) = lexemes cs := by
  rw [lexemes, if_pos hc]

@[simp] theorem lexemes_space (cs : List Char) : lexemes (' ' :: cs) = lexemes cs :=
  lexemes_blank (by decide) cs

theorem lexemes_word {c : Char} (hc : isWordChar c = true) (cs : List Char) :
    lexemes (c :: cs)
      = .word (c :: cs.takeWhile isWordChar) :: lexemes (cs.dropWhile isWordChar) := by
  obtain ⟨hblank, hopen, hclose⟩ := isWordChar_iff.1 hc
  rw [lexemes, if_neg (by simp [hblank]), if_neg hopen, if_neg hclose]

/-- A run of word characters is one word where no word character follows. -/
theorem lexemes_append {w rest : List Char} (hne : w ≠ []) (hw : ∀ c ∈ w, isWordChar c = true)
    (hrest : ∀ c ∈ rest.head?, isWordChar c = false) :
    lexemes (w ++ rest) = .word w :: lexemes rest := by
  obtain ⟨c, cs, rfl⟩ := List.exists_cons_of_ne_nil hne
  obtain ⟨hc, hcs⟩ := List.forall_mem_cons.1 hw
  have hstop : rest.takeWhile isWordChar = [] ∧ rest.dropWhile isWordChar = rest := by
    cases rest with
    | nil => exact ⟨rfl, rfl⟩
    | cons d ds => simp [hrest d rfl]
  rw [List.cons_append, lexemes_word hc, List.takeWhile_append_of_pos hcs,
    List.dropWhile_append_of_pos hcs, hstop.1, hstop.2, List.append_nil]

theorem lexemes_takeWhile {cs : List Char} (h : cs.takeWhile isWordChar ≠ []) :
    lexemes cs = .word (cs.takeWhile isWordChar) :: lexemes (cs.dropWhile isWordChar) := by
  cases cs with
  | nil => exact absurd rfl h
  | cons c cs =>
    by_cases hc : isWordChar c = true
    · rw [lexemes_word hc, List.takeWhile_cons_of_pos hc, List.dropWhile_cons_of_pos hc]
    · exact absurd (List.takeWhile_cons_of_neg hc) h

theorem lexemes_dropWhile_isBlank (cs : List Char) :
    lexemes (cs.dropWhile isBlank) = lexemes cs := by
  induction cs with
  | nil => rfl
  | cons c cs ih =>
    rw [List.dropWhile_cons]
    split_ifs with hc
    · rw [ih, lexemes_blank hc]
    · rfl

theorem head?_dropWhile_isWordChar (cs : List Char) :
    ∀ c ∈ (cs.dropWhile isWordChar).head?, isWordChar c = false := by
  intro c hc
  have h := List.head?_dropWhile_not isWordChar cs
  rw [hc] at h
  exact h

theorem spells_lexemes (cs : List Char) : Spells cs (lexemes cs) := by
  induction cs using lexemes.induct with
  | case1 =>
    rw [lexemes_nil]
    exact .nil
  | case2 c cs hc ih =>
    rw [lexemes_blank hc]
    exact .blank hc ih
  | case3 cs _ ih =>
    rw [lexemes_opening]
    exact .bracket .opening ih
  | case4 cs _ _ ih =>
    rw [lexemes_closing]
    exact .bracket .closing ih
  | case5 c cs hblank hopen hclose ih =>
    have hc := isWordChar_iff.2 ⟨by simpa using hblank, hopen, hclose⟩
    have hrun : ∀ d ∈ c :: cs.takeWhile isWordChar, isWordChar d = true :=
      List.forall_mem_cons.2 ⟨hc, List.all_eq_true.1 List.all_takeWhile⟩
    have h := Spells.word (List.cons_ne_nil _ _) hrun (head?_dropWhile_isWordChar cs) ih
    rwa [List.cons_append, List.takeWhile_append_dropWhile, ← lexemes_word hc] at h

/-- A text spells its lexemes and nothing else. -/
theorem spells_iff {cs : List Char} {ls : List Lexeme} : Spells cs ls ↔ lexemes cs = ls := by
  constructor
  · intro h
    induction h with
    | nil => exact lexemes_nil
    | blank hc _ ih => rw [lexemes_blank hc, ih]
    | bracket hl _ ih => cases hl <;> simp [ih]
    | word hne hw hend _ ih => rw [lexemes_append hne hw hend, ih]
  · rintro rfl
    exact spells_lexemes cs

/-- What a text begins with behind its blanks. -/
theorem lexemes_cases (cs : List Char) :
    (cs.dropWhile isBlank = [] ∧ lexemes cs = []) ∨
    (∃ rest, cs.dropWhile isBlank = '[' :: rest ∧ lexemes cs = .opening :: lexemes rest) ∨
    (∃ rest, cs.dropWhile isBlank = ']' :: rest ∧ lexemes cs = .closing :: lexemes rest) ∨
    ∃ c rest, cs.dropWhile isBlank = c :: rest ∧ isWordChar c = true ∧
      lexemes cs
        = .word (c :: rest.takeWhile isWordChar) :: lexemes (rest.dropWhile isWordChar) := by
  rw [← lexemes_dropWhile_isBlank]
  rcases hcs : cs.dropWhile isBlank with _ | ⟨c, rest⟩
  · exact .inl ⟨rfl, lexemes_nil⟩
  have hblank : isBlank c = false := by
    have h := List.head?_dropWhile_not isBlank cs
    simpa [hcs] using h
  by_cases hopen : c = '['
  · subst hopen
    exact .inr (.inl ⟨rest, rfl, lexemes_opening rest⟩)
  by_cases hclose : c = ']'
  · subst hclose
    exact .inr (.inr (.inl ⟨rest, rfl, lexemes_closing rest⟩))
  have hc := isWordChar_iff.2 ⟨hblank, hopen, hclose⟩
  exact .inr (.inr (.inr ⟨c, rest, rfl, hc, lexemes_word hc rest⟩))

/-! ## Brackets -/

/-- The brackets of a lexeme. -/
def Lexeme.brackets : Lexeme → List Char
  | .opening => ['[']
  | .closing => [']']
  | .word _ => []

theorem Lexeme.Bracket.count_brackets {l : Lexeme} {b : Char} (h : l.Bracket b) (ls : List Lexeme) :
    (ls.flatMap Lexeme.brackets).count b = ls.count l := by
  have hone (k : Lexeme) : k.brackets.count b = if k == l then 1 else 0 := by
    cases h <;> cases k <;> rfl
  induction ls with
  | nil => rfl
  | cons k ls ih =>
    rw [List.flatMap_cons, List.count_append, ih, hone, List.count_cons, Nat.add_comm]

/-- Lexemes without brackets have as many that open as that close. -/
theorem count_opening_eq {ls : List Lexeme} (h : ls.flatMap Lexeme.brackets = []) :
    ls.count .opening = ls.count .closing := by
  rw [← Lexeme.Bracket.opening.count_brackets, ← Lexeme.Bracket.closing.count_brackets, h,
    List.count_nil, List.count_nil]

theorem filter_isBracket_takeWhile (cs : List Char) :
    (cs.takeWhile isWordChar).filter isBracket = [] := by
  refine List.filter_eq_nil_iff.2 fun c hc hbracket => ?_
  have hword := isWordChar_iff.1 (List.all_eq_true.1 List.all_takeWhile c hc)
  simp [isBracket, hword.2] at hbracket

/-- A text has the brackets of its lexemes. -/
theorem filter_isBracket (cs : List Char) :
    cs.filter isBracket = (lexemes cs).flatMap Lexeme.brackets := by
  induction cs using lexemes.induct with
  | case1 => rw [lexemes_nil, List.filter_nil, List.flatMap_nil]
  | case2 c cs hc ih =>
    have hbracket : ¬ isBracket c = true := by
      intro h
      rcases Bool.or_eq_true_iff.1 h with h | h <;> rw [beq_iff_eq.1 h] at hc <;>
        exact absurd hc (by decide)
    rw [lexemes_blank hc, List.filter_cons_of_neg hbracket, ih]
  | case3 cs _ ih =>
    rw [lexemes_opening, List.filter_cons_of_pos (by decide), List.flatMap_cons, ih]
    rfl
  | case4 cs _ _ ih =>
    rw [lexemes_closing, List.filter_cons_of_pos (by decide), List.flatMap_cons, ih]
    rfl
  | case5 c cs hblank hopen hclose ih =>
    have hc := isWordChar_iff.2 ⟨by simpa using hblank, hopen, hclose⟩
    have hbracket : ¬ isBracket c = true := by simp [isBracket, hopen, hclose]
    calc (c :: cs).filter isBracket
        = (cs.takeWhile isWordChar ++ cs.dropWhile isWordChar).filter isBracket := by
          rw [List.filter_cons_of_neg hbracket, List.takeWhile_append_dropWhile]
      _ = (lexemes (c :: cs)).flatMap Lexeme.brackets := by
          rw [List.filter_append, filter_isBracket_takeWhile, List.nil_append, ih, lexemes_word hc,
            List.flatMap_cons]
          rfl

theorem count_filter_isBracket {l : Lexeme} {b : Char} (h : l.Bracket b) (cs : List Char) :
    (cs.filter isBracket).count b = cs.count b :=
  List.count_filter (by cases h <;> decide)

/-- A text has as many bracket lexemes of a kind as it has brackets. -/
theorem count_lexemes {l : Lexeme} {b : Char} (h : l.Bracket b) (cs : List Char) :
    (lexemes cs).count l = cs.count b := by
  rw [← h.count_brackets, ← filter_isBracket, count_filter_isBracket h]

theorem count_takeWhile_isBlank {l : Lexeme} {b : Char} (h : l.Bracket b) (cs : List Char) :
    (cs.takeWhile isBlank).count b = 0 := by
  refine List.count_eq_zero.2 fun hb => ?_
  have hblank : isBlank b = true := List.all_eq_true.1 List.all_takeWhile b hb
  cases h <;> exact absurd hblank (by decide)

end SolidScene.Text
