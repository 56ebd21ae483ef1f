import SolidScene.Proofs.Text.Lexeme
import SolidScene.Proofs.Text.Place

/-!
# Lexemes at their places

The lexemes of a text with the places where they begin (`placed`). Only their places tell apart
texts that are cut into the same lexemes (`map_fst_placed`).
-/

namespace SolidScene.Text

open Position

/-- The lexemes of a text that begins at `p`, each with the place where it begins. -/
def placed (p : Position) : List Char → List (Lexeme × Position)
  | [] => []
  | c :: cs =>
    if isBlank c then placed (p.advance c) cs
    else if c = '[' then (.opening, p) :: placed (p.advance c) cs
    else if c = ']' then (.closing, p) :: placed (p.advance c) cs
    else (.word (c :: cs.takeWhile isWordChar), p) ::
      placed (p.past (c :: cs.takeWhile isWordChar)) (cs.dropWhile isWordChar)
termination_by cs => cs.length
decreasing_by
  all_goals simp only [List.length_cons]
  all_goals have := (List.dropWhile_suffix isWordChar (l := cs)).length_le
  all_goals omega

@[simp] theorem placed_nil (p : Position) : placed p [] = [] := by rw [placed]

theorem placed_blank {c : Char} (hc : isBlank c = true) (p : Position) (cs : List Char) :
    placed p (c :: cs) = placed (p.advance c) cs := by
  rw [placed, if_pos hc]

theorem placed_bracket {l : Lexeme} {b : Char} (hl : l.Bracket b) (p : Position) (cs : List Char) :
    placed p (b :: cs) = (l, p) :: placed (p.advance b) cs := by
  cases hl
  · rw [placed, if_neg (by decide), if_pos rfl]
  · rw [placed, if_neg (by decide), if_neg (by decide), if_pos rfl]

theorem placed_word {c : Char} (hc : isWordChar c = true) (p : Position) (cs : List Char) :
    placed p (c :: cs) = (.word (c :: cs.takeWhile isWordChar), p) ::
      placed (p.past (c :: cs.takeWhile isWordChar)) (cs.dropWhile isWordChar) := by
  obtain ⟨hblank, hopen, hclose⟩ := isWordChar_iff.1 hc
  rw [placed, if_neg (by simp [hblank]), if_neg hopen, if_neg hclose]

theorem map_fst_placed (p : Position) (cs : List Char) :
    (placed p cs).map Prod.fst = lexemes cs := by
  induction cs using lexemes.induct generalizing p with
  | case1 => rw [placed_nil, lexemes_nil, List.map_nil]
  | case2 c cs hc ih => rw [placed_blank hc, lexemes_blank hc, ih]
  | case3 cs _ ih => rw [placed_bracket .opening, lexemes_opening, List.map_cons, ih]
  | case4 cs _ _ ih => rw [placed_bracket .closing, lexemes_closing, List.map_cons, ih]
  | case5 c cs hblank hopen hclose ih =>
    have hc := isWordChar_iff.2 ⟨by simpa using hblank, hopen, hclose⟩
    rw [placed_word hc, lexemes_word hc, List.map_cons, ih]

theorem placed_dropWhile_isBlank (p : Position) (cs : List Char) :
    placed (p.past (cs.takeWhile isBlank)) (cs.dropWhile isBlank) = placed p cs := by
  induction cs generalizing p with
  | nil => rfl
  | cons c cs ih =>
    by_cases hc : isBlank c = true
    · rw [List.takeWhile_cons_of_pos hc, List.dropWhile_cons_of_pos hc, past_cons, ih,
        placed_blank hc]
    · rw [List.takeWhile_cons_of_neg hc, List.dropWhile_cons_of_neg hc, past_nil]

/-- What a text begins with behind its blanks. -/
theorem placed_cases (p : Position) (cs : List Char) :
    let q := p.past (cs.takeWhile isBlank)
    (cs.dropWhile isBlank = [] ∧ placed p cs = []) ∨
    (∃ l b rest, Lexeme.Bracket l b ∧ cs.dropWhile isBlank = b :: rest ∧
      placed p cs = (l, q) :: placed (q.advance b) rest) ∨
    ∃ c rest, isWordChar c = true ∧ cs.dropWhile isBlank = c :: rest ∧
      placed p cs = (.word (c :: rest.takeWhile isWordChar), q) ::
        placed (q.past (c :: rest.takeWhile isWordChar)) (rest.dropWhile isWordChar) := by
  intro q
  rw [← placed_dropWhile_isBlank]
  rcases lexemes_cases cs with ⟨hcs, -⟩ | ⟨rest, hcs, -⟩ | ⟨rest, hcs, -⟩ |
    ⟨c, rest, hcs, hc, -⟩ <;> rw [hcs]
  · exact .inl ⟨rfl, placed_nil q⟩
  · exact .inr (.inl ⟨_, _, rest, .opening, rfl, placed_bracket .opening q rest⟩)
  · exact .inr (.inl ⟨_, _, rest, .closing, rfl, placed_bracket .closing q rest⟩)
  · exact .inr (.inr ⟨c, rest, hc, rfl, placed_word hc q rest⟩)

/-- A lexeme as it is written. -/
def Lexeme.chars : Lexeme → List Char
  | opening => ['[']
  | closing => [']']
  | word w => w

theorem Lexeme.Bracket.chars_eq {l : Lexeme} {b : Char} (h : l.Bracket b) : l.chars = [b] := by
  cases h <;> rfl

/-! ## What comes next -/

/-- The first character of some lexemes. -/
def next (ps : List (Lexeme × Position)) : Option Char := ps.head?.bind fun (l, _) => l.chars.head?

/-- The place where some lexemes begin, in a text that ends at `e`. -/
def placeOf (e : Position) (ps : List (Lexeme × Position)) : Position := (ps.map Prod.snd).headD e

/-- What is left of some lexemes behind their first character. -/
def behindChar : List (Lexeme × Position) → List (Lexeme × Position)
  | (.word (c :: d :: w), p) :: ps => (.word (d :: w), p.advance c) :: ps
  | ps => ps.tail

@[simp] theorem next_cons (l : Lexeme) (p : Position) (ps : List (Lexeme × Position)) :
    next ((l, p) :: ps) = l.chars.head? := rfl

@[simp] theorem placeOf_nil (e : Position) : placeOf e [] = e := rfl

@[simp] theorem placeOf_cons (e : Position) (l : Lexeme) (p : Position)
    (ps : List (Lexeme × Position)) : placeOf e ((l, p) :: ps) = p := rfl

theorem Lexeme.Bracket.behindChar_cons {l : Lexeme} {b : Char} (h : l.Bracket b) (p : Position)
    (ps : List (Lexeme × Position)) : behindChar ((l, p) :: ps) = ps := by
  cases h <;> rfl

theorem behindChar_word {c : Char} (hc : isWordChar c = true) (p : Position) (cs : List Char) :
    behindChar (placed p (c :: cs)) = placed (p.advance c) cs := by
  rw [placed_word hc, past_cons]
  rcases cs with _ | ⟨d, cs⟩
  · simp [behindChar]
  · by_cases hd : isWordChar d = true
    · rw [List.takeWhile_cons_of_pos hd, List.dropWhile_cons_of_pos hd, behindChar, placed_word hd]
    · rw [List.takeWhile_cons_of_neg hd, List.dropWhile_cons_of_neg hd, past_nil, behindChar,
        List.tail_cons]
      simp

section Placed

variable (p : Position) (cs : List Char)

theorem next_placed : next (placed p cs) = (cs.dropWhile isBlank).head? := by
  rcases placed_cases p cs with ⟨hcs, hps⟩ | ⟨l, b, rest, hl, hcs, hps⟩ |
    ⟨c, rest, hc, hcs, hps⟩ <;> rw [hcs, hps]
  · rfl
  · rw [next_cons, hl.chars_eq, List.head?_cons, List.head?_cons]
  · rfl

theorem placeOf_placed :
    placeOf (p.past cs) (placed p cs) = p.past (cs.takeWhile isBlank) := by
  rcases placed_cases p cs with ⟨hcs, hps⟩ | ⟨l, b, rest, hl, hcs, hps⟩ |
    ⟨c, rest, hc, hcs, hps⟩ <;> rw [hps]
  · have hblank : cs.takeWhile isBlank ++ cs.dropWhile isBlank = cs :=
      List.takeWhile_append_dropWhile
    rw [hcs, List.append_nil] at hblank
    rw [placeOf_nil, hblank]
  · rw [placeOf_cons]
  · rw [placeOf_cons]

theorem behindChar_placed : behindChar (placed p cs) =
    placed ((p.past (cs.takeWhile isBlank)).past (cs.dropWhile isBlank).head?.toList)
      (cs.dropWhile isBlank).tail := by
  rw [← placed_dropWhile_isBlank]
  rcases lexemes_cases cs with ⟨hcs, -⟩ | ⟨rest, hcs, -⟩ | ⟨rest, hcs, -⟩ |
    ⟨c, rest, hcs, hc, -⟩ <;> rw [hcs]
  · simp [behindChar]
  · rw [placed_bracket .opening]
    rfl
  · rw [placed_bracket .closing]
    rfl
  · exact behindChar_word hc _ rest

/-- A bracket that comes next is a lexeme. -/
theorem exists_of_next_placed {l : Lexeme} {b : Char} (hl : l.Bracket b)
    (h : next (placed p cs) = some b) : ∃ q ps, placed p cs = (l, q) :: ps := by
  have hb : isWordChar b = false := by
    cases hl <;> decide
  rcases placed_cases p cs with ⟨hcs, hps⟩ | ⟨l', b', rest, hl', hcs, hps⟩ |
    ⟨c, rest, hc, hcs, hps⟩ <;> rw [hps] at h ⊢
  · cases h
  · rw [next_cons, hl'.chars_eq, List.head?_cons, Option.some.injEq] at h
    subst h
    cases hl <;> cases hl' <;> exact ⟨_, _, rfl⟩
  · rw [next_cons, Lexeme.chars, List.head?_cons, Option.some.injEq] at h
    subst h
    exact absurd hc (by simp [hb])

end Placed

end SolidScene.Text
