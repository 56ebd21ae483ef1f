import Mathlib.Data.List.DropRight
import SolidScene.Proofs.Text.Lexeme

/-!
# Borders between lexemes

Two texts one behind the other have the lexemes of the one and then those of the other exactly where
no word goes on from the one into the other (`Apart.lexemes_append`, `apart_of_lexemes_append`).
-/

namespace SolidScene.Text

variable {u v w : List Char} {ls : List Lexeme}

/-- No word crosses from the first text into the second. -/
def Apart (u v : List Char) : Prop :=
  ∀ c ∈ u.getLast?, ∀ d ∈ v.head?, isWordChar c = true → isWordChar d = false

theorem Apart.of_cons {c : Char} (h : Apart (c :: u) v) : Apart u v := by
  rcases u with _ | ⟨d, u⟩
  · simp [Apart]
  · rwa [Apart, List.getLast?_cons_cons] at h

theorem Apart.of_append (h : Apart (w ++ u) v) : Apart u v := by
  induction w with
  | nil => exact h
  | cons c w ih => exact ih h.of_cons

theorem Apart.left (h : Apart u (v ++ w)) : Apart u v := by
  rcases v with _ | ⟨d, v⟩
  · simp [Apart]
  · exact h

theorem apart_blank {c : Char} (hc : isBlank c = true) (u v : List Char) : Apart u (c :: v) := by
  rintro _ - _ ⟨⟩ -
  simp [isWordChar, hc]

theorem Spells.lexemes_append (h : Spells u ls) (hv : Apart u v) :
    lexemes (u ++ v) = ls ++ lexemes v := by
  induction h with
  | nil => rfl
  | blank hc _ ih => rw [List.cons_append, lexemes_blank hc, ih hv.of_cons]
  | bracket hl _ ih => cases hl <;> simp [ih hv.of_cons]
  | @word w cs ls hne hw hend _ ih =>
    have hrest : ∀ c ∈ (cs ++ v).head?, isWordChar c = false := by
      rcases cs with _ | ⟨c, cs⟩
      · rw [List.append_nil] at hv
        exact fun d hd => hv _ (List.getLast?_eq_some_getLast hne) d hd
          (hw _ (List.getLast_mem hne))
      · exact hend
    rw [List.append_assoc, Text.lexemes_append hne hw hrest, ih hv.of_append, List.cons_append]

theorem Apart.lexemes_append (h : Apart u v) : lexemes (u ++ v) = lexemes u ++ lexemes v :=
  (spells_lexemes u).lexemes_append h

theorem lexemes_blanks_append (h : ∀ c ∈ u, isBlank c = true) (v : List Char) :
    lexemes (u ++ v) = lexemes v := by
  rw [← lexemes_dropWhile_isBlank, List.dropWhile_append_of_pos h, lexemes_dropWhile_isBlank]

theorem lexemes_blanks (h : ∀ c ∈ u, isBlank c = true) : lexemes u = [] := by
  rw [← List.append_nil u, lexemes_blanks_append h, lexemes_nil]

theorem lexemes_takeWhile_isBlank (cs : List Char) : lexemes (cs.takeWhile isBlank) = [] :=
  lexemes_blanks (List.all_eq_true.1 List.all_takeWhile)

theorem lexemes_append_space (u v : List Char) :
    lexemes (u ++ ' ' :: v) = lexemes u ++ lexemes v := by
  rw [(apart_blank (by decide) u v).lexemes_append, lexemes_space]

theorem lexemes_append_of_run {run : List Char} (hrun : ∀ c ∈ run, isWordChar c = true)
    (hv : v.takeWhile isWordChar ≠ []) : lexemes (run ++ v) =
      .word (run ++ v.takeWhile isWordChar) :: lexemes (v.dropWhile isWordChar) := by
  have htake : (run ++ v).takeWhile isWordChar = run ++ v.takeWhile isWordChar :=
    List.takeWhile_append_of_pos hrun
  have hdrop : (run ++ v).dropWhile isWordChar = v.dropWhile isWordChar :=
    List.dropWhile_append_of_pos hrun
  rw [lexemes_takeWhile (by simp [htake, hv]), htake, hdrop]

/-- Where a word crosses, the second text does not keep its own first word. -/
theorem apart_of_lexemes_append {used : List Lexeme} (h : lexemes (u ++ v) = used ++ lexemes v) :
    Apart u v := by
  rintro c hc d hd hword
  by_contra hcross
  have hv : v.takeWhile isWordChar ≠ [] := by
    obtain ⟨v', rfl⟩ := List.head?_eq_some_iff.1 hd
    simp [hcross]
  -- the word that crosses begins with the run of word characters at the end of the first text
  have hrun : ∀ c ∈ u.rtakeWhile isWordChar, isWordChar c = true := fun _ =>
    List.mem_rtakeWhile_imp
  have hborder : Apart (u.rdropWhile isWordChar) (u.rtakeWhile isWordChar ++ v) := by
    rintro c hc _ - hword
    have hne : u.rdropWhile isWordChar ≠ [] := by
      rintro hnil
      simp [hnil] at hc
    have hlast := List.rdropWhile_last_not isWordChar u hne
    rw [List.getLast?_eq_some_getLast hne] at hc
    cases hc
    exact absurd hword hlast
  have hu : u.rdropWhile isWordChar ++ u.rtakeWhile isWordChar = u :=
    List.rdropWhile_append_rtakeWhile
  rw [← hu, List.append_assoc, hborder.lexemes_append, lexemes_append_of_run hrun hv,
    lexemes_takeWhile hv, List.append_cons, List.append_cons used] at h
  obtain ⟨-, hsame⟩ := List.append_inj' (List.append_cancel_right h) rfl
  have hnil : u.rtakeWhile isWordChar = [] := by simpa using hsame
  obtain ⟨u', rfl⟩ := List.getLast?_eq_some_iff.1 hc
  rw [List.rtakeWhile_concat_pos _ _ _ hword] at hnil
  simp at hnil

end SolidScene.Text
