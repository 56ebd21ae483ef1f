import SolidScene.Proofs.Text.Border
import SolidScene.Proofs.Text.Placed

/-!
# How a text is cut

The lexemes of a text hold all its characters but the blanks, in order, and they are what stands
whole in it: every bracket, and every word between what are no word characters (`cut_placed`).
Without brackets they are the pieces between blanks (`map_chars_lexemes`).
-/

namespace SolidScene.Text

open Position

/-- The lexeme is a bracket, or a run of word characters that goes on at neither end. -/
def Lexeme.Whole (before after : List Char) : Lexeme → Prop
  | opening | closing => True
  | word w => w ≠ [] ∧ (∀ c ∈ w, isWordChar c = true) ∧
    (∀ c ∈ before.getLast?, isWordChar c = false) ∧ ∀ c ∈ after.head?, isWordChar c = false

/-- In a text that begins at `p`, the lexeme stands whole at the place `q`. -/
def StandsAt (p : Position) (cs : List Char) (l : Lexeme) (q : Position) : Prop :=
  ∃ before after, cs = before ++ l.chars ++ after ∧ q = p.past before ∧ l.Whole before after

/-- These lexemes are all that a text is cut into, each at its place. -/
structure CutInto (p : Position) (cs : List Char) (ps : List (Lexeme × Position)) : Prop where
  /-- All blanks are dropped and nothing else. -/
  chars : ps.flatMap (fun (l, _) => l.chars) = cs.filter fun c => !isBlank c
  mem_iff : ∀ l q, (l, q) ∈ ps ↔ StandsAt p cs l q
  increasing : ps.Pairwise fun a b => a.2.Precedes b.2

/-! ## Where lexemes stand -/

theorem StandsAt.behind {p q : Position} {u v : List Char} {l : Lexeme}
    (h : StandsAt (p.past u) v l q) (hborder : Apart u v) : StandsAt p (u ++ v) l q := by
  obtain ⟨before, after, rfl, rfl, hwhole⟩ := h
  refine ⟨u ++ before, after, by simp only [List.append_assoc], (past_append p u before).symm, ?_⟩
  cases l with
  | opening | closing => trivial
  | word w =>
    obtain ⟨hne, hw, hbefore, hafter⟩ := hwhole
    refine ⟨hne, hw, fun c hc => ?_, hafter⟩
    by_cases hnil : before = []
    · -- the word begins where the first text ends
      subst hnil
      obtain ⟨d, w, rfl⟩ := List.exists_cons_of_ne_nil hne
      rw [List.append_nil] at hc
      by_contra hword
      have hd := hborder c hc d (by simp [Lexeme.chars]) (by simpa using hword)
      simp [hw d List.mem_cons_self] at hd
    · rw [List.getLast?_append_of_ne_nil _ hnil] at hc
      exact hbefore c hc

theorem stands_of_mem_placed {p q : Position} {cs : List Char} {l : Lexeme}
    (h : (l, q) ∈ placed p cs) : StandsAt p cs l q := by
  induction cs using lexemes.induct generalizing p with
  | case1 => simp at h
  | case2 c cs hc ih =>
    rw [placed_blank hc] at h
    exact (ih h).behind (u := [c]) (by simp [Apart, isWordChar, hc])
  | case3 cs _ ih =>
    rw [placed_bracket .opening, List.mem_cons] at h
    rcases h with h | h
    · obtain ⟨rfl, rfl⟩ := Prod.mk.inj h
      exact ⟨[], cs, rfl, rfl, trivial⟩
    · exact (ih h).behind (u := ['[']) (by simp [Apart, isWordChar, isBracket])
  | case4 cs _ _ ih =>
    rw [placed_bracket .closing, List.mem_cons] at h
    rcases h with h | h
    · obtain ⟨rfl, rfl⟩ := Prod.mk.inj h
      exact ⟨[], cs, rfl, rfl, trivial⟩
    · exact (ih h).behind (u := [']']) (by simp [Apart, isWordChar, isBracket])
  | case5 c cs hblank hopen hclose ih =>
    have hc := isWordChar_iff.2 ⟨by simpa using hblank, hopen, hclose⟩
    have hstop := head?_dropWhile_isWordChar cs
    have hcs : c :: cs = (c :: cs.takeWhile isWordChar) ++ cs.dropWhile isWordChar := by
      rw [List.cons_append, List.takeWhile_append_dropWhile]
    rw [placed_word hc, List.mem_cons] at h
    rcases h with h | h
    · obtain ⟨rfl, rfl⟩ := Prod.mk.inj h
      refine ⟨[], _, hcs, rfl, List.cons_ne_nil _ _, ?_, by simp, hstop⟩
      exact List.forall_mem_cons.2 ⟨hc, List.all_eq_true.1 List.all_takeWhile⟩
    · rw [hcs]
      exact (ih h).behind fun _ _ d hd _ => hstop d hd

theorem Apart.dropWhile_append {u v : List Char} (h : Apart u v) (hne : u ≠ []) :
    (u ++ v).dropWhile isWordChar = u.dropWhile isWordChar ++ v := by
  rw [List.dropWhile_append]
  split_ifs with hnil
  · -- the first text is a run of word characters, so the second begins with none
    rw [List.isEmpty_iff, List.dropWhile_eq_nil_iff] at hnil
    have hlast := h _ (List.getLast?_eq_some_getLast hne)
    rw [List.dropWhile_eq_nil_iff.2 hnil, List.nil_append]
    cases v with
    | nil => rfl
    | cons d v =>
      have hd := hlast d rfl (hnil _ (List.getLast_mem hne))
      exact List.dropWhile_cons_of_neg (by simp [hd])
  · rfl

theorem Apart.placed_append {u v : List Char} (h : Apart u v) (p : Position) :
    placed p (u ++ v) = placed p u ++ placed (p.past u) v := by
  induction u using lexemes.induct generalizing p with
  | case1 => simp
  | case2 c cs hc ih =>
    rw [List.cons_append, placed_blank hc, placed_blank hc, ih h.of_cons, past_cons]
  | case3 cs _ ih =>
    rw [List.cons_append, placed_bracket .opening, placed_bracket .opening, ih h.of_cons, past_cons,
      List.cons_append]
  | case4 cs _ _ ih =>
    rw [List.cons_append, placed_bracket .closing, placed_bracket .closing, ih h.of_cons, past_cons,
      List.cons_append]
  | case5 c cs hblank hopen hclose ih =>
    have hc := isWordChar_iff.2 ⟨by simpa using hblank, hopen, hclose⟩
    have hdrop : (cs ++ v).dropWhile isWordChar = cs.dropWhile isWordChar ++ v := by
      simpa [hc] using h.dropWhile_append (List.cons_ne_nil c cs)
    have htake : (cs ++ v).takeWhile isWordChar = cs.takeWhile isWordChar := by
      have hwhole : (cs ++ v).takeWhile isWordChar ++ (cs.dropWhile isWordChar ++ v)
          = cs.takeWhile isWordChar ++ (cs.dropWhile isWordChar ++ v) := by
        rw [← hdrop, List.takeWhile_append_dropWhile, hdrop, ← List.append_assoc,
          List.takeWhile_append_dropWhile]
      exact List.append_cancel_right hwhole
    have hcs : c :: cs = (c :: cs.takeWhile isWordChar) ++ cs.dropWhile isWordChar := by
      rw [List.cons_append, List.takeWhile_append_dropWhile]
    have hrest : Apart (cs.dropWhile isWordChar) v := by
      rw [hcs] at h
      exact h.of_append
    rw [List.cons_append, placed_word hc, placed_word hc, htake, hdrop, ih hrest, List.cons_append,
      ← past_append, ← hcs]

theorem Lexeme.Whole.apart {before after : List Char} {l : Lexeme} (h : l.Whole before after) :
    Apart before (l.chars ++ after) ∧ Apart l.chars after := by
  cases l with
  | opening | closing => exact ⟨by simp [Apart, chars, isWordChar, isBracket],
      by simp [Apart, chars, isWordChar, isBracket]⟩
  | word w =>
    obtain ⟨-, -, hbefore, hafter⟩ := h
    refine ⟨fun c hc _ _ hword => ?_, fun _ _ d hd _ => hafter d hd⟩
    simp [hbefore c hc] at hword

theorem Lexeme.Whole.placed_chars {before after : List Char} {l : Lexeme} (h : l.Whole before after)
    (p : Position) : placed p l.chars = [(l, p)] := by
  cases l with
  | opening => exact (placed_bracket .opening p []).trans (by rw [placed_nil])
  | closing => exact (placed_bracket .closing p []).trans (by rw [placed_nil])
  | word w =>
    obtain ⟨hne, hw, -⟩ := h
    obtain ⟨c, w, rfl⟩ := List.exists_cons_of_ne_nil hne
    obtain ⟨hc, hcs⟩ := List.forall_mem_cons.1 hw
    rw [chars, placed_word hc, List.takeWhile_eq_self_iff.2 hcs, List.dropWhile_eq_nil_iff.2 hcs,
      placed_nil]

/-- What stands whole in a text is one of its lexemes. -/
theorem StandsAt.mem_placed {p q : Position} {cs : List Char} {l : Lexeme}
    (h : StandsAt p cs l q) : (l, q) ∈ placed p cs := by
  obtain ⟨before, after, rfl, rfl, hwhole⟩ := h
  obtain ⟨hbefore, hafter⟩ := hwhole.apart
  rw [List.append_assoc, hbefore.placed_append, hafter.placed_append, hwhole.placed_chars]
  simp

theorem precedes_of_mem_placed {p q : Position} {u v : List Char} (hu : u ≠ []) {l : Lexeme}
    (h : (l, q) ∈ placed (p.past u) v) : p.Precedes q := by
  obtain ⟨before, _, _, rfl, _⟩ := stands_of_mem_placed h
  rw [← past_append]
  exact precedes_past (List.append_ne_nil_of_left_ne_nil hu before) p

theorem increasing_placed (p : Position) (cs : List Char) :
    (placed p cs).Pairwise fun a b => a.2.Precedes b.2 := by
  induction cs using lexemes.induct generalizing p with
  | case1 => simp
  | case2 c cs hc ih =>
    rw [placed_blank hc]
    exact ih _
  | case3 cs _ ih =>
    rw [placed_bracket .opening]
    exact .cons (fun _ h => precedes_of_mem_placed (u := ['[']) (by simp) h) (ih _)
  | case4 cs _ _ ih =>
    rw [placed_bracket .closing]
    exact .cons (fun _ h => precedes_of_mem_placed (u := [']']) (by simp) h) (ih _)
  | case5 c cs hblank hopen hclose ih =>
    rw [placed_word (isWordChar_iff.2 ⟨by simpa using hblank, hopen, hclose⟩)]
    exact .cons (fun _ h => precedes_of_mem_placed (by simp) h) (ih _)

/-! ## What lexemes hold -/

theorem filter_takeWhile_isWordChar (cs : List Char) :
    (cs.takeWhile isWordChar).filter (fun c => !isBlank c) = cs.takeWhile isWordChar := by
  refine List.filter_eq_self.2 fun c hc => ?_
  have hword := isWordChar_iff.1 (List.all_eq_true.1 List.all_takeWhile c hc)
  simp [hword.1]

/-- The lexemes of a text hold its characters but for the blanks. -/
theorem flatMap_chars_lexemes (cs : List Char) :
    (lexemes cs).flatMap Lexeme.chars = cs.filter fun c => !isBlank c := by
  induction cs using lexemes.induct with
  | case1 => simp
  | case2 c cs hc ih => rw [lexemes_blank hc, ih, List.filter_cons_of_neg (by simp [hc])]
  | case3 cs _ ih =>
    rw [lexemes_opening, List.flatMap_cons, ih, List.filter_cons_of_pos (by decide)]
    rfl
  | case4 cs _ _ ih =>
    rw [lexemes_closing, List.flatMap_cons, ih, List.filter_cons_of_pos (by decide)]
    rfl
  | case5 c cs hblank hopen hclose ih =>
    have hc := isWordChar_iff.2 ⟨by simpa using hblank, hopen, hclose⟩
    calc (lexemes (c :: cs)).flatMap Lexeme.chars
        = c :: (cs.takeWhile isWordChar ++
            (cs.dropWhile isWordChar).filter fun c => !isBlank c) := by
          rw [lexemes_word hc, List.flatMap_cons, ih]
          rfl
      _ = c :: (cs.takeWhile isWordChar ++ cs.dropWhile isWordChar).filter fun c => !isBlank c := by
          rw [List.filter_append, filter_takeWhile_isWordChar]
      _ = (c :: cs).filter fun c => !isBlank c := by
          rw [List.takeWhile_append_dropWhile, List.filter_cons_of_pos (by simpa using hblank)]

theorem cut_placed (p : Position) (cs : List Char) : CutInto p cs (placed p cs) where
  chars := by
    rw [← flatMap_chars_lexemes, ← map_fst_placed p, List.flatMap_map]
  mem_iff _ _ := ⟨stands_of_mem_placed, StandsAt.mem_placed⟩
  increasing := increasing_placed p cs

/-! ## Texts without brackets -/

/-- What stands between the blanks of a text. -/
def pieces (cs : List Char) : List (List Char) := (cs.splitOnP isBlank).filter (· ≠ [])

theorem pieces_blank {c : Char} (hc : isBlank c = true) (cs : List Char) :
    pieces (c :: cs) = pieces cs := by
  simp [pieces, List.splitOnP_cons_eq_if_modifyHead, hc]

theorem pieces_append {w rest : List Char} (hne : w ≠ []) (hw : ∀ c ∈ w, isBlank c = false)
    (hrest : ∀ c ∈ rest.head?, isBlank c = true) : pieces (w ++ rest) = w :: pieces rest := by
  cases rest with
  | nil => simp [pieces, List.splitOnP_eq_singleton hw, hne]
  | cons c rest =>
    have hc := hrest c rfl
    simp [pieces, List.splitOnP_append_cons _ _ hc, List.splitOnP_eq_singleton hw, hne,
      List.splitOnP_cons_eq_if_modifyHead, hc]

/-- Without brackets, the lexemes of a text are its pieces between blanks. -/
theorem map_chars_lexemes {cs : List Char} (h : ∀ c ∈ cs, isBracket c = false) :
    (lexemes cs).map Lexeme.chars = pieces cs := by
  induction cs using lexemes.induct with
  | case1 => simp [pieces]
  | case2 c cs hc ih =>
    rw [lexemes_blank hc, pieces_blank hc, ih fun d hd => h d (List.mem_cons_of_mem c hd)]
  | case3 | case4 => exact absurd (h _ List.mem_cons_self) (by decide)
  | case5 c cs hblank hopen hclose ih =>
    have hc := isWordChar_iff.2 ⟨by simpa using hblank, hopen, hclose⟩
    have hrun : ∀ d ∈ c :: cs.takeWhile isWordChar, isBlank d = false := by
      refine List.forall_mem_cons.2 ⟨by simpa using hblank, fun d hd => ?_⟩
      exact (isWordChar_iff.1 (List.all_eq_true.1 List.all_takeWhile d hd)).1
    have hdrop : ∀ d ∈ cs.dropWhile isWordChar, d ∈ c :: cs := fun d hd =>
      List.mem_cons_of_mem c ((List.dropWhile_suffix isWordChar).subset hd)
    have hrest : ∀ d ∈ (cs.dropWhile isWordChar).head?, isBlank d = true := by
      intro d hd
      have hword := head?_dropWhile_isWordChar cs d hd
      have hbracket := h d (hdrop d (List.mem_of_mem_head? hd))
      simpa [isWordChar, hbracket] using hword
    have happend := pieces_append (List.cons_ne_nil _ _) hrun hrest
    rw [List.cons_append, List.takeWhile_append_dropWhile] at happend
    rw [happend, lexemes_word hc, List.map_cons, ih fun d hd => h d (hdrop d hd)]
    rfl

end SolidScene.Text
