import Mathlib.Data.List.DropRight
import SolidScene.Text.Position

/-!
# Places in a text

The place behind some characters. Every character moves it on (`precedes_advance`), so a place
determines what stands before it in a text (`before_append`). The place behind a text is known from
its lines and the length of the last of them (`past_start`).
-/

namespace SolidScene.Text

namespace Position

/-- The place behind these characters. -/
def past (p : Position) (cs : List Char) : Position := cs.foldl advance p

@[simp] theorem past_nil (p : Position) : p.past [] = p := rfl

@[simp] theorem past_cons (p : Position) (c : Char) (cs : List Char) :
    p.past (c :: cs) = (p.advance c).past cs := rfl

theorem past_append (p : Position) (cs ds : List Char) :
    p.past (cs ++ ds) = (p.past cs).past ds := List.foldl_append

/-- Whether one place comes before another. -/
def Precedes (p q : Position) : Prop := p.line < q.line ∨ p.line = q.line ∧ p.column < q.column

theorem precedes_advance (p : Position) (c : Char) : p.Precedes (p.advance c) := by
  unfold advance
  split
  · exact .inl (Nat.lt_succ_self _)
  · exact .inr ⟨rfl, Nat.lt_succ_self _⟩

theorem Precedes.trans {p q r : Position} (h : p.Precedes q) (h' : q.Precedes r) :
    p.Precedes r := by
  unfold Precedes at *
  omega

theorem precedes_past {cs : List Char} (hne : cs ≠ []) (p : Position) : p.Precedes (p.past cs) := by
  induction cs generalizing p with
  | nil => exact absurd rfl hne
  | cons c cs ih =>
    rw [past_cons]
    by_cases h : cs = []
    · subst h
      exact precedes_advance p c
    · exact (precedes_advance p c).trans (ih h _)

theorem Precedes.ne {p q : Position} (h : p.Precedes q) : p ≠ q := by
  rintro rfl
  unfold Precedes at h
  omega

/-- A place of a text that stands behind a place itself: it is on the line of that one as long as
the text is on its first line. -/
def behind (base p : Position) : Position :=
  ⟨base.line + p.line - 1, if p.line = 1 then base.column + p.column - 1 else p.column⟩

theorem behind_advance (base : Position) {p : Position} (hline : 1 ≤ p.line)
    (hcolumn : 1 ≤ p.column) (c : Char) :
    (base.behind p).advance c = base.behind (p.advance c) := by
  by_cases hc : c = '\n'
  · have hnext : p.line + 1 ≠ 1 := by omega
    simp only [advance, behind, if_pos hc, if_neg hnext, mk.injEq, and_true]
    omega
  · simp only [advance, behind, if_neg hc, mk.injEq, true_and]
    split_ifs
    · omega
    · rfl

theorem behind_past (base : Position) {p : Position} (hline : 1 ≤ p.line) (hcolumn : 1 ≤ p.column)
    (cs : List Char) : (base.behind p).past cs = base.behind (p.past cs) := by
  induction cs generalizing p with
  | nil => rfl
  | cons c cs ih =>
    have hnext : 1 ≤ (p.advance c).line ∧ 1 ≤ (p.advance c).column := by
      unfold advance
      split_ifs <;> exact ⟨by simp [hline], by simp⟩
    rw [past_cons, past_cons, behind_advance base hline hcolumn, ih hnext.1 hnext.2]

theorem past_eq_behind (base : Position) (cs : List Char) :
    base.past cs = base.behind (start.past cs) := by
  have hstart : base.behind start = base := rfl
  rw [← behind_past base (Nat.le_refl 1) (Nat.le_refl 1), hstart]

theorem not_past_append_precedes (p : Position) (cs ds : List Char) :
    ¬ (p.past (cs ++ ds)).Precedes (p.past cs) := by
  rw [past_append]
  intro h
  by_cases hne : ds = []
  · subst hne
    exact h.ne rfl
  · exact (h.trans (precedes_past hne _)).ne rfl

end Position

open Position

/-- The place behind a text: the lines before it, and the characters in its last line. -/
def endOf (cs : List Char) : Position :=
  ⟨1 + cs.count '\n', 1 + (cs.rtakeWhile (· ≠ '\n')).length⟩

theorem past_start (cs : List Char) : Position.start.past cs = endOf cs := by
  induction cs using List.reverseRecOn with
  | nil => rfl
  | append_singleton cs c ih =>
    rw [past_append, ih, past_cons, past_nil, endOf, endOf, List.count_append]
    by_cases hc : c = '\n'
    · subst hc
      rw [List.rtakeWhile_concat_neg _ _ _ (by simp)]
      rfl
    · rw [List.rtakeWhile_concat_pos _ _ _ (by simpa using hc), List.count_singleton,
        List.length_append, advance, if_neg hc, if_neg (by simpa using hc)]
      rfl

/-- The characters of a text up to a place, where the text begins at `p`. -/
def beforeFrom (p place : Position) : List Char → List Char
  | [] => []
  | c :: cs => if p = place then [] else c :: beforeFrom (p.advance c) place cs

/-- The characters of a text before a place. -/
def before (place : Position) (cs : List Char) : List Char := beforeFrom .start place cs

theorem beforeFrom_append (p : Position) (cs ds : List Char) :
    beforeFrom p (p.past cs) (cs ++ ds) = cs := by
  induction cs generalizing p with
  | nil => cases ds <;> simp [beforeFrom]
  | cons c cs ih =>
    have hne := (precedes_past (List.cons_ne_nil c cs) p).ne
    rw [List.cons_append, beforeFrom, if_neg hne, past_cons, ih]

/-- What stands before the place behind some characters is those characters. -/
theorem before_append (cs ds : List Char) : before (Position.start.past cs) (cs ++ ds) = cs :=
  beforeFrom_append .start cs ds

end SolidScene.Text
