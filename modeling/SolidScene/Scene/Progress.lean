import SolidScene.Scene.Stepwise

/-!
# Reading makes progress

No action gives back what it has taken from the source (`NeverGrows`), and an expression that is
read takes at least its opening bracket (`construct_progresses`). So a sequence of expressions is
read to its end.
-/

namespace SolidScene

open Source (Event)
open Text (Position)

/-- How much the reader is still to come to. -/
def Reader.remaining (r : Reader) : Nat := r.upcoming.length

namespace Read

variable {α β : Type}

/-- Whatever its outcome, the action leaves no more to come than it found. -/
def NeverGrows (x : Read α) : Prop := ∀ r, (x r).2.remaining ≤ r.remaining

/-- Where the action has a result, it leaves less to come than it found. -/
def Progresses (x : Read α) : Prop := ∀ r a r', x r = (.ok a, r') → r'.remaining < r.remaining

/-! ## Actions never grow -/

theorem peek_remaining (r : Reader) : (peek r).2.remaining ≤ r.remaining := by
  unfold peek
  split <;> rename_i h <;> simp only [Reader.remaining, h] <;> simp only [Reader.upcoming] at h ⊢
  · simp
  · simp
  · cases hl : r.lookahead <;> simp [hl] at h ⊢
  · cases hl : r.lookahead <;> simp [hl] at h ⊢

theorem pass_remaining (r : Reader) (c : Char) : (r.pass c).remaining ≤ r.remaining := by
  simp [Reader.pass, Reader.remaining, Reader.upcoming]

theorem runOf_remaining (p : Char → Bool) (start : Position) :
    ∀ (events : List Event) (at_ : Position),
      (runOf p start events at_).2.remaining ≤ events.length
  | [], _ => by simp [runOf, Reader.remaining, Reader.upcoming]
  | .char c :: rest, at_ => by
    have := runOf_remaining p start rest (at_.advance c)
    unfold runOf
    split
    · simp only [List.length_cons]; omega
    · simp [Reader.remaining, Reader.upcoming]
  | .failure _ :: rest, _ => by simp [runOf, Reader.remaining, Reader.upcoming]
  | .pause :: rest, _ => by simp [runOf, Reader.remaining, Reader.upcoming]

theorem Stepwise.neverGrows {x : Read α} (h : Stepwise (fun _ => True) x) : NeverGrows x := by
  induction h with
  | pure | reject | position | tokenStart | mark | tooDeep => exact fun _ => Nat.le_refl _
  | bind _ _ ihx ihf =>
    intro r
    have hx := ihx r
    rw [bind_apply]
    split
    · rename_i a r' he
      rw [he] at hx
      exact Nat.le_trans (ihf a r') hx
    · rename_i e r' he
      rw [he] at hx
      exact hx
  | withFault _ _ ih =>
    intro r
    have hx := ih r
    unfold Read.withFault
    split
    · rename_i he
      rw [he] at hx
      exact hx
    · exact hx
  | peek => exact peek_remaining
  | bump =>
    intro r
    have h := peek_remaining r
    unfold Read.bump
    split
    · rename_i c r' he
      rw [he] at h
      exact Nat.le_trans (pass_remaining r' c) h
    · exact h
  | takeWhile p => exact fun r => runOf_remaining p r.tokenStart r.upcoming r.position

/-! ## Expressions progress -/

theorem Progresses.bind_left {x : Read α} {f : α → Read β} (hx : Progresses x)
    (hf : ∀ a, NeverGrows (f a)) : Progresses (x >>= f) := by
  intro r b r' h
  rw [bind_apply] at h
  split at h
  · rename_i a r₁ he
    have := hf a r₁
    rw [h] at this
    exact Nat.lt_of_le_of_lt this (hx r a r₁ he)
  · simp at h

theorem Progresses.bind_right {x : Read α} {f : α → Read β} (hx : NeverGrows x)
    (hf : ∀ a, Progresses (f a)) : Progresses (x >>= f) := by
  intro r b r' h
  rw [bind_apply] at h
  split at h
  · rename_i a r₁ he
    have := hx r
    rw [he] at this
    exact Nat.lt_of_lt_of_le (hf a r₁ b r' h) this
  · simp at h

theorem Progresses.of_fail (e : SceneError) : Progresses (fail e : Read α) := by
  intro r a r' h
  simp [fail] at h

/-- A character that is passed is taken from the source. -/
theorem bump_remaining {r r' : Reader} {c : Char} (h : bump r = (.ok (some c), r')) :
    r'.remaining < r.remaining := by
  unfold bump at h
  split at h
  · rename_i d r₁ hp
    unfold peek at hp
    split at hp <;> rename_i hu <;> cases hp
    cases h
    simp only [Reader.remaining, hu]
    simp [Reader.pass, Reader.upcoming]
  · rename_i hne
    exact absurd h (hne c r')

theorem readChar_remaining {r r' : Reader} {c : Char} (h : readChar r = (.ok (some c), r')) :
    r'.remaining < r.remaining := by
  simp only [readChar, bind_apply] at h
  split at h
  · rename_i r₁ hs
    have h₁ := Stepwise.neverGrows .skipBlanks r
    rw [hs] at h₁
    exact Nat.lt_of_lt_of_le (bump_remaining h) h₁
  · simp at h

theorem expectChar_progresses (c : Char) (fault : Fault) : Progresses (expectChar c fault) := by
  intro r a r' h
  simp only [expectChar, bind_apply] at h
  split at h
  · rename_i next r₁ hc
    split at h
    · rename_i he
      subst he
      cases h
      exact readChar_remaining hc
    · cases h
  · cases h

/-- An expression that is read takes something from the source. -/
theorem construct_progresses (limit : Nat) : Progresses (construct limit) := by
  unfold construct
  cases limit with
  | zero =>
    exact .bind_right (Stepwise.neverGrows .peekChar) fun _ =>
      .bind_right (Stepwise.neverGrows .position) fun _ => .of_fail _
  | succ room =>
    refine .bind_left (expectChar_progresses _ _) fun _ => Stepwise.neverGrows ?_
    exact .bind .readName fun name => .bind (.readBody (.expression trivial _) name) fun _ =>
      .bind (.expectChar _ _) fun _ => .pure _

end Read

end SolidScene
