import SolidScene.Proofs.Text.Place
import SolidScene.Scene.Stepwise

/-!
# Reading a text

On a text every step has a result, and an action passes the first part of what is left of the text
and moves the position behind it (`Stepwise.tracks`). Nesting is too deep only for a limit that the
action was given (`Stepwise.limit_of_tooDeep`).
-/

namespace SolidScene

open Source (Event)
open Text (Position)

/-- The reader stands at a place, with the rest of a text to come. -/
structure Reader.At (r : Reader) (p : Position) (cs : List Char) : Prop where
  position : r.position = p
  upcoming : r.upcoming = cs.map Event.char

theorem Reader.At.unique {r : Reader} {p q : Position} {cs ds : List Char} (h : r.At p cs)
    (h' : r.At q ds) : p = q ∧ cs = ds :=
  ⟨h.position.symm.trans h'.position,
    List.map_inj_right (fun _ _ => Event.char.inj) |>.1 (h.upcoming.symm.trans h'.upcoming)⟩

theorem Reader.at_ofText (text : String) :
    (Reader.ofEvents (Source.ofText text)).At .start text.toList := ⟨rfl, rfl⟩

namespace Read

variable {α β : Type} {r : Reader} {p : Position} {cs : List Char}

theorem peek_at (h : r.At p cs) : ∃ r', peek r = (.ok cs.head?, r') ∧ r'.At p cs ∧
    ∀ c ∈ cs.head?, (r'.pass c).At (p.advance c) cs.tail := by
  obtain ⟨rfl, hu⟩ := h
  cases cs with
  | nil => exact ⟨r, by simp [peek, hu], ⟨rfl, hu⟩, by simp⟩
  | cons c cs =>
    refine ⟨{ r with unread := cs.map .char, lookahead := some c }, by simp [peek, hu],
      ⟨rfl, rfl⟩, ?_⟩
    rintro _ ⟨⟩
    exact ⟨rfl, rfl⟩

theorem bump_at (h : r.At p cs) :
    ∃ r', bump r = (.ok cs.head?, r') ∧ r'.At (p.past cs.head?.toList) cs.tail := by
  obtain ⟨r', hr, hat, hpass⟩ := peek_at h
  unfold bump
  rw [hr]
  cases cs with
  | nil => exact ⟨r', rfl, hat⟩
  | cons c cs => exact ⟨r'.pass c, rfl, hpass c rfl⟩

theorem runOf_at (q : Char → Bool) (start p : Position) (cs : List Char) :
    ∃ r', runOf q start (cs.map .char) p = (.ok (cs.takeWhile q), r') ∧
      r'.At (p.past (cs.takeWhile q)) (cs.dropWhile q) := by
  induction cs generalizing p with
  | nil => exact ⟨_, rfl, rfl, rfl⟩
  | cons c cs ih =>
    rw [List.map_cons, runOf, List.takeWhile_cons, List.dropWhile_cons]
    split
    · obtain ⟨r', hr, hat⟩ := ih (p.advance c)
      exact ⟨r', by simp [hr, Except.map], hat⟩
    · exact ⟨_, rfl, rfl, rfl⟩

theorem takeWhile_at (h : r.At p cs) (q : Char → Bool) :
    ∃ r', takeWhile q r = (.ok (cs.takeWhile q), r') ∧
      r'.At (p.past (cs.takeWhile q)) (cs.dropWhile q) := by
  have hrun := runOf_at q r.tokenStart p cs
  rw [← h.upcoming, ← h.position] at hrun
  rw [← h.position]
  exact hrun

theorem mark_at (h : r.At p cs) : ∃ r', mark r = (.ok p, r') ∧ r'.At p cs :=
  ⟨{ r with tokenStart := r.position }, by rw [mark, h.position], h.position, h.upcoming⟩

/-- An action passes the first part of a text and moves the position behind it. -/
theorem Stepwise.tracks {limits : Nat → Prop} {x : Read α} (h : Stepwise limits x) :
    ∀ {r : Reader} {p : Position} {cs : List Char}, r.At p cs →
      ∃ mid rest, cs = mid ++ rest ∧ (x r).2.At (p.past mid) rest := by
  induction h with
  | pure | reject | position | tokenStart | tooDeep => exact fun hr => ⟨[], _, rfl, hr⟩
  | mark => exact fun hr => ⟨[], _, rfl, hr.position, hr.upcoming⟩
  | peek =>
    intro r p cs hr
    obtain ⟨r', he, hat, -⟩ := peek_at hr
    rw [he]
    exact ⟨[], cs, rfl, hat⟩
  | bump =>
    intro r p cs hr
    obtain ⟨r', he, hat⟩ := bump_at hr
    rw [he]
    exact ⟨cs.head?.toList, cs.tail, by cases cs <;> rfl, hat⟩
  | takeWhile q =>
    intro r p cs hr
    obtain ⟨r', he, hat⟩ := takeWhile_at hr q
    rw [he]
    exact ⟨cs.takeWhile q, cs.dropWhile q, List.takeWhile_append_dropWhile.symm, hat⟩
  | withFault fault _ ih =>
    intro r p cs hr
    obtain ⟨mid, rest, hcs, hat⟩ := ih hr
    refine ⟨mid, rest, hcs, ?_⟩
    unfold Read.withFault
    split
    · rename_i he
      rw [he] at hat
      exact hat
    · exact hat
  | bind _ _ ihx ihf =>
    intro r p cs hr
    obtain ⟨mid, rest, hcs, hat⟩ := ihx hr
    rw [bind_apply]
    split
    · rename_i a r' he
      rw [he] at hat
      obtain ⟨mid', rest', hrest, hat'⟩ := ihf a hat
      rw [← Position.past_append] at hat'
      exact ⟨mid ++ mid', rest', by rw [hcs, hrest, List.append_assoc], hat'⟩
    · rename_i e r' he
      rw [he] at hat
      exact ⟨mid, rest, hcs, hat⟩

/-! ## Failures of steps -/

theorem unreadable_of_peek {r r' : Reader} {e : SceneError} (h : peek r = (.error e, r')) :
    ∃ cause, e = .unreadable cause := by
  unfold peek at h
  split at h <;> cases h
  exact ⟨_, rfl⟩

theorem unreadable_of_bump {r r' : Reader} {e : SceneError} (h : bump r = (.error e, r')) :
    ∃ cause, e = .unreadable cause := by
  unfold bump at h
  split at h
  · cases h
  · exact unreadable_of_peek h

theorem unreadable_of_runOf {q : Char → Bool} {start p : Position} {events : List Event}
    {r' : Reader} {e : SceneError} (h : runOf q start events p = (.error e, r')) :
    ∃ cause, e = .unreadable cause := by
  induction events generalizing p r' with
  | nil => cases h
  | cons event events ih =>
    cases event with
    | char c =>
      rw [runOf] at h
      split at h
      · rcases hrun : runOf q start events (p.advance c) with ⟨_ | _, r₁⟩ <;> rw [hrun] at h <;>
          cases h
        exact ih hrun
      · cases h
    | failure cause =>
      cases h
      exact ⟨cause, rfl⟩
    | pause => cases h

/-- Nesting is too deep only for a limit that the action was given. -/
theorem Stepwise.limit_of_tooDeep {limits : Nat → Prop} {x : Read α} (h : Stepwise limits x) :
    ∀ {r r' : Reader} {limit : Nat} {p : Position},
      x r = (.error (.tooDeep limit p), r') → limits limit := by
  induction h with
  | pure | reject | position | tokenStart | mark => intro _ _ _ _ he; cases he
  | tooDeep hlimit =>
    intro _ _ _ _ he
    cases he
    exact hlimit
  | peek =>
    intro _ _ _ _ he
    obtain ⟨_, ⟨⟩⟩ := unreadable_of_peek he
  | bump =>
    intro _ _ _ _ he
    obtain ⟨_, ⟨⟩⟩ := unreadable_of_bump he
  | takeWhile q =>
    intro _ _ _ _ he
    obtain ⟨_, ⟨⟩⟩ := unreadable_of_runOf he
  | withFault fault _ ih =>
    intro r r' limit p he
    unfold Read.withFault at he
    split at he
    · cases he
    · exact ih he
  | bind _ _ ihx ihf =>
    intro r r' limit p he
    rw [bind_apply] at he
    split at he
    · exact ihf _ he
    · rename_i e r₁ hx
      cases he
      exact ihx hx

end Read

end SolidScene
