import SolidScene.Proofs.Scene.Steps
import SolidScene.Proofs.Source.Answers

/-!
# Footprints

All that an action learns of its source are the answers to its requests: wherever a source gives
them, the action has the same result and leaves the rest alone (`Stepwise.exists_footprint`). A
failure among the answers is the last of them and the outcome.
-/

namespace SolidScene

open Source (Event Answers Clean Explains)

/-- The cause that the source gave, where a reading ends with a failure of its source. -/
def failureCause? {α : Type} : Except SceneError α → Option String
  | .error (.unreadable cause) => some cause
  | _ => none

theorem failureCause?_eq_some_iff {α : Type} {result : Except SceneError α} {cause : String} :
    failureCause? result = some cause ↔ result = .error (.unreadable cause) := by
  rcases result with (_ | _ | _) | _ <;> simp [failureCause?]

/-- The character that a reader came to last, once it has pulled these events. -/
def Reader.Newest (r : Reader) (pulled : List Event) (c : Char) : Prop :=
  pulled = [] ∧ r.lookahead = some c ∨ ∃ before, pulled = before ++ [.char c]

theorem Reader.Newest.append {r r' : Reader} {pulled pulled' : List Event} {c : Char}
    (h' : r'.Newest pulled' c) (h : r'.lookahead = some c → r.Newest pulled c) :
    r.Newest (pulled ++ pulled') c := by
  rcases h' with ⟨rfl, hc⟩ | ⟨before, rfl⟩
  · rw [List.append_nil]
    exact h hc
  · exact .inr ⟨pulled ++ before, (List.append_assoc ..).symm⟩

namespace Read

variable {α β : Type}

/-- From this reader the action pulls just these events, and what else the source may hold makes no
difference to it. -/
structure Footprint (x : Read α) (r : Reader) (pulled : List Event) : Prop where
  answers : Answers r.unread pulled (x r).2.unread
  run : ∀ {unread rest : List Event}, Answers unread pulled rest →
    x { r with unread } = ((x r).1, { (x r).2 with unread := rest })
  explains : Explains pulled (failureCause? (x r).1)
  held : ∀ {c : Char}, (x r).2.lookahead = some c → r.Newest pulled c

namespace Footprint

/-- An action that asks the source for nothing. -/
theorem still {x : Read α} {r : Reader} (h : ∀ unread, (x { r with unread }).1 = (x r).1)
    (h' : ∀ unread, (x { r with unread }).2 = { (x r).2 with unread })
    (hcause : failureCause? (x r).1 = none) 
    (hheld : ∀ c, (x r).2.lookahead = some c → r.lookahead = some c) :
    Footprint x r [] where
  answers := by
    have hunread := congrArg Reader.unread (h' r.unread)
    rw [hunread]
    exact .nil r.unread
  run ha := by
    rw [ha.eq_of_nil]
    exact Prod.ext (h _) (h' _)
  explains := by
    rw [hcause]
    exact .nil
  held hc := .inl ⟨rfl, hheld _ hc⟩

/-- Another source with the same answers leaves the same footprint. -/
theorem move {x : Read α} {r : Reader} {pulled unread rest : List Event} (h : Footprint x r pulled)
    (ha : Answers unread pulled rest) : Footprint x { r with unread } pulled := by
  have hrun := h.run ha
  constructor
  · rw [hrun]
    exact ha
  · intro unread' rest' ha'
    rw [hrun]
    exact h.run ha'
  · rw [hrun]
    exact h.explains
  · intro c hc
    rw [hrun] at hc
    exact h.held hc

theorem bind {x : Read α} {f : α → Read β} {r r' : Reader} {a : α} {pulled pulled' : List Event}
    (hx : Footprint x r pulled) (h : x r = (.ok a, r')) (hf : Footprint (f a) r' pulled') :
    Footprint (x >>= f) r (pulled ++ pulled') := by
  have hrun := bind_of_ok h f
  have hclean : Clean pulled := by
    have := hx.explains
    rw [h] at this
    exact this
  constructor
  · have := hx.answers
    rw [h] at this
    rw [hrun]
    exact this.trans hf.answers
  · intro unread rest ha
    obtain ⟨mid, ha, ha'⟩ := ha.split
    have hx := hx.run ha
    rw [h] at hx
    rw [bind_of_ok hx, hrun]
    exact hf.run ha'
  · rw [hrun]
    exact hf.explains.append hclean
  · intro c hc
    rw [hrun] at hc
    refine (hf.held hc).append fun hc => hx.held ?_
    rw [h]
    exact hc

theorem bind_error {x : Read α} {r r' : Reader} {e : SceneError} {pulled : List Event}
    (hx : Footprint x r pulled) (h : x r = (.error e, r')) (f : α → Read β) :
    Footprint (x >>= f) r pulled := by
  obtain ⟨answers, run, explains, held⟩ := hx
  rw [h] at answers run explains held
  have hrun := bind_of_error h f
  constructor
  · rw [hrun]
    exact answers
  · intro unread rest ha
    rw [bind_of_error (run ha), hrun]
  · rw [hrun]
    cases e <;> exact explains
  · intro c hc
    rw [hrun] at hc
    exact held hc

theorem exists_bind {x : Read α} {f : α → Read β} {r : Reader}
    (hx : ∃ pulled, Footprint x r pulled)
    (hf : ∀ a r', x r = (.ok a, r') → ∃ pulled, Footprint (f a) r' pulled) :
    ∃ pulled, Footprint (x >>= f) r pulled := by
  obtain ⟨pulled, hx⟩ := hx
  rcases h : x r with ⟨e | a, r'⟩
  · exact ⟨pulled, hx.bind_error h f⟩
  · obtain ⟨pulled', hf⟩ := hf a r' h
    exact ⟨pulled ++ pulled', hx.bind h hf⟩

end Footprint

/-! ## Steps -/

theorem peek_footprint (r : Reader) : ∃ pulled, Footprint peek r pulled := by
  obtain ⟨unread, lookahead, position, tokenStart⟩ := r
  cases lookahead with
  | some c => exact ⟨[], .still (fun _ => rfl) (fun _ => rfl) rfl fun _ => id⟩
  | none =>
    cases unread with
    | nil =>
      refine ⟨[.pause], .ended (.nil []), fun ha => ?_, .cons (by simp) .nil, fun hc => ?_⟩
      · cases ha with
        | event ha | ended ha => cases ha; rfl
      · cases hc
    | cons e unread =>
      refine ⟨[e], ?_, fun ha => ?_, ?_, fun hc => ?_⟩
      · cases e <;> exact .event (.nil unread)
      · cases ha with
        | event ha => cases ha; cases e <;> rfl
        | ended ha => cases ha; rfl
      · cases e with
        | failure cause => exact ⟨[], .nil, rfl⟩
        | char | pause => exact .cons (by simp) .nil
      · cases e <;> cases hc
        exact .inr ⟨[], rfl⟩

theorem passed_footprint (next : Option Char) (r : Reader) : Footprint (passed next) r [] := by
  refine .still (fun _ => rfl) (fun _ => ?_) rfl fun c hc => ?_
  · cases next <;> rfl
  · cases next with
    | none => exact hc
    | some => cases hc

theorem pure_footprint (a : α) (r : Reader) : Footprint (pure a) r [] :=
  .still (fun _ => rfl) (fun _ => rfl) rfl fun _ => id

theorem bump_footprint (r : Reader) : ∃ pulled, Footprint bump r pulled := by
  rw [bump_eq]
  exact Footprint.exists_bind (peek_footprint r) fun next r' _ => ⟨[], passed_footprint next r'⟩

theorem takeWhile_footprint (p : Char → Bool) (r : Reader) :
    ∃ pulled, Footprint (takeWhile p) r pulled := by
  induction r using run_induction with
  | step r ih =>
    rw [takeWhile_eq]
    refine Footprint.exists_bind (peek_footprint r) fun next r' hpeek => ?_
    cases next with
    | none => exact ⟨[], pure_footprint [] r'⟩
    | some c =>
      dsimp only
      split_ifs
      · refine Footprint.exists_bind ⟨[], passed_footprint (some c) r'⟩ fun _ r'' hpass => ?_
        obtain ⟨-, rfl⟩ := Prod.mk.inj hpass
        refine Footprint.exists_bind (ih r' c hpeek) fun cs r'' _ => ?_
        exact ⟨[], pure_footprint (c :: cs) r''⟩
      · exact ⟨[], pure_footprint [] r'⟩

theorem failureCause?_mapError (fault : Fault) (result : Except SceneError α) :
    failureCause? (result.mapError (blame fault)) = failureCause? result := by
  rcases result with (_ | _ | _) | a <;> rfl

theorem Stepwise.exists_footprint {limits : ℕ → Prop} {x : Read α} (h : Stepwise limits x)
    (r : Reader) : ∃ pulled, Footprint x r pulled := by
  induction h generalizing r with
  | pure a => exact ⟨[], pure_footprint a r⟩
  | bind _ _ ihx ihf => exact Footprint.exists_bind (ihx r) fun a r' _ => ihf a r'
  | position | tokenStart | mark | reject | tooDeep =>
    exact ⟨[], .still (fun _ => rfl) (fun _ => rfl) rfl fun _ => id⟩
  | peek => exact peek_footprint r
  | bump => exact bump_footprint r
  | takeWhile p => exact takeWhile_footprint p r
  | withFault fault _ ih =>
    obtain ⟨pulled, answers, run, explains, held⟩ := ih r
    refine ⟨pulled, ?_, fun ha => ?_, ?_, ?_⟩ <;> rw [withFault_apply]
    · exact answers
    · rw [run ha, withFault_apply]
    · rw [failureCause?_mapError]
      exact explains
    · exact held

/-! ## Pulling just so much -/

/-- From a source of these events the action pulls just the second ones: written out with enough of
the ends that it goes on to report, the source delivers them and then something that is left. -/
def Pulls (x : Read α) (events pulled : List Event) : Prop := ∃ n rest, rest ≠ [] ∧
  events ++ List.replicate n .pause = pulled ++ rest ∧
  (x (.ofEvents (events ++ List.replicate n .pause))).2.unread = rest

theorem Footprint.pulls {x : Read α} {events pulled : List Event}
    (h : Footprint x (.ofEvents events) pulled) : Pulls x events pulled := by
  obtain ⟨n, hn⟩ := h.answers.exists_padding 1
  have hrun := h.run (.of_append pulled ((x (.ofEvents events)).2.unread ++ [.pause]))
  refine ⟨n, _, List.append_ne_nil_of_right_ne_nil _ (List.cons_ne_nil _ _), hn, ?_⟩
  exact congrArg (fun p => p.2.unread) ((congrArg (fun es => x (.ofEvents es)) hn).trans hrun)

theorem Footprint.eq_of_pulls {x : Read α} {events pulled pulled' : List Event}
    (hx : Footprint x (.ofEvents events) pulled) (h : Pulls x events pulled') :
    pulled = pulled' := by
  obtain ⟨n, rest, hne, hn, hrest⟩ := h
  obtain ⟨_, ha⟩ := hx.answers.padded n
  have ha : Answers (events ++ List.replicate n .pause) pulled rest := hrest ▸ (hx.move ha).answers
  exact List.append_cancel_right ((ha.eq_append_of_ne_nil hne).symm.trans hn)

end Read

end SolidScene
