import SolidScene.Proofs.Scene.Acceptance
import SolidScene.Proofs.Scene.Footprint

/-!
# What an expression pulls from its source

An expression is read up to its closing bracket and no further (`construct_endsBehind`), so what a
source holds behind it makes no difference. A failure of the source ends the reading at once and is
its outcome (`Scene.exists_pulling`).
-/

namespace SolidScene

open Source (Event Answers)
open Text (lexemes)

namespace Read

variable {α β : Type}

/-! ## Where an expression ends -/

/-- Where the action has a result of which `P` holds, it has just passed the character `c`. -/
def EndsBehind (c : Char) (P : α → Prop) (x : Read α) : Prop := ∀ r a r', x r = (.ok a, r') → P a →
  r'.lookahead = none ∧ ∃ pulled, Footprint x r pulled ∧ r.Newest pulled c

theorem EndsBehind.bind_right {c : Char} {P : β → Prop} {x : Read α} {f : α → Read β}
    (hx : Stepwise (fun _ => True) x) (hf : ∀ a, EndsBehind c P (f a)) :
    EndsBehind c P (x >>= f) := by
  intro r b r' h hb
  obtain ⟨a, r₁, hxr, hfr⟩ := bind_eq_ok h
  obtain ⟨hnone, pulled', hfoot', hnewest⟩ := hf a r₁ b r' hfr hb
  obtain ⟨pulled, hfoot⟩ := hx.exists_footprint r
  refine ⟨hnone, _, hfoot.bind hxr hfoot', hnewest.append fun hc => hfoot.held ?_⟩
  rw [hxr]
  exact hc

/-- What follows may check the result and leave the source alone. -/
theorem EndsBehind.bind_left {c : Char} {P : α → Prop} {x : Read α} {f : α → Read β}
    (hx : EndsBehind c P x) (hf : ∀ a r b r', f a r = (.ok b, r') →
      P a ∧ r' = r ∧ Footprint (f a) r []) : EndsBehind c (fun _ => True) (x >>= f) := by
  intro r b r' h _
  obtain ⟨a, r₁, hxr, hfr⟩ := bind_eq_ok h
  obtain ⟨ha, rfl, hfoot'⟩ := hf a r₁ b r' hfr
  obtain ⟨hnone, pulled, hfoot, hnewest⟩ := hx r a r' hxr ha
  refine ⟨hnone, pulled, ?_, hnewest⟩
  rw [← List.append_nil pulled]
  exact hfoot.bind hxr hfoot'

theorem bump_endsBehind (c : Char) : EndsBehind c (· = some c) bump := by
  rintro r _ r' h rfl
  rw [bump_eq] at h ⊢
  obtain ⟨next, r₁, hpeek, hpass⟩ := bind_eq_ok h
  cases hpass
  obtain ⟨pulled, hfoot⟩ := peek_footprint r
  refine ⟨rfl, pulled, ?_, hfoot.held ?_⟩
  · rw [← List.append_nil pulled]
    exact hfoot.bind hpeek (passed_footprint _ _)
  · rw [hpeek]
    exact lookahead_of_peek hpeek

theorem expectChar_endsBehind (c : Char) (fault : Fault) :
    EndsBehind c (fun _ => True) (expectChar c fault) := by
  have hread : EndsBehind c (· = some c) readChar :=
    .bind_right .skipBlanks fun _ => .bind_right .mark fun _ => bump_endsBehind c
  refine hread.bind_left fun next r _ r' h => ?_
  split at h
  · rename_i hnext
    cases h
    rw [if_pos hnext]
    exact ⟨hnext, rfl, pure_footprint () r⟩
  · cases h

theorem construct_endsBehind (limit : ℕ) : EndsBehind ']' (fun _ => True) (construct limit) := by
  cases limit with
  | zero =>
    intro r s r' h
    obtain ⟨_, r₁, -, h⟩ := bind_eq_ok h
    obtain ⟨_, r₂, -, h⟩ := bind_eq_ok h
    cases h
  | succ room =>
    have hend (s : Scene) :
        EndsBehind ']' (fun _ => True) (expectChar ']' .missingClosing >>= fun _ => pure s) := by
      refine (expectChar_endsBehind ']' .missingClosing).bind_left fun _ r _ r' h => ?_
      cases h
      exact ⟨trivial, rfl, pure_footprint s r⟩
    exact .bind_right (.expectChar _ _) fun _ => .bind_right .readName fun name =>
      .bind_right (.readBody (.expression trivial room) name) fun s => hend s

end Read

namespace Scene

open Read (Pulls Footprint construct)

/-- How an expression is read from a source of these events, of which `pulled` are pulled. -/
structure Pulling (limit : ℕ) (events pulled : List Event) (result : Except SceneError Scene)
    (r' : Reader) : Prop where
  /-- What the source holds behind events that are enough makes no difference and is left. -/
  same : ∀ {enough next : List Event}, events = enough ++ next → pulled <+: enough →
    ∃ left, enough = pulled ++ left ∧ r'.unread = left ++ next ∧
      ∀ next', Pulls (construct limit) (enough ++ next') pulled ∧
        construct limit (.ofEvents (enough ++ next')) =
          (result, { r' with unread := left ++ next' })
  /-- With a result, the closing bracket of the expression was pulled last and is passed. -/
  closed : ∀ {s}, result = .ok s → r'.lookahead = none ∧ events = pulled ++ r'.unread ∧
    (∃ before, pulled = before ++ [.char ']']) ∧
    ∀ text, pulled = text.map .char → Grammar.Expression limit (lexemes text) s
  /-- A failure of the source is the outcome just where one was pulled. -/
  failed : ∀ {cause}, result = .error (.unreadable cause) ↔ Event.failure cause ∈ pulled
  /-- Nothing is pulled behind a failure. -/
  last : ∀ {before cause after}, pulled = before ++ Event.failure cause :: after → after = []

theorem same_of_footprint {limit : ℕ} {events pulled enough next : List Event}
    (h : Footprint (construct limit) (.ofEvents events) pulled) (hevents : events = enough ++ next)
    (hpulled : pulled <+: enough) : ∃ left, enough = pulled ++ left ∧
      (construct limit (.ofEvents events)).2.unread = left ++ next ∧
      ∀ next', Pulls (construct limit) (enough ++ next') pulled ∧
        construct limit (.ofEvents (enough ++ next')) = ((construct limit (.ofEvents events)).1,
          { (construct limit (.ofEvents events)).2 with unread := left ++ next' }) := by
  obtain ⟨left, rfl⟩ := hpulled
  have ha (next' : List Event) : Answers (pulled ++ left ++ next') pulled (left ++ next') := by
    rw [List.append_assoc]
    exact .of_append _ _
  refine ⟨left, rfl, ?_, fun next' => ⟨(h.move (ha next')).pulls, h.run (ha next')⟩⟩
  have hrun := h.run (ha next)
  subst hevents
  exact congrArg (fun p => p.2.unread) hrun

theorem expression_of_pulled {limit : ℕ} {r r' : Reader} {text : List Char} {s : Scene}
    (hr : r.Faces (lexemes text)) (h : construct limit r = (.ok s, r')) (hr' : r'.upcoming = []) :
    Grammar.Expression limit (lexemes text) s := by
  obtain ⟨_, ⟨p, cs, hat, rfl⟩, used, hls, hs⟩ :=
    (Read.expression_recognizes limit limit).sound hr h
  have hcs : cs = [] := List.map_eq_nil_iff.1 (hat.upcoming.symm.trans hr')
  rw [hcs, Text.lexemes_nil, List.append_nil] at hls
  rwa [hls]

/-- The outcome of reading an expression depends on nothing but what was pulled from the source, and
a failure of the source is never masked. -/
theorem exists_pulling (limit : ℕ) (events : List Event) :
    (∃ pulled, Pulls (construct limit) events pulled) ∧
      ∀ pulled result r', Pulls (construct limit) events pulled →
        construct limit (.ofEvents events) = (result, r') →
        Pulling limit events pulled result r' := by
  have hsteps : Read.Stepwise (fun _ => True) (construct limit) := .construct trivial
  obtain ⟨pulled, hfoot⟩ := hsteps.exists_footprint (.ofEvents events)
  refine ⟨⟨pulled, hfoot.pulls⟩, fun pulled' result r' hpulls hrun => ?_⟩
  obtain rfl := hfoot.eq_of_pulls hpulls
  have hexplains := hfoot.explains
  rw [hrun] at hexplains
  constructor
  · intro enough next hevents hpulled
    have hsame := same_of_footprint hfoot hevents hpulled
    rwa [hrun] at hsame
  · rintro s rfl
    obtain ⟨hnone, pulled', hfoot', hnewest⟩ := Read.construct_endsBehind limit _ s r' hrun trivial
    obtain rfl := hfoot'.eq_of_pulls hpulls
    have hlast : ∃ before, pulled' = before ++ [.char ']'] := by
      rcases hnewest with ⟨-, hheld⟩ | hlast
      · cases hheld
      · exact hlast
    have hanswers := hfoot'.answers
    rw [hrun] at hanswers
    refine ⟨hnone, ?_, hlast, fun text htext => ?_⟩
    · obtain ⟨before, rfl⟩ := hlast
      exact hanswers.eq_append (by simp)
    · have hfaces : (Reader.ofEvents pulled').Faces (lexemes text) := ⟨_, _, ⟨rfl, htext⟩, rfl⟩
      have ha : Answers pulled' pulled' [] := by
        simpa using Answers.of_append pulled' []
      have hrun' := hfoot'.run ha
      rw [hrun] at hrun'
      exact expression_of_pulled hfaces hrun' (by simp [Reader.upcoming, hnone])
  · exact (hexplains.failure_mem_iff.trans failureCause?_eq_some_iff).symm
  · rintro before cause after rfl
    exact hexplains.eq_nil_of_failure

/-- A failure behind an expression is left in the source, and one in the place of a combiner is the
outcome. -/
theorem exists_pulling_failing :
    let sphere := Source.ofText "[+sphere 0 0 0 1]"
    let behind := sphere ++ [.failure "gone"]
    let combiner := Source.ofText "[%boolean " ++ [.failure "gone"]
    let inside := combiner ++ Source.ofText "+"
    (∃ r', construct 1 (.ofEvents behind) = (.ok (.sphere ⟨0.0, 0.0, 0.0⟩ 1.0), r') ∧
        Pulls (construct 1) behind sphere ∧
        Pulling 1 behind sphere (.ok (.sphere ⟨0.0, 0.0, 0.0⟩ 1.0)) r') ∧
      ∃ r', construct 1 (.ofEvents inside) = (.error (.unreadable "gone"), r') ∧
        Pulls (construct 1) inside combiner ∧
        Pulling 1 inside combiner (.error (.unreadable "gone")) r' := by
  intro sphere behind combiner inside
  have hbehind : Pulls (construct 1) behind sphere :=
    ⟨0, [.failure "gone"], by simp, rfl, by decide +kernel⟩
  have hinside : Pulls (construct 1) inside combiner :=
    ⟨0, Source.ofText "+", by decide, rfl, by decide +kernel⟩
  have hok : (construct 1 (.ofEvents behind)).1 = .ok (.sphere ⟨0.0, 0.0, 0.0⟩ 1.0) := by
    decide +kernel
  have herror : (construct 1 (.ofEvents inside)).1 = .error (.unreadable "gone") := by
    decide +kernel
  exact ⟨⟨_, Prod.ext hok rfl, hbehind,
      (exists_pulling 1 behind).2 _ _ _ hbehind (Prod.ext hok rfl)⟩,
    ⟨_, Prod.ext herror rfl, hinside,
      (exists_pulling 1 inside).2 _ _ _ hinside (Prod.ext herror rfl)⟩⟩

end Scene

end SolidScene
