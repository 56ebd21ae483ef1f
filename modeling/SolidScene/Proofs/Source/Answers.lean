import Mathlib.Data.List.Basic
import SolidScene.Source.Event

/-!
# What a source answers

A source is asked for one event after another. The answers are its events and then its end, again
and again (`Answers`), so they do not tell whether a source at its end has reported it before
(`Answers.padded`).
-/

namespace SolidScene.Source

/-- To as many requests as there are in the second list, a source of the first events answers with
it, and the third list is left. A source at its end reports the end to every request. -/
inductive Answers : List Event → List Event → List Event → Prop
  | nil (events : List Event) : Answers events [] events
  | event {e : Event} {events pulled rest : List Event} (h : Answers events pulled rest) :
    Answers (e :: events) (e :: pulled) rest
  | ended {pulled rest : List Event} (h : Answers [] pulled rest) :
    Answers [] (.pause :: pulled) rest

namespace Answers

variable {events pulled pulled' rest rest' : List Event}

theorem of_append (pulled rest : List Event) : Answers (pulled ++ rest) pulled rest := by
  induction pulled with
  | nil => exact .nil rest
  | cons e pulled ih => exact .event ih

theorem trans (h : Answers events pulled rest) (h' : Answers rest pulled' rest') :
    Answers events (pulled ++ pulled') rest' := by
  induction h with
  | nil => exact h'
  | event _ ih => exact .event (ih h')
  | ended _ ih => exact .ended (ih h')

theorem split (h : Answers events (pulled ++ pulled') rest) :
    ∃ mid, Answers events pulled mid ∧ Answers mid pulled' rest := by
  induction pulled generalizing events with
  | nil => exact ⟨events, .nil events, h⟩
  | cons e pulled ih =>
    cases h with
    | event h =>
      obtain ⟨mid, h₁, h₂⟩ := ih h
      exact ⟨mid, .event h₁, h₂⟩
    | ended h =>
      obtain ⟨mid, h₁, h₂⟩ := ih h
      exact ⟨mid, .ended h₁, h₂⟩

/-- Where something is left of a source, all answers are events of it. -/
theorem eq_append_of_ne_nil (h : Answers events pulled rest) (hne : rest ≠ []) :
    events = pulled ++ rest := by
  induction h with
  | nil => rfl
  | event _ ih => exact congrArg _ (ih hne)
  | ended _ ih => exact absurd (List.append_eq_nil_iff.1 (ih hne).symm).2 hne

/-- All answers are events of the source, or the end is one of them. -/
theorem eq_append_or_mem (h : Answers events pulled rest) :
    events = pulled ++ rest ∨ .pause ∈ pulled := by
  induction h with
  | nil => exact .inl rfl
  | event _ ih => exact ih.imp (congrArg _) (List.mem_cons_of_mem _)
  | ended => exact .inr List.mem_cons_self

theorem eq_of_nil (h : Answers events [] rest) : rest = events := by
  cases h
  rfl

theorem eq_append {e : Event} (h : Answers events (pulled ++ [e]) rest) (he : e ≠ .pause) :
    events = pulled ++ [e] ++ rest := by
  induction pulled generalizing events with
  | nil =>
    cases h with
    | event h =>
      cases h
      rfl
    | ended => exact absurd rfl he
  | cons e' pulled ih =>
    cases h with
    | event h => exact congrArg (e' :: ·) (ih h)
    | ended h => exact absurd (ih h) (by simp)

theorem isPrefix_or_mem {front back : List Event} {e : Event}
    (h : Answers (front ++ e :: back) pulled rest) : pulled <+: front ∨ e ∈ pulled := by
  induction front generalizing pulled with
  | nil =>
    cases h with
    | nil => exact .inl List.nil_prefix
    | event => exact .inr List.mem_cons_self
  | cons e' front ih =>
    cases h with
    | nil => exact .inl List.nil_prefix
    | event h =>
      exact (ih h).imp (fun hpre => List.cons_prefix_cons.2 ⟨rfl, hpre⟩) (List.mem_cons_of_mem e')

/-- Written out with some of the ends that it goes on to report, the source delivers its answers. -/
theorem exists_padding (h : Answers events pulled rest) (m : ℕ) : ∃ n,
    events ++ List.replicate n .pause = pulled ++ (rest ++ List.replicate m .pause) := by
  induction h with
  | nil => exact ⟨m, rfl⟩
  | event _ ih =>
    obtain ⟨n, hn⟩ := ih
    exact ⟨n, congrArg (List.cons _) hn⟩
  | ended _ ih =>
    obtain ⟨n, hn⟩ := ih
    refine ⟨n + 1, ?_⟩
    rw [List.replicate_succ]
    exact congrArg (List.cons .pause) hn

/-- A source that reports its end a few times more gives the same answers. -/
theorem padded (h : Answers events pulled rest) (n : ℕ) :
    ∃ rest', Answers (events ++ List.replicate n .pause) pulled rest' := by
  induction h generalizing n with
  | nil events => exact ⟨_, .nil _⟩
  | event _ ih =>
    obtain ⟨rest', h'⟩ := ih n
    exact ⟨rest', .event h'⟩
  | ended h ih =>
    cases n with
    | zero => exact ⟨_, .ended h⟩
    | succ n =>
      obtain ⟨rest', h'⟩ := ih n
      exact ⟨rest', .event h'⟩

end Answers

/-- None of the events is a failure. -/
def Clean (events : List Event) : Prop := ∀ cause, Event.failure cause ∉ events

/-- The events hold no failure before the last of them, and that is one of this cause, if there is
a cause. -/
def Explains (pulled : List Event) : Option String → Prop
  | none => Clean pulled
  | some cause => ∃ before, Clean before ∧ pulled = before ++ [.failure cause]

theorem Clean.append {events events' : List Event} (h : Clean events) (h' : Clean events') :
    Clean (events ++ events') :=
  fun cause hmem => (List.mem_append.1 hmem).elim (h cause) (h' cause)

theorem Clean.nil : Clean [] := fun _ => List.not_mem_nil

theorem Clean.cons {e : Event} {events : List Event} (he : ∀ cause, e ≠ .failure cause)
    (h : Clean events) : Clean (e :: events) :=
  fun cause hmem => (List.mem_cons.1 hmem).elim (fun heq => he cause heq.symm) (h cause)

theorem Explains.append {events pulled : List Event} {cause? : Option String} (h : Clean events)
    (h' : Explains pulled cause?) : Explains (events ++ pulled) cause? := by
  cases cause? with
  | none => exact h.append h'
  | some cause =>
    obtain ⟨before, hbefore, rfl⟩ := h'
    exact ⟨events ++ before, h.append hbefore, (List.append_assoc ..).symm⟩

theorem Explains.failure_mem_iff {pulled : List Event} {cause? : Option String} {cause : String}
    (h : Explains pulled cause?) : .failure cause ∈ pulled ↔ cause? = some cause := by
  cases cause? with
  | none => exact iff_of_false (h cause) (Option.some_ne_none cause).symm
  | some cause' =>
    obtain ⟨before, hbefore, rfl⟩ := h
    simp [hbefore cause, eq_comm]

theorem Explains.eq_nil_of_failure {before after : List Event} {cause : String}
    {cause? : Option String} (h : Explains (before ++ .failure cause :: after) cause?) :
    after = [] := by
  have hcause := h.failure_mem_iff.1 (List.mem_append_right _ List.mem_cons_self)
  subst hcause
  obtain ⟨clean, hclean, heq⟩ := h
  rcases after.eq_nil_or_concat with rfl | ⟨after, e, rfl⟩
  · rfl
  · -- the first failure would stand before the last event
    rw [List.concat_eq_append, ← List.cons_append, ← List.append_assoc] at heq
    obtain ⟨rfl, -⟩ := List.append_inj' heq rfl
    exact absurd (List.mem_append_right _ List.mem_cons_self) (hclean cause)

end SolidScene.Source
