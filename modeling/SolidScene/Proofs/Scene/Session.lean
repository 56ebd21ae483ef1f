import SolidScene.Proofs.Scene.Steps
import SolidScene.Proofs.Text.Place

/-!
# Operations one after another

Whatever operations a reader is put through, and however each of them ends, the characters that the
source has delivered are those that were passed and the one that is held, and the places are those
behind the passed characters (`Reader.kept_after`).
-/

namespace SolidScene

open Source (Event)
open Text (Position endOf)

/-! ## Operations -/

/-- What can be asked of a reader. -/
inductive Operation where
  | peekChar
  | readChar
  | readToken (what : String)
  | readNumber (what : String)
  | readVector (what : String)
  | readMatrix (what : String)
  | construct (limit : ℕ)
  | constructAll (limit : ℕ)

namespace Operation

def Value : Operation → Type
  | .peekChar | .readChar => Option Char
  | .readToken _ => Read.Token
  | .readNumber _ => Float
  | .readVector _ => Vec3 Float
  | .readMatrix _ => Matrix4 Float
  | .construct _ => Scene
  | .constructAll _ => List Scene

def action : (op : Operation) → Read op.Value
  | .peekChar => Read.peekChar
  | .readChar => Read.readChar
  | .readToken what => Read.readToken what
  | .readNumber what => Read.readNumber what
  | .readVector what => Read.readVector what
  | .readMatrix what => Read.readMatrix what
  | .construct limit => Read.construct limit
  | .constructAll limit => Read.constructAll limit

end Operation

/-- The reader behind some operations, each of which may have failed. -/
def Reader.after (r : Reader) (ops : List Operation) : Reader :=
  ops.foldl (fun r op => (op.action r).2) r

/-- What steps do to a reader every operation does. -/
theorem Read.Passage.operation {R : Reader → Reader → Prop} (hR : Passage R) (op : Operation)
    (r : Reader) : R r (op.action r).2 := by
  have hsteps {α : Type} {x : Read α} (h : Stepwise (fun _ => True) x) := hR.stepwise h r
  cases op with
  | peekChar => exact hsteps .peekChar
  | readChar => exact hsteps .readChar
  | readToken what => exact hsteps (.readToken what)
  | readNumber what => exact hsteps (.readNumber what)
  | readVector what => exact hsteps (.readVector what)
  | readMatrix what => exact hsteps (.readMatrix what)
  | construct limit => exact hsteps (.construct trivial)
  | constructAll limit => exact hR.constructAll limit r

theorem Read.Passage.after {R : Reader → Reader → Prop} (hR : Passage R) (ops : List Operation)
    (r : Reader) : R r (r.after ops) := by
  induction ops generalizing r with
  | nil => exact hR.refl r
  | cons op ops ih => exact hR.trans (hR.operation op r) (ih _)

/-! ## What steps keep -/

namespace Source

def Event.char? : Event → Option Char
  | .char c => some c
  | _ => none

def characters (events : List Event) : List Char := events.filterMap Event.char?

theorem characters_append (events events' : List Event) :
    characters (events ++ events') = characters events ++ characters events' :=
  List.filterMap_append

end Source

open Source (characters characters_append)

namespace Reader

/-- From one reader to another the source delivers these events and these characters are passed. -/
structure Moves (r r' : Reader) (delivered : List Event) (passed : List Char) : Prop where
  unread : r.unread = delivered ++ r'.unread
  characters : r.lookahead.toList ++ characters delivered = passed ++ r'.lookahead.toList
  position : r'.position = r.position.past passed
  tokenStart : r'.tokenStart = r.tokenStart ∨
    ∃ start, start <+: passed ∧ r'.tokenStart = r.position.past start

namespace Moves

variable {r r₁ r₂ r₃ : Reader}

theorem refl (r : Reader) : r.Moves r [] [] := ⟨rfl, by simp [Source.characters], rfl, .inl rfl⟩

theorem trans {d d' : List Event} {cs cs' : List Char} (h : r₁.Moves r₂ d cs)
    (h' : r₂.Moves r₃ d' cs') : r₁.Moves r₃ (d ++ d') (cs ++ cs') where
  unread := by rw [h.unread, h'.unread, List.append_assoc]
  characters := by
    rw [characters_append, ← List.append_assoc, h.characters, List.append_assoc, h'.characters,
      List.append_assoc]
  position := by rw [h'.position, h.position, Position.past_append]
  tokenStart := by
    rcases h'.tokenStart with heq | ⟨start, hstart, heq⟩
    · rw [heq]
      refine h.tokenStart.imp id ?_
      rintro ⟨start, hstart, heq⟩
      exact ⟨start, hstart.trans (List.prefix_append cs cs'), heq⟩
    · refine .inr ⟨cs ++ start, (List.prefix_append_right_inj cs).2 hstart, ?_⟩
      rw [heq, h.position, Position.past_append]

theorem mark (r : Reader) : r.Moves { r with tokenStart := r.position } [] [] :=
  { refl r with tokenStart := .inr ⟨[], List.nil_prefix, rfl⟩ }

theorem pass {c : Char} (h : r.lookahead = some c) : r.Moves (r.pass c) [] [c] :=
  ⟨rfl, by rw [h]; rfl, rfl, .inl rfl⟩

theorem peek (r : Reader) : ∃ d, r.Moves (Read.peek r).2 d [] := by
  obtain ⟨unread, lookahead, position, tokenStart⟩ := r
  cases lookahead with
  | some c => exact ⟨[], rfl, rfl, rfl, .inl rfl⟩
  | none =>
    cases unread with
    | nil => exact ⟨[], refl _⟩
    | cons e unread => exact ⟨[e], by cases e <;> exact ⟨rfl, rfl, rfl, .inl rfl⟩⟩

end Moves

theorem passage_moves :
    Read.Passage fun r r' => ∃ delivered passed, r.Moves r' delivered passed where
  refl r := ⟨[], [], .refl r⟩
  trans := by
    rintro _ _ _ ⟨d, cs, h⟩ ⟨d', cs', h'⟩
    exact ⟨_, _, h.trans h'⟩
  mark r := ⟨[], [], .mark r⟩
  peek r := by
    obtain ⟨d, h⟩ := Moves.peek r
    exact ⟨d, [], h⟩
  pass h := ⟨[], _, .pass h⟩

/-! ## What whole runs keep -/

/-- What a reader of these events has received and passed so far, and where it stands. -/
structure Kept (events : List Event) (r : Reader) (delivered : List Event) (consumed : List Char) :
    Prop where
  events_eq : events = delivered ++ r.unread
  characters : consumed ++ r.lookahead.toList = characters delivered
  position : r.position = endOf consumed
  tokenStart : ∃ start, start <+: consumed ∧ r.tokenStart = endOf start
  tokenStart_le : ¬ r.position.Precedes r.tokenStart

theorem kept_of_moves {events delivered : List Event} {consumed : List Char} {r : Reader}
    (h : (ofEvents events).Moves r delivered consumed) : Kept events r delivered consumed := by
  have hposition : r.position = Position.start.past consumed := h.position
  obtain ⟨start, hstart, htoken⟩ :
      ∃ start, start <+: consumed ∧ r.tokenStart = Position.start.past start := by
    rcases h.tokenStart with heq | hstart
    · exact ⟨[], List.nil_prefix, heq⟩
    · exact hstart
  refine ⟨h.unread, h.characters.symm, ?_, ⟨start, hstart, ?_⟩, ?_⟩
  · rw [hposition, Text.past_start]
  · rw [htoken, Text.past_start]
  · obtain ⟨rest, rfl⟩ := hstart
    rw [hposition, htoken]
    exact Position.not_past_append_precedes _ _ _

theorem Moves.tokenStart_le {events delivered delivered' : List Event} {consumed passed : List Char}
    {r r' : Reader} (h : (ofEvents events).Moves r delivered consumed)
    (h' : r.Moves r' delivered' passed) : ¬ r'.tokenStart.Precedes r.tokenStart := by
  rcases h'.tokenStart with heq | ⟨start, -, heq⟩
  · rw [heq]
    exact fun hlt => hlt.ne rfl
  · -- the new place lies behind all that was passed before, the old one does not
    obtain ⟨old, ⟨rest, rfl⟩, hold⟩ := (kept_of_moves h).tokenStart
    have hposition : r.position = Position.start.past (old ++ rest) := h.position
    rw [heq, hold, hposition, ← Text.past_start, ← Position.past_append, List.append_assoc]
    exact Position.not_past_append_precedes _ _ _

/-- Whatever operations a reader is put through, nothing that the source delivers is lost or read
twice, and its places are right. -/
theorem kept_after (events : List Event) (ops : List Operation) :
    (∃ delivered consumed, Kept events ((ofEvents events).after ops) delivered consumed) ∧
      ∀ op : Operation, ¬ (op.action ((ofEvents events).after ops)).2.tokenStart.Precedes
        ((ofEvents events).after ops).tokenStart := by
  obtain ⟨delivered, consumed, h⟩ := passage_moves.after ops (ofEvents events)
  refine ⟨⟨delivered, consumed, kept_of_moves h⟩, fun op => ?_⟩
  obtain ⟨_, _, h'⟩ := passage_moves.operation op ((ofEvents events).after ops)
  exact h.tokenStart_le h'

end Reader

end SolidScene
