import SolidScene.Scene.Expression

/-!
# Actions made of steps

Every action that reads a part of an expression is put together from the same few steps on a reader
(`Stepwise`). So what single steps preserve holds of whole actions: one induction over the steps
takes the place of a proof for each action.
-/

namespace SolidScene.Read

open Text (Position)

variable {α β : Type}

theorem bind_apply (x : Read α) (f : α → Read β) (r : Reader) :
    (x >>= f) r = match x r with
      | (.ok a, r') => f a r'
      | (.error e, r') => (.error e, r') := rfl

theorem bind_of_ok {x : Read α} {r r' : Reader} {a : α} (h : x r = (.ok a, r'))
    (f : α → Read β) : (x >>= f) r = f a r' := by
  rw [bind_apply, h]

theorem bind_of_error {x : Read α} {r r' : Reader} {e : SceneError} (h : x r = (.error e, r'))
    (f : α → Read β) : (x >>= f) r = (.error e, r') := by
  rw [bind_apply, h]

theorem bind_eq_ok {x : Read α} {f : α → Read β} {r r' : Reader} {b : β}
    (h : (x >>= f) r = (.ok b, r')) : ∃ a r₁, x r = (.ok a, r₁) ∧ f a r₁ = (.ok b, r') := by
  rw [bind_apply] at h
  split at h
  · exact ⟨_, _, ‹_›, h⟩
  · cases h

theorem pure_apply (a : α) (r : Reader) : (pure a : Read α) r = (.ok a, r) := rfl

/-- The actions that are made of single steps. They find nesting too deep only for the limits in
`limits`. -/
inductive Stepwise (limits : Nat → Prop) : {α : Type} → Read α → Prop
  | pure {α : Type} (a : α) : Stepwise limits (pure a)
  | bind {α β : Type} {x : Read α} {f : α → Read β} (hx : Stepwise limits x)
    (hf : ∀ a, Stepwise limits (f a)) : Stepwise limits (x >>= f)
  | reject {α : Type} (fault : Fault) (at_ : Position) :
    Stepwise limits (reject fault at_ : Read α)
  | withFault {α : Type} {x : Read α} (fault : Fault) (hx : Stepwise limits x) :
    Stepwise limits (withFault fault x)
  | position : Stepwise limits position
  | tokenStart : Stepwise limits tokenStart
  | mark : Stepwise limits mark
  | peek : Stepwise limits peek
  | bump : Stepwise limits bump
  | takeWhile (p : Char → Bool) : Stepwise limits (takeWhile p)
  | tooDeep {α : Type} {limit : Nat} (h : limits limit) :
    Stepwise limits (Read.position >>= fun at_ => fail (.tooDeep limit at_) : Read α)

namespace Stepwise

variable {limits : Nat → Prop}

theorem skipBlanks : Stepwise limits skipBlanks := .bind (.takeWhile _) fun _ => .pure _

theorem peekChar : Stepwise limits peekChar := .bind .skipBlanks fun _ => .peek

theorem readChar : Stepwise limits readChar :=
  .bind .skipBlanks fun _ => .bind .mark fun _ => .bump

theorem readToken (what : String) : Stepwise limits (readToken what) := by
  refine .bind .skipBlanks fun _ => .bind .mark fun start => .bind (.takeWhile _) fun word => ?_
  split
  · refine .bind .peek fun next => ?_
    cases next <;> exact .reject _ _
  · exact .pure _

theorem readNumber (what : String) : Stepwise limits (readNumber what) := by
  refine .bind (.readToken what) fun token => ?_
  split
  · exact .pure _
  · exact .reject _ _

theorem readVector (what : String) : Stepwise limits (readVector what) :=
  .bind (.readNumber _) fun _ => .bind (.readNumber _) fun _ => .bind (.readNumber _) fun _ =>
    .pure _

theorem readRow (what : String) : Stepwise limits (readRow what) :=
  .bind (.readNumber _) fun _ => .bind (.readNumber _) fun _ => .bind (.readNumber _) fun _ =>
    .bind (.readNumber _) fun _ => .pure _

theorem readLastRow (what : String) : Stepwise limits (readLastRow what) := by
  refine .bind .peekChar fun next => ?_
  split
  · exact .pure _
  · exact .readRow _

theorem readMatrix (what : String) : Stepwise limits (readMatrix what) :=
  .bind (.readRow _) fun _ => .bind (.readRow _) fun _ => .bind (.readRow _) fun _ =>
    .bind (.readLastRow _) fun _ => .pure _

theorem expectChar (c : Char) (fault : Fault) : Stepwise limits (expectChar c fault) := by
  refine .bind .readChar fun next => ?_
  split
  · exact .pure _
  · exact .bind .tokenStart fun _ => .reject _ _

theorem expectEnd : Stepwise limits expectEnd := by
  refine .bind .peekChar fun next => ?_
  cases next with
  | none => exact .pure _
  | some => exact .bind .position fun _ => .reject _ _

theorem readNonNegative (what : String) : Stepwise limits (readNonNegative what) := by
  refine .bind (.readNumber what) fun x => ?_
  split
  · exact .bind .tokenStart fun _ => .reject _ _
  · exact .pure _

theorem readName : Stepwise limits readName := by
  refine .bind .readChar fun next => ?_
  split
  · exact .bind .tokenStart fun _ => .reject _ _
  · refine .bind (.readToken _) fun token => ?_
    split
    · exact .pure _
    · exact .reject _ _

theorem readObject (name : ObjectName) : Stepwise limits (readObject name) := by
  cases name with
  | sphere | cube =>
    exact .bind (.readVector _) fun _ => .bind (.readNonNegative _) fun _ => .pure _
  | torus | cylinder =>
    exact .bind (.readVector _) fun _ => .bind (.readNonNegative _) fun _ =>
      .bind (.readNonNegative _) fun _ => .pure _
  | box =>
    refine .bind (.readVector _) fun _ => .bind (.readVector _) fun size => ?_
    split
    · exact .bind .tokenStart fun _ => .reject _ _
    · exact .pure _
  | plane =>
    refine .bind (.readVector _) fun _ => .bind (.readVector _) fun normal => ?_
    split
    · exact .pure _
    · exact .bind .tokenStart fun _ => .reject _ _

theorem readCombiner : Stepwise limits readCombiner := by
  refine .bind (.withFault _ (.readToken _)) fun token => ?_
  split
  · exact .pure _
  · exact .reject _ _

theorem readOperation {child : Read Scene} (h : Stepwise limits child) (name : OperationName) :
    Stepwise limits (readOperation child name) := by
  cases name with
  | boolean => exact .bind .readCombiner fun _ => .bind h fun _ => .bind h fun _ => .pure _
  | duplicate => exact .bind (.readVector _) fun _ => .bind h fun _ => .pure _
  | matrix =>
    refine .bind (.readMatrix _) fun matrix => ?_
    split
    · exact .bind h fun _ => .pure _
    · exact .bind .tokenStart fun _ => .reject _ _
  | scale =>
    refine .bind (.readNumber _) fun factor => ?_
    split
    · exact .bind .tokenStart fun _ => .reject _ _
    · exact .bind h fun _ => .pure _

theorem readBody {child : Read Scene} (h : Stepwise limits child) :
    ∀ name, Stepwise limits (readBody child name)
  | .object name => .readObject name
  | .operation name => .readOperation h name

theorem expression {limit : Nat} (h : limits limit) :
    ∀ room, Stepwise limits (expression limit room)
  | 0 => .bind .peekChar fun _ => .tooDeep h
  | room + 1 => .bind (.expectChar _ _) fun _ => .bind .readName fun name =>
      .bind (.readBody (.expression h room) name) fun _ =>
        .bind (.expectChar _ _) fun _ => .pure _

theorem construct {limit : Nat} (h : limits limit) : Stepwise limits (construct limit) :=
  .expression h limit

end Stepwise

end SolidScene.Read
