import SolidScene.Scene.Parse

/-!
# Stages of reading

An expression is read from lexeme to lexeme, and what may come next depends on the stage
(`Stage`). Every action that reads a part of an expression is put together from actions on single
lexemes that lead from one stage to another (`Staged.expression`). So to compare two readings it is
enough to compare these actions.
-/

namespace SolidScene.Read

open Text (Position)

/-- How far a reading has come. -/
inductive Stage where
  /-- Before a lexeme, and nothing was marked yet. -/
  | fresh
  /-- Before a lexeme, behind the one that was marked last. -/
  | between
  /-- Behind an opening bracket. -/
  | opened
  /-- Behind a name. -/
  | named (name : Name)

def Stage.marked : Stage → Bool
  | fresh => false
  | _ => true

/-- The actions that go from lexeme to lexeme and lead from one stage to another. -/
inductive Staged : Stage → Stage → {α : Type} → Read α → Prop
  | pure {s : Stage} {α : Type} (a : α) : Staged s s (pure a)
  | bind {s t u : Stage} {α β : Type} {x : Read α} {f : α → Read β} (hx : Staged s t x)
    (hf : ∀ a, Staged t u (f a)) : Staged s u (x >>= f)
  | unmarked {t : Stage} {α : Type} {x : Read α} (h : Staged .fresh t x) : Staged .between t x
  | unnamed {t : Stage} {α : Type} {x : Read α} {name : Name} (hname : name ≠ .operation .boolean)
    (h : Staged .between t x) : Staged (.named name) t x
  | rejectAtStart {t : Stage} {α : Type} (fault : Fault) :
    Staged .between t (tokenStart >>= fun at_ => reject fault at_ : Read α)
  | tooDeep {t : Stage} {α : Type} (limit : Nat) : Staged .fresh t
    (peekChar >>= fun _ => position >>= fun at_ => fail (.tooDeep limit at_) : Read α)
  | ifOpening {t : Stage} {α : Type} {x y : Read α} (hx : Staged .between t x)
    (hy : Staged .between t y) :
    Staged .between t (peekChar >>= fun next => if next = some '[' then x else y)
  | expectOpening (fault : Fault) : Staged .fresh .opened (expectChar '[' fault)
  | expectClosing (fault : Fault) : Staged .between .between (expectChar ']' fault)
  | expectEnd : Staged .between .between expectEnd
  | readName {t : Stage} {α : Type} {f : Name → Read α}
    (hf : ∀ name, Staged (.named name) t (f name)) : Staged .opened t (readName >>= f)
  | readNumber (what : String) : Staged .between .between (readNumber what)
  | readCombiner : Staged (.named (.operation .boolean)) .between readCombiner

namespace Staged

theorem readVector (what : String) : Staged .between .between (readVector what) :=
  .bind (.readNumber what) fun _ => .bind (.readNumber what) fun _ =>
    .bind (.readNumber what) fun _ => .pure _

theorem readRow (what : String) : Staged .between .between (readRow what) :=
  .bind (.readNumber what) fun _ => .bind (.readNumber what) fun _ =>
    .bind (.readNumber what) fun _ => .bind (.readNumber what) fun _ => .pure _

theorem readMatrix (what : String) : Staged .between .between (readMatrix what) :=
  .bind (.readRow what) fun _ => .bind (.readRow what) fun _ => .bind (.readRow what) fun _ =>
    .bind (.ifOpening (.pure _) (.readRow what)) fun _ => .pure _

theorem readNonNegative (what : String) : Staged .between .between (readNonNegative what) := by
  refine .bind (.readNumber what) fun x => ?_
  split
  · exact .rejectAtStart _
  · exact .pure _

theorem readObject (name : ObjectName) : Staged .between .between (readObject name) := by
  cases name with
  | sphere | cube =>
    exact .bind (.readVector _) fun _ => .bind (.readNonNegative _) fun _ => .pure _
  | torus | cylinder =>
    exact .bind (.readVector _) fun _ => .bind (.readNonNegative _) fun _ =>
      .bind (.readNonNegative _) fun _ => .pure _
  | box =>
    refine .bind (.readVector _) fun _ => .bind (.readVector _) fun size => ?_
    split
    · exact .rejectAtStart _
    · exact .pure _
  | plane =>
    refine .bind (.readVector _) fun _ => .bind (.readVector _) fun normal => ?_
    split
    · exact .pure _
    · exact .rejectAtStart _

theorem readOperation {child : Read Scene} (h : Staged .between .between child)
    (name : OperationName) :
    Staged (.named (.operation name)) .between (readOperation child name) := by
  cases name with
  | boolean => exact .bind .readCombiner fun _ => .bind h fun _ => .bind h fun _ => .pure _
  | duplicate =>
    exact .unnamed nofun (.bind (.readVector _) fun _ => .bind h fun _ => .pure _)
  | matrix =>
    refine .unnamed nofun (.bind (.readMatrix _) fun matrix => ?_)
    split
    · exact .bind h fun _ => .pure _
    · exact .rejectAtStart _
  | scale =>
    refine .unnamed nofun (.bind (.readNumber _) fun factor => ?_)
    split
    · exact .rejectAtStart _
    · exact .bind h fun _ => .pure _

theorem readBody {child : Read Scene} (h : Staged .between .between child) :
    ∀ name, Staged (.named name) .between (readBody child name)
  | .object name => .unnamed nofun (.readObject name)
  | .operation name => .readOperation h name

theorem expression (limit : Nat) : ∀ room, Staged .fresh .between (expression limit room)
  | 0 => .tooDeep limit
  | room + 1 => .bind (.expectOpening _) fun _ => .readName fun name =>
      .bind (.readBody (.unmarked (expression limit room)) name) fun _ =>
        .bind (.expectClosing _) fun _ => .pure _

theorem construct (limit : Nat) : Staged .fresh .between (construct limit) := expression limit limit

theorem whole (limit : Nat) : Staged .fresh .between (whole limit) :=
  .bind (.construct limit) fun _ => .bind .expectEnd fun _ => .pure _

end Staged

end SolidScene.Read
