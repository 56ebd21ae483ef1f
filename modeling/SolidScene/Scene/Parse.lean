import SolidScene.Scene.Progress

/-!
# Scenes from sources

A source holds one scene, or any number of them one after another.
-/

namespace SolidScene

open Source (Event)

namespace Read

/-- Reading an expression after a look ahead leaves less to come. -/
theorem remaining_lt_of_construct {limit : Nat} {r r₁ r₂ : Reader} {next : Option Char}
    {scene : Scene} (hp : peekChar r = (.ok next, r₁))
    (hc : construct limit r₁ = (.ok scene, r₂)) : r₂.remaining < r.remaining := by
  have h₁ := Stepwise.neverGrows .peekChar r
  rw [hp] at h₁
  exact Nat.lt_of_lt_of_le (construct_progresses limit _ _ _ hc) h₁

/-- Reads expressions to the end of the input. -/
def readAll (limit : Nat) (r : Reader) : Except SceneError (List Scene) × Reader :=
  match hp : peekChar r with
  | (.error e, r₁) => (.error e, r₁)
  | (.ok none, r₁) => (.ok [], r₁)
  | (.ok (some _), r₁) =>
    match hc : construct limit r₁ with
    | (.error e, r₂) => (.error e, r₂)
    | (.ok scene, r₂) =>
      have : r₂.remaining < r.remaining := remaining_lt_of_construct hp hc
      let (rest, r₃) := readAll limit r₂
      (rest.map (scene :: ·), r₃)
termination_by r.remaining

/-- Reading to the end as a sequence of actions. -/
theorem readAll_eq (limit : Nat) : (readAll limit : Read (List Scene)) = peekChar >>= fun
    | none => pure []
    | some _ => construct limit >>= fun s => readAll limit >>= fun ss => pure (s :: ss) := by
  funext r
  rw [readAll]
  split
  · exact (bind_of_error ‹_› _).symm
  · refine Eq.trans ?_ (bind_of_ok ‹_› _).symm
    rfl
  · refine Eq.trans ?_ (bind_of_ok ‹_› _).symm
    split
    · exact (bind_of_error ‹_› _).symm
    · rename_i s r₂ hread
      refine Eq.trans ?_ (bind_of_ok hread _).symm
      rcases hrest : readAll limit r₂ with ⟨_ | ss, r₃⟩
      · exact (bind_of_error hrest _).symm
      · refine Eq.trans ?_ (bind_of_ok hrest _).symm
        rfl

/-- Reads expressions to the end of the input. -/
def constructAll (limit : Nat) : Read (List Scene) := readAll limit

/-- Reads a source that holds one expression and nothing else. -/
def whole (limit : Nat) : Read Scene := do
  let scene ← construct limit
  expectEnd
  return scene

end Read

namespace Scene

def ofEvents (limit : Nat) (events : List Event) : Except SceneError Scene :=
  (Read.whole limit (.ofEvents events)).1

/-- The scenes that a source holds one after another. -/
def manyOfEvents (limit : Nat) (events : List Event) : Except SceneError (List Scene) :=
  (Read.constructAll limit (.ofEvents events)).1

def parse (limit : Nat) (text : String) : Except SceneError Scene :=
  ofEvents limit (Source.ofText text)

/-- The scenes that a text describes one after another. -/
def parseMany (limit : Nat) (text : String) : Except SceneError (List Scene) :=
  manyOfEvents limit (Source.ofText text)

end Scene

end SolidScene
