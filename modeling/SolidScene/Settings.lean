import SolidScene.Json.Value

/-!
# Settings

The settings of the command line, and the JSON text that keeps them. A setting left out has its
default.
-/

namespace SolidScene

structure Settings where
  /-- How deep expressions may nest. -/
  maxDepth : Nat
  logFilter : String
  /-- The places of the numbers that are printed. -/
  precision : Nat
deriving Repr, DecidableEq

namespace Settings

def default : Settings := ⟨256, "warn", 6⟩

/-- A setting as `read` takes it from its value, or the default where it is left out. -/
def orDefault {α : Type} (read : Json → Option α) (default : α) : Option Json → Option α
  | none => some default
  | some value => read value

/-- The nesting limit from the settings for reading. -/
def maxDepthOfJson? (json : Json) : Option Nat :=
  match Json.fields? ["max_depth"] json with
  | some [maxDepth] => orDefault Json.word? default.maxDepth maxDepth
  | _ => none

def ofJson? (json : Json) : Option Settings :=
  match Json.fields? ["parser", "log_filter", "precision"] json with
  | some [parser, logFilter, precision] => do
    let maxDepth ← orDefault maxDepthOfJson? default.maxDepth parser
    let logFilter ← orDefault Json.text? default.logFilter logFilter
    let precision ← orDefault Json.word? default.precision precision
    return ⟨maxDepth, logFilter, precision⟩
  | _ => none

def parse? (text : String) : Option Settings := (Json.parse? text).bind ofJson?

/-- The text that keeps the settings. -/
def text (s : Settings) : String :=
  String.ofList <| Json.objectText
    [("parser", Json.objectText [("max_depth", Nat.toDigits 10 s.maxDepth)]),
      ("log_filter", Json.quote s.logFilter),
      ("precision", Nat.toDigits 10 s.precision)]

inductive LoadError where
  | unreadable (place cause : String)
  /-- The file holds something else. -/
  | invalid (place : String)
deriving Repr, DecidableEq

end Settings

end SolidScene
