import SolidScene.CommandLine.Arguments
import SolidScene.Scene.Canonical
import SolidScene.Scene.Parse
import SolidScene.Settings
import SolidScene.Solid.Bounds
import SolidScene.Solid.Outline
import SolidScene.Source.Utf8

/-!
# Commands

What the command line does: it loads the settings, reads one scene, and prints an answer about it.
A failure prints no answer. It ends with a report, or with a note that numbers cannot be printed
with so many places.
-/

namespace SolidScene.CommandLine

open Source (Signal)

/-- What the command line can read. -/
structure Surroundings where
  stdin : List Signal
  /-- The contents of the file at a place, or why it cannot be opened. -/
  file : String → Except String (List Signal)
  /-- The text of the file at a place, or why it cannot be read. -/
  textFile : String → Except String String
  /-- The place of the usual settings file, if there is one, whether or not it can be read. -/
  usualSettings : Option String

/-- Why a command failed: what could not be done, and the causes behind it. -/
structure Report where
  summary : String
  causes : List String
deriving Repr, DecidableEq

namespace Report

/-- A text whose further lines begin with an indent. -/
def hang (indent text : String) : String := ("\n" ++ indent).intercalate (text.splitOn "\n")

def numbered (cause : String) (n : Nat) : String := s!"    {n}: " ++ hang "       " cause

/-- The causes below the summary. A single cause has no number. -/
def causeLines : List String → List String
  | [cause] => ["    " ++ hang "    " cause]
  | causes => causes.zipIdx.map fun (cause, n) => numbered cause n

def message (r : Report) : String :=
  let lines := ("Error: " ++ r.summary) ::
    if r.causes.isEmpty then [] else "" :: "Caused by:" :: causeLines r.causes
  "\n".intercalate lines ++ "\n"

end Report

/-- The causes that a scene error stands for: itself, and a failure of the source behind it. -/
def causesOf : SceneError → List String
  | .unreadable cause => [(SceneError.unreadable cause).message, cause]
  | e => [e.message]

/-- Whether a place is the standard input: a dash, be it with empty steps behind it. -/
def isStdin (place : String) : Bool :=
  match place.splitOn "/" with
  | "-" :: steps => steps.all fun step => step = "" || step = "."
  | _ => false

/-- The place of a name in a directory. -/
def placeIn (directory name : String) : String :=
  if directory.endsWith "/" then directory ++ name else directory ++ "/" ++ name

/-- Where the usual settings are: in the directory for configuration, which is `.config` at home
unless an absolute one is given. -/
def usualPlace? (configuration home : Option String) : Option String :=
  let atHome := (home.filter (· ≠ "")).map (placeIn · ".config")
  (configuration.filter (·.startsWith "/") <|> atHome).map fun directory =>
    placeIn (placeIn directory "solidscene") "settings.json"

def readSettings (s : Surroundings) (place : String) : Except Settings.LoadError Settings :=
  match s.textFile place with
  | .error cause => .error (.unreadable place cause)
  | .ok text =>
    match Settings.parse? text with
    | some settings => .ok settings
    | none => .error (.invalid place)

/-- The settings that a command goes by: from the file that is asked for, or else from the usual
one, where there is one. -/
def loadSettings (s : Surroundings) (config : Option String) : Except Settings.LoadError Settings :=
  match config <|> s.usualSettings with
  | some place => readSettings s place
  | none => .ok .default

def Report.ofLoadError : Settings.LoadError → Report
  | .unreadable place cause => ⟨s!"Failed to read settings file {place}", [cause]⟩
  | .invalid place => ⟨s!"Invalid settings file {place}", ["the text holds no settings"]⟩

def loadScene (s : Surroundings) (limit : Nat) (place : String) : Except Report Scene := do
  let (name, signals) ←
    if isStdin place then pure ("<stdin>", s.stdin)
    else match s.file place with
      | .ok signals => pure (place, signals)
      | .error cause => .error ⟨s!"Failed to open {place}", [cause]⟩
  match Scene.ofEvents limit (Source.decode signals) with
  | .ok scene => return scene
  | .error e => .error ⟨s!"Failed to parse {name}", causesOf e⟩

/-- The most places that a number is printed with. -/
def maxPlaces : Nat := 65535

def fixedText (precision : Nat) (x : Float) : String := String.ofList (Number.fixed precision x)

def fixedVector (precision : Nat) (v : Vec3 Float) : String :=
  " ".intercalate (v.toList.map (fixedText precision))

/-- Whether a command prints numbers with a set number of places. -/
def Command.printsPlaces : Command → Bool
  | .eval _ | .bounds => true
  | .check | .tree _ => false

/-- What a command prints about a scene. -/
def Command.answer (precision : Nat) (scene : Scene) : Command → String
  | .check => s!"ok: {scene.nodeCount} nodes, depth {scene.depth}\n"
  | .tree true => scene.outline
  | .tree false => scene.text ++ "\n"
  | .eval point => fixedText precision (scene.distance point) ++ "\n"
  | .bounds =>
    let b := scene.bounds
    s!"min {fixedVector precision b.lower}\nmax {fixedVector precision b.upper}\n"

inductive Failure where
  /-- What it works on is not as it should be. -/
  | reported (report : Report)
  /-- Numbers are to be printed with more places than they can be. -/
  | tooManyPlaces (precision : Nat)
deriving Repr, DecidableEq

/-- What an invocation prints, or why it fails. The places matter only to a command that prints
them, and only once there is a scene. -/
def Invocation.answer (s : Surroundings) (i : Invocation) : Except Failure String := do
  let settings ← (loadSettings s i.config).mapError fun e => .reported (.ofLoadError e)
  let scene ← (loadScene s (i.maxDepth.getD settings.maxDepth) i.input).mapError .reported
  if i.command.printsPlaces ∧ maxPlaces < settings.precision then
    throw (.tooManyPlaces settings.precision)
  else return i.command.answer settings.precision scene

structure Outcome where
  code : Nat
  stdout : String
  stderr : String
deriving Repr, DecidableEq

def usage : String :=
  "\n".intercalate
    ["Usage: solidscene [--max-depth N] [--config PATH] [--verbose] COMMAND SCENE", "",
      "Commands:",
      "  check   read a scene and report its size",
      "  tree    print the scene, or with --outline its structure",
      "  eval    print the signed distance from --point X Y Z",
      "  bounds  print the bounding box", ""]

def run (s : Surroundings) (arguments : List String) : Outcome :=
  match Invocation.ofArguments arguments with
  | .error .information => ⟨0, usage, ""⟩
  | .error .usage => ⟨2, "", usage⟩
  | .ok invocation =>
    match invocation.answer s with
    | .ok text => ⟨0, text, ""⟩
    | .error (.reported report) => ⟨1, "", report.message⟩
    | .error (.tooManyPlaces precision) =>
      ⟨101, "", s!"a number cannot be printed with {precision} places\n"⟩

end SolidScene.CommandLine
