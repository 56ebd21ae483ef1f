import SolidScene.Number.Literal
import SolidScene.Geometry.Vector

/-!
# Arguments

The command line takes a command, the place of a scene, and options. Options that concern every
command may stand before or after the command. An option with values takes them from the arguments
behind it, and an option of one value may be joined to it by an equals sign. Letters of options may
stand together behind one dash. After `--` every argument is a place.
-/

namespace SolidScene.CommandLine

inductive Flag where
  | maxDepth
  | config
  | verbose
  | outline
  | point
  | help
  | version
deriving Repr, DecidableEq

def Flag.arity : Flag → Nat
  | .maxDepth | .config => 1
  | .point => 3
  | _ => 0

inductive CommandName where
  | check
  | tree
  | eval
  | bounds
deriving Repr, DecidableEq

def CommandName.words : List (String × CommandName) :=
  [("check", .check), ("tree", .tree), ("eval", .eval), ("bounds", .bounds)]

/-- The options that may follow a command, or stand before it where there is none yet. -/
def flagsOf : Option CommandName → List Flag
  | none => [.maxDepth, .config, .verbose, .help, .version]
  | some .tree => [.maxDepth, .config, .verbose, .help, .outline]
  | some .eval => [.maxDepth, .config, .verbose, .help, .point]
  | some _ => [.maxDepth, .config, .verbose, .help]

def longNames : List (String × Flag) :=
  [("max-depth", .maxDepth), ("config", .config), ("verbose", .verbose), ("outline", .outline),
    ("point", .point), ("help", .help), ("version", .version)]

def letters : List (Char × Flag) :=
  [('v', .verbose), ('p', .point), ('h', .help), ('V', .version)]

inductive Command where
  | check
  | tree (outline : Bool)
  | eval (point : Vec3 Float)
  | bounds
deriving Repr, DecidableEq

/-- A command, the place of its scene, and the options that concern every command. -/
structure Invocation where
  command : Command
  input : String
  maxDepth : Option Nat
  config : Option String
deriving Repr, DecidableEq

/-- Why a command line asks for nothing to be done. -/
inductive Stop where
  /-- It asks for help or for the version. -/
  | information
  /-- It cannot be understood. -/
  | usage
deriving Repr, DecidableEq

/-- What has been given on one side of the command. -/
structure Given where
  maxDepth : Option Nat
  config : Option String
  verbose : Bool
  outline : Bool
  /-- The values of all points, one after another. -/
  point : List Float
  input : Option String
  /-- An option that was named last, with the values it has so far. -/
  pending : Option (Flag × List String)

def Given.nothing : Given := ⟨none, none, false, false, [], none, none⟩

/-- A whole number of 64 bits. -/
def word? (text : String) : Option Nat :=
  let digits := match text.toList with
    | '+' :: cs => cs
    | cs => cs
  match Number.digits? digits with
  | some n => if n < UInt64.size then some n else none
  | none => none

/-- A place, which has to be named. -/
def place? (text : String) : Option String := if text.isEmpty then none else some text

namespace Given

/-- Takes an option with all its values. Only points may be given more than once. -/
def take? (g : Given) : Flag → List String → Option Given
  | .maxDepth, [text] => do
    let n ← word? text
    if g.maxDepth.isSome then none else some { g with maxDepth := some n }
  | .config, [text] => do
    let path ← place? text
    if g.config.isSome then none else some { g with config := some path }
  | .point, [x, y, z] => do
    let values ← [x, y, z].mapM fun text => Number.ofChars? text.toList
    some { g with point := g.point ++ values }
  | .verbose, [] => if g.verbose then none else some { g with verbose := true }
  | .outline, [] => if g.outline then none else some { g with outline := true }
  | _, _ => none

/-- Takes the option that was named last, which has to have all its values by now. -/
def settle? (g : Given) : Option Given :=
  match g.pending with
  | none => some g
  | some (flag, values) => { g with pending := none }.take? flag values

def waiting? (g : Given) : Option (Flag × List String) :=
  g.pending.filter fun (flag, values) => values.length < flag.arity

/-- Takes a place, whatever it looks like. A scene has one place. -/
def input? (g : Given) (text : String) : Option Given := do
  let g ← g.settle?
  let path ← place? text
  if g.input.isSome then none else some { g with input := some path }

/-- Takes a value for the option that waits for one, or else a place. -/
def value? (g : Given) (text : String) : Option Given :=
  match g.waiting? with
  | some (flag, values) => some { g with pending := some (flag, values ++ [text]) }
  | none => g.input? text

end Given

/-- What is there, or a stop because the line cannot be understood. -/
def orUsage {α : Type} : Option α → Except Stop α
  | some a => .ok a
  | none => .error .usage

/-- Takes the name of an option, with a value where one is joined to it. -/
def takeName (g : Given) (flag : Flag) (joined : Option String) : Except Stop Given := do
  let g ← orUsage g.settle?
  match joined with
  | some text => if flag.arity = 1 then orUsage (g.take? flag [text]) else .error .usage
  | none =>
    if flag = .help ∨ flag = .version then .error .information
    else if flag.arity = 0 then orUsage (g.take? flag [])
    else return { g with pending := some (flag, []) }

/-- Whether the characters behind a minus sign make it the sign of a number: digits, a point that
is not the first, and a power of ten without a sign behind an `e` of either case. -/
def isNumeral (cs : List Char) : Bool :=
  let (whole, rest) := Number.spanDigits cs
  let rest := match rest with
    | '.' :: cs => if whole.isEmpty then rest else (Number.spanDigits cs).2
    | _ => rest
  match rest with
  | [] => true
  | c :: cs => c.toLower = 'e' && !whole.isEmpty && !cs.isEmpty && cs.all Char.isDigit

/-- Takes a cluster of letters behind a dash. A letter whose option has values stands last. -/
def takeLetters (flags : List Flag) : List Char → Given → Except Stop Given
  | [], g => .ok g
  | c :: rest, g => do
    let flag ← orUsage ((letters.lookup c).filter flags.contains)
    if flag.arity = 0 ∨ rest.isEmpty then
      let g ← takeName g flag none
      takeLetters flags rest g
    else .error .usage

/-- The name of a long option and the value joined to it. -/
def splitLong (cs : List Char) : String × Option String :=
  let name := String.ofList (cs.takeWhile (· != '='))
  match cs.dropWhile (· != '=') with
  | [] => (name, none)
  | _ :: value => (name, some (String.ofList value))

/-- Takes a value or a place. There is no place before the command. -/
def takeValue (command : Option CommandName) (g : Given) (text : String) : Except Stop Given :=
  if command.isNone ∧ g.waiting?.isNone then .error .usage else orUsage (g.value? text)

def awaitsNumber (g : Given) : Bool :=
  match g.waiting? with
  | some (.point, _) => true
  | _ => false

/-- Takes one argument before `--`. -/
def takeArgument (command : Option CommandName) (g : Given) (text : String) :
    Except Stop Given :=
  match text.toList with
  | '-' :: '-' :: cs => do
    let (name, joined) := splitLong cs
    let flag ← orUsage ((longNames.lookup name).filter (flagsOf command).contains)
    takeName g flag joined
  | '-' :: c :: cs =>
    if awaitsNumber g && isNumeral (c :: cs) then takeValue command g text
    else takeLetters (flagsOf command) (c :: cs) g
  | _ => takeValue command g text

def takeAll (command : CommandName) : List String → Given → Except Stop Given
  | [], g => orUsage g.settle?
  | text :: rest, g =>
    if text = "--" then orUsage ((rest.foldlM Given.input? g).bind Given.settle?)
    else do
      let g ← takeArgument (some command) g text
      takeAll command rest g

/-- The command with what has been given behind it, if nothing is missing. -/
def command? (g : Given) : CommandName → Option Command
  | .check => some .check
  | .tree => some (.tree g.outline)
  | .eval =>
    match g.point with
    | x :: y :: z :: _ => some (.eval ⟨x, y, z⟩)
    | _ => none
  | .bounds => some .bounds

/-- The invocation by a command, from what is given before and behind it. What stands behind the
command has precedence. -/
def invocation? (name : CommandName) (before behind : Given) : Option Invocation := do
  let command ← command? behind name
  let input ← behind.input
  let before ← before.settle?
  return ⟨command, input, behind.maxDepth <|> before.maxDepth, behind.config <|> before.config⟩

/-- A request for help on at most one command. -/
def helpStop : List String → Stop
  | [] => .information
  | [text] =>
    if text = "help" || (CommandName.words.lookup text).isSome then .information else .usage
  | _ => .usage

/-- Takes the arguments up to the command, then those behind it. -/
def takeBefore : List String → Given → Except Stop Invocation
  | [], _ => .error .usage
  | text :: rest, before =>
    let named := if before.waiting?.isNone then CommandName.words.lookup text else none
    match named with
    | some name => do
      let behind ← takeAll name rest .nothing
      orUsage (invocation? name before behind)
    | none =>
      if text = "help" ∧ before.waiting?.isNone then .error (helpStop rest)
      else if text = "--" then .error .usage
      else do
        let before ← takeArgument none before text
        takeBefore rest before

def Invocation.ofArguments (arguments : List String) : Except Stop Invocation :=
  takeBefore arguments .nothing

end SolidScene.CommandLine
