import SolidScene.Solid.Basic

/-!
# Outlines

The structure of a solid, one line per node, children two spaces further in than their parent.
-/

namespace SolidScene.Solid

variable {α : Type}

/-- The label of a node in an outline: its kind, and the combiner where there is one. -/
def label : Solid α → String
  | .boolean combiner _ _ => s!"boolean {combiner.keyword}"
  | s => s.kind

/-- The lines of an outline, each with the level it stands at. -/
def outlineLines (level : Nat) (s : Solid α) : List (Nat × String) :=
  (level, s.label) :: match s with
    | .boolean _ a b => outlineLines (level + 1) a ++ outlineLines (level + 1) b
    | .duplicate _ inner | .placed _ inner | .scaled _ inner => outlineLines (level + 1) inner
    | _ => []

def indented (level : Nat) (line : String) : List Char :=
  List.replicate (2 * level) ' ' ++ line.toList ++ ['\n']

def outline (s : Solid α) : String :=
  String.ofList ((s.outlineLines 0).flatMap fun (level, line) => indented level line)

end SolidScene.Solid
