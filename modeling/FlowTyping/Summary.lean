import FlowTyping.Fixture
import FlowTyping.Form.Tables
import FlowTyping.Text.Style

/-!
# Writing summaries

The outcome of an analysis for a reader, line by line, and as JSON.
-/

namespace FlowTyping

open Text

/-- A diagnostic as one line: where it is, its key and its arguments. -/
def Diagnostic.line (d : Diagnostic) : String :=
  let place := match d.tree with
    | some tree => tree.text
    | none => "-"
  "  " ++ place ++ " " ++ d.key ++ " [" ++ ", ".intercalate d.args ++ "]"

def Diagnostic.toJson (d : Diagnostic) : Json :=
  .object [("tree", Json.ofOption TreeId.toJson d.tree), ("key", .string d.key),
    ("args", Json.ofList .string d.args)]

namespace Summary

/-- The first line: whether a fixpoint was reached, and after how many visits. -/
def headline (s : Summary) (colours : Bool) : String :=
  if s.converged then
    styled colours .bold (some .green) "converged" ++ " after " ++ toString s.iterations ++
      " iterations"
  else
    styled colours .bold (some .yellow) "stopped" ++ " after " ++ toString s.iterations ++
      " iterations without reaching a fixpoint"

def blockLines (colours : Bool) (entry : BlockId × List String) : List String :=
  styled colours .bold none entry.1.text ::
    if entry.2.isEmpty then [styled colours .dimmed none "  (nothing known)"]
    else entry.2.map ("  " ++ ·)

/-- A titled list with its length, left out when it is empty. -/
def titled (colours : Bool) (color : Color) (title : String) (lines : List String) :
    List String :=
  if lines.isEmpty then []
  else (styled colours .bold (some color) title ++ " (" ++ toString lines.length ++ ")") :: lines

def render (s : Summary) (colours : Bool) : String :=
  "\n".intercalate <|
    s.headline colours :: (s.stores.flatMap (blockLines colours) ++
      titled colours .red "diagnostics" (s.diagnostics.map (·.line)) ++
      titled colours .cyan "observations" (s.observations.map ("  " ++ ·)))

/-- The outcome as JSON, with one member for each block. -/
def toJson (s : Summary) : Json :=
  .object [("converged", .bool s.converged), ("iterations", .integer s.iterations),
    ("stores", .object (s.stores.map fun e => (e.1.text, Json.ofList .string e.2))),
    ("diagnostics", Json.ofList Diagnostic.toJson s.diagnostics),
    ("observations", Json.ofList .string s.observations)]

end Summary

end FlowTyping
