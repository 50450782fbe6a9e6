import FlowTyping.Fixture
import FlowTyping.Form.Config
import FlowTyping.Form.Graph
import FlowTyping.Form.Tables

/-!
# The JSON form of fixtures

`Fixture.ofText?` reads a saved fixture.
-/

namespace FlowTyping

open Json

def Fixture.toJson (f : Fixture) : Json :=
  .object [("config", f.config.toJson), ("graph", f.graph.toJson), ("tables", f.tables.toJson),
    ("suppressed", f.suppressed.toJson)]

def Fixture.ofJson : Decoder Fixture := fun r j => do
  let m ← structured [may "config", must "graph", may "tables", may "suppressed"] r j
  let config ← m.defaulted "config" Config.ofJson .default
  let graph ← m.required "graph" Graph.ofJson
  let tables ← m.defaulted "tables" Tables.ofJson .empty
  let suppressed ← m.defaulted "suppressed" SuppressionList.ofJson .empty
  return ⟨config, graph, tables, suppressed⟩

def Fixture.ofText? (text : String) : Option Fixture :=
  (parse? text).bind (Fixture.ofJson textReading)

end FlowTyping
