import FlowTyping.Form.Program
import FlowTyping.Graph

/-!
# The JSON form of graphs
-/

namespace FlowTyping

open Json

def BlockId.toJson (id : BlockId) : Json := .integer id.index

def BlockId.ofJson : Decoder BlockId := fun r j => (nat64 r j).map .mk

def Terminator.toJson : Terminator → Json
  | goto target => .object [("goto", target.toJson)]
  | branch thenBlock elseBlock => .object [("branch",
      .object [("then_block", thenBlock.toJson), ("else_block", elseBlock.toJson)])]
  | leave => .string "return"
  | unreachable => .string "unreachable"

def Terminator.ofJson : Decoder Terminator := fun r j => do
  let a ← alternative r j
  match a.name with
  | "goto" => (a.single BlockId.ofJson).map .goto
  | "branch" => do
    let m ← a.fields [must "then_block", must "else_block"]
    let thenBlock ← m.required "then_block" BlockId.ofJson
    let elseBlock ← m.required "else_block" BlockId.ofJson
    return .branch thenBlock elseBlock
  | "return" => a.unit .leave
  | "unreachable" => a.unit .unreachable
  | _ => none

def Block.toJson (b : Block) : Json :=
  .object [("id", b.id.toJson), ("nodes", ofList NodeId.toJson b.nodes),
    ("terminator", ofOption Terminator.toJson b.terminator),
    ("predecessors", ofList BlockId.toJson b.predecessors),
    ("successors", ofList BlockId.toJson b.successors)]

def Block.ofJson : Decoder Block := fun r j => do
  let m ← structured
    [must "id", must "nodes", must "terminator", must "predecessors", must "successors"] r j
  let id ← m.required "id" BlockId.ofJson
  let nodes ← m.required "nodes" (list NodeId.ofJson)
  let terminator ← m.optional "terminator" Terminator.ofJson
  let predecessors ← m.required "predecessors" (list BlockId.ofJson)
  let successors ← m.required "successors" (list BlockId.ofJson)
  return ⟨id, nodes, terminator, predecessors, successors⟩

def FieldDeclaration.toJson (d : FieldDeclaration) : Json :=
  .object [("field", d.field.toJson), ("tree", d.tree.toJson)]

def FieldDeclaration.ofJson : Decoder FieldDeclaration := fun r j => do
  let m ← structured [must "field", must "tree"] r j
  let f ← m.required "field" Field.ofJson
  let tree ← m.required "tree" TreeId.ofJson
  return ⟨f, tree⟩

def ClassInfo.toJson (c : ClassInfo) : Json :=
  .object [("element", c.element.toJson), ("ty", c.ty.toJson),
    ("fields", ofList FieldDeclaration.toJson c.fields)]

def ClassInfo.ofJson : Decoder ClassInfo := fun r j => do
  let m ← structured [must "element", must "ty", may "fields"] r j
  let element ← m.required "element" ElementId.ofJson
  let ty ← m.required "ty" Ty.ofJson
  let fields ← m.defaulted "fields" (list FieldDeclaration.ofJson) []
  return ⟨element, ty, fields⟩

def Code.toJson : Code → Json
  | method m tree cls => .object [("method",
      .object [("method", m.toJson), ("tree", tree.toJson), ("class", cls.toJson)])]
  | lambda tree => .object [("lambda", .object [("tree", tree.toJson)])]
  | fragment tree => .object [("arbitrary_code", .object [("tree", tree.toJson)])]

def Code.ofJson : Decoder Code := fun r j => do
  let a ← alternative r j
  match a.name with
  | "method" => do
    let m ← a.fields [must "method", must "tree", must "class"]
    let method ← m.required "method" Method.ofJson
    let tree ← m.required "tree" TreeId.ofJson
    let cls ← m.required "class" ClassInfo.ofJson
    return .method method tree cls
  | "lambda" => do
    let m ← a.fields [must "tree"]
    let tree ← m.required "tree" TreeId.ofJson
    return .lambda tree
  | "arbitrary_code" => do
    let m ← a.fields [must "tree"]
    let tree ← m.required "tree" TreeId.ofJson
    return .fragment tree
  | _ => none

def Graph.toJson (g : Graph) : Json :=
  .object [("underlying", g.code.toJson), ("parameters", ofList Variable.toJson g.parameters),
    ("nodes", ofList Node.toJson g.nodes), ("blocks", ofList Block.toJson g.blocks),
    ("entry", g.entry.toJson), ("exit", g.exit.toJson)]

def Graph.ofJson : Decoder Graph := fun r j => do
  let m ← structured
    [must "underlying", may "parameters", must "nodes", must "blocks", must "entry",
      must "exit"] r j
  let code ← m.required "underlying" Code.ofJson
  let parameters ← m.defaulted "parameters" (list Variable.ofJson) []
  let nodes ← m.required "nodes" (list Node.ofJson)
  let blocks ← m.required "blocks" (list Block.ofJson)
  let entry ← m.required "entry" BlockId.ofJson
  let exit ← m.required "exit" BlockId.ofJson
  return ⟨code, parameters, nodes, blocks, entry, exit⟩

end FlowTyping
