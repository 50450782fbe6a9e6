import FlowTyping.Form.Program
import FlowTyping.Setting

/-!
# The JSON form of tables and suppression lists

Every table is empty when it is missing.
-/

namespace FlowTyping

open Json

def ContractKind.toJson : ContractKind → Json
  | precondition => .string "precondition"
  | postcondition => .string "postcondition"
  | conditionalPostcondition result => .object [("conditional_postcondition",
      .object [("result", .bool result)])]

def ContractKind.ofJson : Decoder ContractKind := fun r j => do
  let a ← alternative r j
  match a.name with
  | "precondition" => a.unit .precondition
  | "postcondition" => a.unit .postcondition
  | "conditional_postcondition" => do
    let m ← a.fields [must "result"]
    let result ← m.required "result" Json.boolean
    return .conditionalPostcondition result
  | _ => none

def Contract.toJson (c : Contract) : Json :=
  .object [("kind", c.kind.toJson), ("expression", .string c.expression),
    ("qualifier", c.qualifier.toJson)]

def Contract.ofJson : Decoder Contract := fun r j => do
  let m ← structured [must "kind", must "expression", must "qualifier"] r j
  let kind ← m.required "kind" ContractKind.ofJson
  let expression ← m.required "expression" Json.text
  let qualifier ← m.required "qualifier" Qualifier.ofJson
  return ⟨kind, expression, qualifier⟩

def ScopeKind.toJson : ScopeKind → Json
  | method => .string "method"
  | classBody => .string "class"
  | lambda => .string "lambda"
  | block => .string "block"
  | other => .string "other"

def ScopeKind.ofJson : Decoder ScopeKind := fun r j => do
  let a ← alternative r j
  match a.name with
  | "method" => a.unit .method
  | "class" => a.unit .classBody
  | "lambda" => a.unit .lambda
  | "block" => a.unit .block
  | "other" => a.unit .other
  | _ => none

def Scope.toJson (s : Scope) : Json :=
  .object [("kind", s.kind.toJson), ("element", ofOption ElementId.toJson s.element)]

def Scope.ofJson : Decoder Scope := fun r j => do
  let m ← structured [must "kind", may "element"] r j
  let kind ← m.required "kind" ScopeKind.ofJson
  let element ← m.optional "element" ElementId.ofJson
  return ⟨kind, element⟩

def TreeEntry.toJson (e : TreeEntry) : Json :=
  .object [("tree", e.tree.toJson), ("ty", ofOption Ty.toJson e.ty),
    ("qualifiers", ofList Qualifier.toJson e.qualifiers)]

def TreeEntry.ofJson : Decoder TreeEntry := fun r j => do
  let m ← structured [must "tree", may "ty", must "qualifiers"] r j
  let tree ← m.required "tree" TreeId.ofJson
  let ty ← m.optional "ty" Ty.ofJson
  let qualifiers ← m.required "qualifiers" (list Qualifier.ofJson)
  return ⟨tree, ty, qualifiers⟩

def VariableEntry.toJson (e : VariableEntry) : Json :=
  .object [("variable", e.variableId.toJson),
    ("qualifiers", ofList Qualifier.toJson e.qualifiers)]

def VariableEntry.ofJson : Decoder VariableEntry := fun r j => do
  let m ← structured [must "variable", must "qualifiers"] r j
  let variableId ← m.required "variable" ElementId.ofJson
  let qualifiers ← m.required "qualifiers" (list Qualifier.ofJson)
  return ⟨variableId, qualifiers⟩

def FieldEntry.toJson (e : FieldEntry) : Json :=
  .object [("field", e.field.toJson), ("qualifiers", ofList Qualifier.toJson e.qualifiers),
    ("initializer", ofOption (ofList Qualifier.toJson) e.initializer)]

def FieldEntry.ofJson : Decoder FieldEntry := fun r j => do
  let m ← structured [must "field", may "qualifiers", may "initializer"] r j
  let f ← m.required "field" Field.ofJson
  let qualifiers ← m.defaulted "qualifiers" (list Qualifier.ofJson) []
  let initializer ← m.optional "initializer" (list Qualifier.ofJson)
  return ⟨f, qualifiers, initializer⟩

def FinalLocal.toJson (e : FinalLocal) : Json :=
  .object [("variable", e.declaration.toJson),
    ("qualifiers", ofList Qualifier.toJson e.qualifiers)]

def FinalLocal.ofJson : Decoder FinalLocal := fun r j => do
  let m ← structured [must "variable", must "qualifiers"] r j
  let declaration ← m.required "variable" Variable.ofJson
  let qualifiers ← m.required "qualifiers" (list Qualifier.ofJson)
  return ⟨declaration, qualifiers⟩

def ElementEntry.toJson (e : ElementEntry) : Json :=
  .object [("element", e.element.toJson), ("kind", e.kind.toJson),
    ("enclosing", ofOption ElementId.toJson e.enclosing)]

def ElementEntry.ofJson : Decoder ElementEntry := fun r j => do
  let m ← structured [must "element", must "kind", may "enclosing"] r j
  let element ← m.required "element" ElementId.ofJson
  let kind ← m.required "kind" ElementKind.ofJson
  let enclosing ← m.optional "enclosing" ElementId.ofJson
  return ⟨element, kind, enclosing⟩

def LexicalPath.toJson (p : LexicalPath) : Json :=
  .object [("tree", p.tree.toJson), ("path", ofList Scope.toJson p.path)]

def LexicalPath.ofJson : Decoder LexicalPath := fun r j => do
  let m ← structured [must "tree", must "path"] r j
  let tree ← m.required "tree" TreeId.ofJson
  let path ← m.required "path" (list Scope.ofJson)
  return ⟨tree, path⟩

def OverrideEntry.toJson (e : OverrideEntry) : Json :=
  .object [("method", e.method.toJson), ("receiver", ofList Qualifier.toJson e.receiver),
    ("parameters", ofList Value.toJson e.parameters)]

def OverrideEntry.ofJson : Decoder OverrideEntry := fun r j => do
  let m ← structured [must "method", may "receiver", may "parameters"] r j
  let method ← m.required "method" Method.ofJson
  let receiver ← m.defaulted "receiver" (list Qualifier.ofJson) []
  let parameters ← m.defaulted "parameters" (list Value.ofJson) []
  return ⟨method, receiver, parameters⟩

def MethodEntry.toJson (e : MethodEntry) : Json :=
  .object [("method", e.method.toJson), ("contracts", ofList Contract.toJson e.contracts),
    ("side_effect_free", .bool e.sideEffectFree), ("deterministic", .bool e.deterministic),
    ("overrides", ofList OverrideEntry.toJson e.overrides)]

def MethodEntry.ofJson : Decoder MethodEntry := fun r j => do
  let m ← structured
    [must "method", may "contracts", may "side_effect_free", may "deterministic",
      may "overrides"] r j
  let method ← m.required "method" ElementId.ofJson
  let contracts ← m.defaulted "contracts" (list Contract.ofJson) []
  let sideEffectFree ← m.defaulted "side_effect_free" Json.boolean false
  let deterministic ← m.defaulted "deterministic" Json.boolean false
  let overrides ← m.defaulted "overrides" (list OverrideEntry.ofJson) []
  return ⟨method, contracts, sideEffectFree, deterministic, overrides⟩

def Tables.toJson (t : Tables) : Json :=
  .object [
    ("supertypes", ofList (fun p => .array [.string p.1, .string p.2]) t.supertypes),
    ("trees", ofList TreeEntry.toJson t.trees),
    ("type_trees", ofList TreeEntry.toJson t.typeTrees),
    ("declarations", ofList TreeEntry.toJson t.declarations),
    ("variables", ofList VariableEntry.toJson t.declaredVariables),
    ("fields", ofList FieldEntry.toJson t.fields),
    ("final_locals", ofList FinalLocal.toJson t.finalLocals),
    ("elements", ofList ElementEntry.toJson t.elements),
    ("lexical_paths", ofList LexicalPath.toJson t.lexicalPaths),
    ("methods", ofList MethodEntry.toJson t.methods)]

def Tables.ofJson : Decoder Tables := fun r j => do
  let m ← structured
    [may "supertypes", may "trees", may "type_trees", may "declarations", may "variables",
      may "fields", may "final_locals", may "elements", may "lexical_paths", may "methods"] r j
  let supertypes ← m.defaulted "supertypes" (list (pair Json.text Json.text)) []
  let trees ← m.defaulted "trees" (list TreeEntry.ofJson) []
  let typeTrees ← m.defaulted "type_trees" (list TreeEntry.ofJson) []
  let declarations ← m.defaulted "declarations" (list TreeEntry.ofJson) []
  let declaredVariables ← m.defaulted "variables" (list VariableEntry.ofJson) []
  let fields ← m.defaulted "fields" (list FieldEntry.ofJson) []
  let finalLocals ← m.defaulted "final_locals" (list FinalLocal.ofJson) []
  let elements ← m.defaulted "elements" (list ElementEntry.ofJson) []
  let lexicalPaths ← m.defaulted "lexical_paths" (list LexicalPath.ofJson) []
  let methods ← m.defaulted "methods" (list MethodEntry.ofJson) []
  return ⟨supertypes, trees, typeTrees, declarations, declaredVariables, fields, finalLocals,
    elements, lexicalPaths, methods⟩

def SuppressionList.toJson (l : SuppressionList) : Json :=
  .object [("trees", ofList TreeId.toJson l.trees),
    ("elements", ofList ElementId.toJson l.elements)]

def SuppressionList.ofJson : Decoder SuppressionList := fun r j => do
  let m ← structured [may "trees", may "elements"] r j
  let trees ← m.defaulted "trees" (list TreeId.ofJson) []
  let elements ← m.defaulted "elements" (list ElementId.ofJson) []
  return ⟨trees, elements⟩

end FlowTyping
