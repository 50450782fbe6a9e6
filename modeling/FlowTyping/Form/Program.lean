import FlowTyping.Json.Decoder
import FlowTyping.Node
import FlowTyping.Value

/-!
# The JSON form of types, elements, values and nodes

Each type has a `toJson` and an `ofJson` that reads it back. Alternatives are named in lower
case with underscores; qualifiers keep their own names.
-/

namespace FlowTyping

open Json

def Primitive.toJson (p : Primitive) : Json := .string p.name

def Primitive.ofJson : Decoder Primitive := fun r j => do
  let a ← alternative r j
  match a.name with
  | "boolean" => a.unit .boolean
  | "byte" => a.unit .byte
  | "short" => a.unit .short
  | "char" => a.unit .char
  | "int" => a.unit .int
  | "long" => a.unit .long
  | "float" => a.unit .float
  | "double" => a.unit .double
  | _ => none

def Ty.toJson : Ty → Json
  | primitive kind => .object [("primitive", kind.toJson)]
  | declared name => .object [("declared", .string name)]
  | array component => .object [("array", component.toJson)]
  | null => .string "null"
  | void => .string "void"

/-- A type has no fields, so the rules for alternatives are spelled out along its shape. -/
def Ty.ofJson (r : Reading) : Json → Option Ty
  | .string "null" => some .null
  | .string "void" => some .void
  | .object [("null", .null)] => r.inside.map fun _ => .null
  | .object [("void", .null)] => r.inside.map fun _ => .void
  | .object [("primitive", j)] =>
    match r.inside with
    | some r => (Primitive.ofJson r j).map .primitive
    | none => none
  | .object [("declared", j)] =>
    match r.inside with
    | some r => (Json.text r j).map .declared
    | none => none
  | .object [("array", j)] =>
    match r.inside with
    | some r => (Ty.ofJson r j).map .array
    | none => none
  | _ => none
termination_by j => sizeOf j

def ElementId.toJson (id : ElementId) : Json := .integer id.val.toNat

def ElementId.ofJson : Decoder ElementId := fun r j => (uint32 r j).map .mk

def TreeId.toJson (id : TreeId) : Json := .integer id.val.toNat

def TreeId.ofJson : Decoder TreeId := fun r j => (uint32 r j).map .mk

def NodeId.toJson (id : NodeId) : Json := .integer id.index

def NodeId.ofJson : Decoder NodeId := fun r j => (nat64 r j).map .mk

def ElementKind.toJson : ElementKind → Json
  | classType => .string "class"
  | method => .string "method"
  | constructor => .string "constructor"
  | instanceInitializer => .string "instance_initializer"
  | staticInitializer => .string "static_initializer"
  | field => .string "field"
  | parameter => .string "parameter"
  | localVariable => .string "local_variable"

def ElementKind.ofJson : Decoder ElementKind := fun r j => do
  let a ← alternative r j
  match a.name with
  | "class" => a.unit .classType
  | "method" => a.unit .method
  | "constructor" => a.unit .constructor
  | "instance_initializer" => a.unit .instanceInitializer
  | "static_initializer" => a.unit .staticInitializer
  | "field" => a.unit .field
  | "parameter" => a.unit .parameter
  | "local_variable" => a.unit .localVariable
  | _ => none

def VariableKind.toJson : VariableKind → Json
  | localVariable => .string "local"
  | parameter => .string "parameter"
  | field => .string "field"
  | exceptionParameter => .string "exception_parameter"
  | resource => .string "resource"

def VariableKind.ofJson : Decoder VariableKind := fun r j => do
  let a ← alternative r j
  match a.name with
  | "local" => a.unit .localVariable
  | "parameter" => a.unit .parameter
  | "field" => a.unit .field
  | "exception_parameter" => a.unit .exceptionParameter
  | "resource" => a.unit .resource
  | _ => none

def Variable.toJson (x : Variable) : Json :=
  .object [("id", x.id.toJson), ("name", .string x.name), ("kind", x.kind.toJson),
    ("ty", x.ty.toJson), ("declared_in", ofOption ElementId.toJson x.declaredIn)]

def Variable.ofJson : Decoder Variable := fun r j => do
  let m ← structured [must "id", must "name", must "kind", must "ty", may "declared_in"] r j
  let id ← m.required "id" ElementId.ofJson
  let name ← m.required "name" Json.text
  let kind ← m.required "kind" VariableKind.ofJson
  let ty ← m.required "ty" Ty.ofJson
  let declaredIn ← m.optional "declared_in" ElementId.ofJson
  return ⟨id, name, kind, ty, declaredIn⟩

def Field.toJson (f : Field) : Json :=
  .object [("id", f.id.toJson), ("name", .string f.name), ("owner", f.owner.toJson),
    ("ty", f.ty.toJson), ("is_final", .bool f.isFinal), ("is_static", .bool f.isStatic)]

def Field.ofJson : Decoder Field := fun r j => do
  let m ← structured
    [must "id", must "name", must "owner", must "ty", may "is_final", may "is_static"] r j
  let id ← m.required "id" ElementId.ofJson
  let name ← m.required "name" Json.text
  let owner ← m.required "owner" Ty.ofJson
  let ty ← m.required "ty" Ty.ofJson
  let isFinal ← m.defaulted "is_final" boolean false
  let isStatic ← m.defaulted "is_static" boolean false
  return ⟨id, name, owner, ty, isFinal, isStatic⟩

def Method.toJson (m : Method) : Json :=
  .object [("id", m.id.toJson), ("name", .string m.name), ("owner", m.owner.toJson),
    ("return_type", m.returnTy.toJson), ("is_static", .bool m.isStatic),
    ("is_constructor", .bool m.isConstructor)]

def Method.ofJson : Decoder Method := fun r j => do
  let m ← structured
    [must "id", must "name", must "owner", must "return_type", may "is_static",
      may "is_constructor"] r j
  let id ← m.required "id" ElementId.ofJson
  let name ← m.required "name" Json.text
  let owner ← m.required "owner" Ty.ofJson
  let returnTy ← m.required "return_type" Ty.ofJson
  let isStatic ← m.defaulted "is_static" boolean false
  let isConstructor ← m.defaulted "is_constructor" boolean false
  return ⟨id, name, owner, returnTy, isStatic, isConstructor⟩

def Qualifier.toJson (q : Qualifier) : Json := .string q.name

def Qualifier.ofJson : Decoder Qualifier := fun r j => do
  let a ← alternative r j
  match a.name with
  | "NonNull" => a.unit .nonNull
  | "MonotonicNonNull" => a.unit .monotonicNonNull
  | "Nullable" => a.unit .nullable
  | "Interned" => a.unit .interned
  | "UnknownInterned" => a.unit .unknownInterned
  | _ => none

def Hierarchy.ofJson : Decoder Hierarchy := fun r j => do
  let a ← alternative r j
  match a.name with
  | "Nullness" => a.unit .nullness
  | "Interning" => a.unit .interning
  | _ => none

def Hierarchy.toJson : Hierarchy → Json
  | nullness => .string "Nullness"
  | interning => .string "Interning"

def Value.toJson (v : Value) : Json :=
  .object [("ty", v.ty.toJson), ("qualifiers", ofList Qualifier.toJson v.qualifiers.toList)]

/-- The qualifiers are read as a set; several of one hierarchy are kept. -/
def Value.ofJson : Decoder Value := fun r j => do
  let m ← structured [must "ty", must "qualifiers"] r j
  let ty ← m.required "ty" Ty.ofJson
  let qualifiers ← m.required "qualifiers" (list Qualifier.ofJson)
  return ⟨ty, .ofList qualifiers⟩

def Literal.toJson : Literal → Json
  | boolean b => .object [("boolean", .bool b)]
  | null => .string "null"
  | integer n => .object [("integer", .integer n.toInt)]
  | char c => .object [("char", .string c.toString)]
  | string s => .object [("string", .string s)]

def Literal.ofJson : Decoder Literal := fun r j => do
  let a ← alternative r j
  match a.name with
  | "boolean" => (a.single Json.boolean).map .boolean
  | "null" => a.unit .null
  | "integer" => (a.single int64).map .integer
  | "char" => (a.single character).map .char
  | "string" => (a.single Json.text).map .string
  | _ => none

def NodeKind.toJson : NodeKind → Json
  | localVariable x => .object [("local_variable", x.toJson)]
  | fieldAccess receiver f => .object [("field_access",
      .object [("receiver", receiver.toJson), ("field", f.toJson)])]
  | arrayAccess base index => .object [("array_access",
      .object [("array", base.toJson), ("index", index.toJson)])]
  | thisLiteral => .string "this_literal"
  | className => .string "class_name"
  | literal value => .object [("literal", value.toJson)]
  | operation operands => .object [("operation",
      .object [("operands", ofList NodeId.toJson operands)])]
  | ternary condition thenOperand elseOperand => .object [("ternary",
      .object [("condition", condition.toJson), ("then_operand", thenOperand.toJson),
        ("else_operand", elseOperand.toJson)])]
  | conditionalNot operand => .object [("conditional_not",
      .object [("operand", operand.toJson)])]
  | equalTo left right => .object [("equal_to",
      .object [("left", left.toJson), ("right", right.toJson)])]
  | notEqual left right => .object [("not_equal",
      .object [("left", left.toJson), ("right", right.toJson)])]
  | assignment target expression => .object [("assignment",
      .object [("target", target.toJson), ("expression", expression.toJson)])]
  | stringConcatenateAssignment target expression => .object [("string_concatenate_assignment",
      .object [("target", target.toJson), ("expression", expression.toJson)])]
  | instanceOf operand referenceType annotated => .object [("instance_of",
      .object [("operand", operand.toJson), ("reference_type", referenceType.toJson),
        ("reference_type_annotated", .bool annotated)])]
  | methodInvocation m receiver arguments => .object [("method_invocation",
      .object [("method", m.toJson), ("receiver", receiver.toJson),
        ("arguments", ofList NodeId.toJson arguments)])]
  | objectCreation constructor arguments => .object [("object_creation",
      .object [("constructor", constructor.toJson),
        ("arguments", ofList NodeId.toJson arguments)])]
  | returnStatement result m => .object [("return",
      .object [("result", ofOption NodeId.toJson result),
        ("method", ofOption Method.toJson m)])]
  | lambdaResult result => .object [("lambda_result_expression",
      .object [("result", result.toJson)])]
  | switchCase caseOperand switchTarget switchExpression => .object [("case",
      .object [("case_operand", caseOperand.toJson), ("switch_target", switchTarget.toJson),
        ("switch_expression", switchExpression.toJson)])]
  | wideningConversion operand => .object [("widening_conversion",
      .object [("operand", operand.toJson)])]
  | narrowingConversion operand => .object [("narrowing_conversion",
      .object [("operand", operand.toJson)])]
  | stringConversion operand => .object [("string_conversion",
      .object [("operand", operand.toJson)])]
  | variableDeclaration x => .object [("variable_declaration", x.toJson)]

/-- An alternative whose only field is a node. -/
def oneNode (a : Alternative) (name : String) (make : NodeId → NodeKind) : Option NodeKind := do
  let m ← a.fields [must name]
  let id ← m.required name NodeId.ofJson
  return make id

def twoNodes (a : Alternative) (first second : String) (make : NodeId → NodeId → NodeKind) :
    Option NodeKind := do
  let m ← a.fields [must first, must second]
  let id ← m.required first NodeId.ofJson
  let id' ← m.required second NodeId.ofJson
  return make id id'

def threeNodes (a : Alternative) (first second third : String)
    (make : NodeId → NodeId → NodeId → NodeKind) : Option NodeKind := do
  let m ← a.fields [must first, must second, must third]
  let id ← m.required first NodeId.ofJson
  let id' ← m.required second NodeId.ofJson
  let id'' ← m.required third NodeId.ofJson
  return make id id' id''

def NodeKind.ofJson : Decoder NodeKind := fun r j => do
  let a ← alternative r j
  match a.name with
  | "local_variable" => (a.single Variable.ofJson).map .localVariable
  | "field_access" => do
    let m ← a.fields [must "receiver", must "field"]
    let receiver ← m.required "receiver" NodeId.ofJson
    let f ← m.required "field" Field.ofJson
    return .fieldAccess receiver f
  | "array_access" => twoNodes a "array" "index" .arrayAccess
  | "this_literal" => a.unit .thisLiteral
  | "class_name" => a.unit .className
  | "literal" => (a.single Literal.ofJson).map .literal
  | "operation" => do
    let m ← a.fields [must "operands"]
    let operands ← m.required "operands" (list NodeId.ofJson)
    return .operation operands
  | "ternary" => threeNodes a "condition" "then_operand" "else_operand" .ternary
  | "conditional_not" => oneNode a "operand" .conditionalNot
  | "equal_to" => twoNodes a "left" "right" .equalTo
  | "not_equal" => twoNodes a "left" "right" .notEqual
  | "assignment" => twoNodes a "target" "expression" .assignment
  | "string_concatenate_assignment" =>
    twoNodes a "target" "expression" .stringConcatenateAssignment
  | "instance_of" => do
    let m ← a.fields [must "operand", must "reference_type", must "reference_type_annotated"]
    let operand ← m.required "operand" NodeId.ofJson
    let referenceType ← m.required "reference_type" TreeId.ofJson
    let annotated ← m.required "reference_type_annotated" Json.boolean
    return .instanceOf operand referenceType annotated
  | "method_invocation" => do
    let m ← a.fields [must "method", must "receiver", must "arguments"]
    let method ← m.required "method" Method.ofJson
    let receiver ← m.required "receiver" NodeId.ofJson
    let arguments ← m.required "arguments" (list NodeId.ofJson)
    return .methodInvocation method receiver arguments
  | "object_creation" => do
    let m ← a.fields [must "constructor", must "arguments"]
    let constructor ← m.required "constructor" Method.ofJson
    let arguments ← m.required "arguments" (list NodeId.ofJson)
    return .objectCreation constructor arguments
  | "return" => do
    let m ← a.fields [must "result", must "method"]
    let result ← m.optional "result" NodeId.ofJson
    let method ← m.optional "method" Method.ofJson
    return .returnStatement result method
  | "lambda_result_expression" => oneNode a "result" .lambdaResult
  | "case" => threeNodes a "case_operand" "switch_target" "switch_expression" .switchCase
  | "widening_conversion" => oneNode a "operand" .wideningConversion
  | "narrowing_conversion" => oneNode a "operand" .narrowingConversion
  | "string_conversion" => oneNode a "operand" .stringConversion
  | "variable_declaration" => (a.single Variable.ofJson).map .variableDeclaration
  | _ => none

def Node.toJson (n : Node) : Json :=
  .object [("id", n.id.toJson), ("ty", n.ty.toJson), ("tree", ofOption TreeId.toJson n.tree),
    ("annotatable", .bool n.annotatable), ("kind", n.kind.toJson)]

/-- Syntax can carry annotations unless it says otherwise. -/
def Node.ofJson : Decoder Node := fun r j => do
  let m ← structured [must "id", must "ty", may "tree", may "annotatable", must "kind"] r j
  let id ← m.required "id" NodeId.ofJson
  let ty ← m.required "ty" Ty.ofJson
  let tree ← m.optional "tree" TreeId.ofJson
  let annotatable ← m.defaulted "annotatable" Json.boolean true
  let kind ← m.required "kind" NodeKind.ofJson
  return ⟨id, ty, tree, annotatable, kind⟩

end FlowTyping
