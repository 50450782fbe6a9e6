import FlowTyping.Form.Program
import FlowTyping.Report

/-!
# The JSON form of receivers and observations
-/

namespace FlowTyping

open Json

mutual

def Receiver.toJson : Receiver → Json
  | .localVariable x => .object [("local", x.toJson)]
  | .field base f => .object [("field",
      .object [("receiver", base.toJson), ("field", f.toJson)])]
  | .this ty => .object [("this", ty.toJson)]
  | .className ty => .object [("class", ty.toJson)]
  | .array ty base index => .object [("array",
      .object [("ty", ty.toJson), ("array", base.toJson), ("index", index.toJson)])]
  | .call ty m base arguments => .object [("call",
      .object [("ty", ty.toJson), ("method", m.toJson), ("receiver", base.toJson),
        ("arguments", .array (Receiver.listToJson arguments))])]
  | .literal ty l => .object [("literal",
      .object [("ty", ty.toJson), ("value", l.toJson)])]
  | .unknown ty => .object [("unknown", ty.toJson)]

def Receiver.listToJson : List Receiver → List Json
  | [] => []
  | r :: rs => r.toJson :: Receiver.listToJson rs

end

/-- A receiver with so many receivers around each other at most. -/
def Receiver.ofJsonWithin : (nesting : Nat) → Decoder Receiver
  | 0, _, _ => none
  | nesting + 1, r, j => do
    let inner := Receiver.ofJsonWithin nesting
    let a ← alternative r j
    match a.name with
    | "local" => (a.single Variable.ofJson).map .localVariable
    | "field" => do
      let m ← a.fields [must "receiver", must "field"]
      let base ← m.required "receiver" inner
      let f ← m.required "field" Field.ofJson
      return .field base f
    | "this" => (a.single Ty.ofJson).map .this
    | "class" => (a.single Ty.ofJson).map .className
    | "array" => do
      let m ← a.fields [must "ty", must "array", must "index"]
      let ty ← m.required "ty" Ty.ofJson
      let base ← m.required "array" inner
      let index ← m.required "index" inner
      return .array ty base index
    | "call" => do
      let m ← a.fields [must "ty", must "method", must "receiver", must "arguments"]
      let ty ← m.required "ty" Ty.ofJson
      let method ← m.required "method" Method.ofJson
      let base ← m.required "receiver" inner
      let arguments ← m.required "arguments" (list inner)
      return .call ty method base arguments
    | "literal" => do
      let m ← a.fields [must "ty", must "value"]
      let ty ← m.required "ty" Ty.ofJson
      let value ← m.required "value" Literal.ofJson
      return .literal ty value
    | "unknown" => (a.single Ty.ofJson).map .unknown
    | _ => none

/-- A receiver lies inside a container of its own, so the depth bounds how many can nest. -/
def Receiver.ofJson : Decoder Receiver := fun r j => Receiver.ofJsonWithin r.depth r j

def Site.toJson : Site → Json
  | field target => .object [("field", target.toJson)]
  | parameter x => .object [("parameter", x.toJson)]
  | returnOf m => .object [("return", m.toJson)]
  | argument m index => .object [("argument",
      .object [("method", m.toJson), ("index", ofNat index)])]
  | receiver m => .object [("receiver", m.toJson)]
  | constructorArgument m index => .object [("constructor_argument",
      .object [("constructor", m.toJson), ("index", ofNat index)])]
  | overriddenParameter m overridden index => .object [("overridden_parameter",
      .object [("method", m.toJson), ("overridden", overridden.toJson), ("index", ofNat index)])]
  | overriddenReceiver m overridden => .object [("overridden_receiver",
      .object [("method", m.toJson), ("overridden", overridden.toJson)])]

/-- The names of the kinds of site, in the order in which they are looked for. -/
def Site.kinds : List String :=
  ["field", "parameter", "return", "receiver", "argument", "constructor_argument",
    "overridden_parameter", "overridden_receiver"]

/-- A site is read from the first member that names a kind of site. -/
def Site.ofJson : Decoder Site := fun r j => do
  let a ← firstAlternative Site.kinds r j
  match a.name with
  | "field" => (a.single Receiver.ofJson).map .field
  | "parameter" => (a.single Variable.ofJson).map .parameter
  | "return" => (a.single Method.ofJson).map .returnOf
  | "receiver" => (a.single Method.ofJson).map .receiver
  | "argument" => do
    let m ← a.fields [must "method", must "index"]
    let method ← m.required "method" Method.ofJson
    let index ← m.required "index" nat64
    return .argument method index
  | "constructor_argument" => do
    let m ← a.fields [must "constructor", must "index"]
    let constructor ← m.required "constructor" Method.ofJson
    let index ← m.required "index" nat64
    return .constructorArgument constructor index
  | "overridden_parameter" => do
    let m ← a.fields [must "method", must "overridden", must "index"]
    let method ← m.required "method" Method.ofJson
    let overridden ← m.required "overridden" Method.ofJson
    let index ← m.required "index" nat64
    return .overriddenParameter method overridden index
  | "overridden_receiver" => do
    let m ← a.fields [must "method", must "overridden"]
    let method ← m.required "method" Method.ofJson
    let overridden ← m.required "overridden" Method.ofJson
    return .overriddenReceiver method overridden
  | _ => none

def Observation.toJson (o : Observation) : Json :=
  .object [("site", o.site.toJson), ("value", ofOption Value.toJson o.value),
    ("text", .string o.text)]

end FlowTyping
