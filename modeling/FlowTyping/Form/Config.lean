import FlowTyping.Config
import FlowTyping.Json.Decoder
import FlowTyping.Json.Parser
import FlowTyping.Text.FileName
import FlowTyping.Toml.Parser

/-!
# Configuration files

A configuration is kept as JSON or as TOML. Either form may leave out any setting, which then has
its default, and may hold others, which are ignored. A file is TOML if its name ends in `.toml`.
-/

namespace FlowTyping

open Json

def Config.toJson (c : Config) : Json :=
  .object [("concurrent_semantics", .bool c.concurrentSemantics), ("infer", .bool c.infer),
    ("assume_side_effect_free", .bool c.assumeSideEffectFree),
    ("max_iterations", .integer c.maxIterations),
    ("widen_after", ofOption ofNat c.widenAfter)]

def Config.ofJson : Decoder Config := fun r j => do
  let m ← structured
    [may "concurrent_semantics", may "infer", may "assume_side_effect_free",
      may "max_iterations", may "widen_after"] r j
  let concurrentSemantics ←
    m.defaulted "concurrent_semantics" Json.boolean default.concurrentSemantics
  let infer ← m.defaulted "infer" Json.boolean default.infer
  let assumeSideEffectFree ←
    m.defaulted "assume_side_effect_free" Json.boolean default.assumeSideEffectFree
  let maxIterations ← m.defaulted "max_iterations" nat64 default.maxIterations
  let widenAfter ← m.defaulted "widen_after" (nullable nat64) default.widenAfter
  return ⟨concurrentSemantics, infer, assumeSideEffectFree, maxIterations, widenAfter⟩

def Config.ofText? (text : String) : Option Config :=
  (parse? text).bind (Config.ofJson textReading)

def Toml.asBoolean? : Toml → Option Bool
  | boolean b => some b
  | _ => none

def Toml.asNat? : Toml → Option Nat
  | integer n => if 0 ≤ n.toInt then some n.toInt.toNat else none
  | _ => none

/-- A setting that has a value of its own when it is missing. -/
def Toml.Members.defaulted {α : Type} (ms : Toml.Members) (key : String) (read : Toml → Option α)
    (value : α) : Option α :=
  match ms.get? key with
  | some t => read t
  | none => some value

def Config.ofToml? (ms : Toml.Members) : Option Config := do
  let concurrentSemantics ←
    ms.defaulted "concurrent_semantics" Toml.asBoolean? default.concurrentSemantics
  let infer ← ms.defaulted "infer" Toml.asBoolean? default.infer
  let assumeSideEffectFree ←
    ms.defaulted "assume_side_effect_free" Toml.asBoolean? default.assumeSideEffectFree
  let maxIterations ← ms.defaulted "max_iterations" Toml.asNat? default.maxIterations
  let widenAfter ← ms.defaulted "widen_after" (fun t => t.asNat?.map some) default.widenAfter
  return ⟨concurrentSemantics, infer, assumeSideEffectFree, maxIterations, widenAfter⟩

/-- The settings of a configuration as lines of TOML; widening is left out when it is off. -/
def Config.tomlText (c : Config) : String :=
  let truth := fun (b : Bool) => if b then "true" else "false"
  "concurrent_semantics = " ++ truth c.concurrentSemantics ++ "\n" ++
    "infer = " ++ truth c.infer ++ "\n" ++
    "assume_side_effect_free = " ++ truth c.assumeSideEffectFree ++ "\n" ++
    "max_iterations = " ++ toString c.maxIterations ++ "\n" ++
    match c.widenAfter with
    | some n => "widen_after = " ++ toString n ++ "\n"
    | none => ""

/-- The TOML text of a configuration whose numbers TOML can hold. -/
def Config.toToml? (c : Config) : Option String :=
  let bound := Nat.pow 2 63
  if c.maxIterations < bound ∧ c.widenAfter.getD 0 < bound then some c.tomlText else none

def Config.isTomlFile (name : String) : Bool := Text.extension name = "toml"

/-- The configuration in a file of some name. -/
def Config.ofFile? (name text : String) : Option Config :=
  if Config.isTomlFile name then (Toml.parse? text).bind Config.ofToml? else Config.ofText? text

end FlowTyping
