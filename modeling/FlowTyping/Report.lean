import FlowTyping.Receiver
import FlowTyping.Value

/-!
# What an analysis reports

Diagnostics for the user of a checker, and observations of types for inference. A `Sighting` is
an observation together with the syntax and the element at which it was made, which decide
whether it is suppressed; a `Log` collects both kinds in order of arrival.
-/

namespace FlowTyping

structure Diagnostic where
  tree : Option TreeId
  key : String
  args : List String
deriving DecidableEq

/-- Where a type was observed. -/
inductive Site where
  | field (target : Receiver)
  | parameter (declaration : Variable)
  | returnOf (method : Method)
  | argument (method : Method) (index : Nat)
  | receiver (method : Method)
  | constructorArgument (constructor : Method) (index : Nat)
  | overriddenParameter (method overridden : Method) (index : Nat)
  | overriddenReceiver (method overridden : Method)
deriving DecidableEq

/-- The words for a site; positions are counted from one. -/
def Site.text : Site → String
  | field target => "field " ++ target.text
  | parameter declaration => "parameter " ++ declaration.name
  | returnOf method => "return of " ++ method.text
  | argument method index => "argument #" ++ toString (index + 1) ++ " of " ++ method.text
  | receiver method => "receiver of " ++ method.text
  | constructorArgument constructor index =>
    "argument #" ++ toString (index + 1) ++ " of new " ++ constructor.owner.simpleName
  | overriddenParameter method overridden index =>
    "parameter #" ++ toString (index + 1) ++ " of " ++ method.text ++ " overriding " ++
      overridden.text
  | overriddenReceiver method overridden =>
    "receiver of " ++ method.text ++ " overriding " ++ overridden.text

/-- A value seen at a site, if it was known. -/
structure Observation where
  site : Site
  value : Option Value
deriving DecidableEq

def Observation.text (o : Observation) : String :=
  o.site.text ++ match o.value with
    | some v => ": " ++ v.text
    | none => ": <unknown>"

/-- An observation with the syntax and the element it was made at. -/
structure Sighting where
  tree : Option TreeId
  element : ElementId
  observation : Observation
deriving DecidableEq

/-- Diagnostics and sightings, each in order of arrival. -/
structure Log where
  diagnostics : List Diagnostic
  sightings : List Sighting
deriving DecidableEq

namespace Log

def empty : Log := ⟨[], []⟩

def append (a b : Log) : Log := ⟨a.diagnostics ++ b.diagnostics, a.sightings ++ b.sightings⟩

instance : Append Log := ⟨append⟩

def ofDiagnostics (ds : List Diagnostic) : Log := ⟨ds, []⟩

def ofSightings (ss : List Sighting) : Log := ⟨[], ss⟩

def observations (log : Log) : List Observation := log.sightings.map (·.observation)

end Log

end FlowTyping
