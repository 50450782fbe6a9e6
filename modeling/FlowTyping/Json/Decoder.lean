import FlowTyping.Json

/-!
# Decoding documents

Decoders read a document as a value of some type. A structure is read from an object, whose
unknown members are ignored and whose known members occur at most once, or from an array that
lists the fields in order. An alternative is read from its name, or from an object whose only
member is named for it; a form that allows other members beside it says in which order the names
are looked for. Containers may nest only so deep, ignored ones apart.
-/

namespace FlowTyping.Json

/-- The rules under which a document is read. -/
structure Reading where
  /-- How many containers may still nest. -/
  depth : Nat
  /-- Whether an alternative with named fields may list them in an array. -/
  listedAlternatives : Bool

def maxDepth : Nat := 127

def textReading : Reading := ⟨maxDepth, true⟩

def valueReading : Reading := ⟨maxDepth, false⟩

abbrev Decoder (α : Type) := Reading → Json → Option α

def Reading.inside (r : Reading) : Option Reading :=
  match r.depth with
  | 0 => none
  | depth + 1 => some { r with depth }

def natBelow (bound : Nat) : Decoder Nat
  | _, integer n => if 0 ≤ n ∧ n < bound then some n.toNat else none
  | _, _ => none

def nat64 : Decoder Nat := natBelow (Nat.pow 2 64)

def uint32 : Decoder UInt32 := fun r j => (natBelow (Nat.pow 2 32) r j).map UInt32.ofNat

def int64 : Decoder Int64
  | _, integer n => if (Int64.ofInt n).toInt = n then some (Int64.ofInt n) else none
  | _, _ => none

def boolean : Decoder Bool
  | _, bool b => some b
  | _, _ => none

def text : Decoder String
  | _, string s => some s
  | _, _ => none

def character : Decoder Char
  | _, string s => match s.toList with
    | [c] => some c
    | _ => none
  | _, _ => none

/-- Reads `null` as nothing, and anything else as another decoder does. -/
def nullable {α : Type} (d : Decoder α) : Decoder (Option α)
  | _, null => some none
  | r, j => (d r j).map some

def list {α : Type} (d : Decoder α) : Decoder (List α)
  | r, array items => match r.inside with
    | some r => items.mapM (d r)
    | none => none
  | _, _ => none

def pair {α β : Type} (d : Decoder α) (e : Decoder β) : Decoder (α × β)
  | r, array [a, b] => match r.inside with
    | some r => match d r a, e r b with
      | some a, some b => some (a, b)
      | _, _ => none
    | none => none
  | _, _ => none

/-- The name of a field and whether it may be left out at the end of an array. -/
structure FieldRule where
  name : String
  omissible : Bool

/-- The members of a structure that is about to be read. -/
structure Members where
  reading : Reading
  members : List (String × Json)

/-- The members that an array of items stands for. -/
def listed : List FieldRule → List Json → Option (List (String × Json))
  | rules, [] => if rules.all (·.omissible) then some [] else none
  | [], _ :: _ => none
  | rule :: rules, j :: js => (listed rules js).map ((rule.name, j) :: ·)

/-- Whether every known member occurs at most once. -/
def distinct (rules : List FieldRule) (members : List (String × Json)) : Bool :=
  rules.all fun rule => (members.filter fun m => m.1 = rule.name).length ≤ 1

/-- The members of a structure with the given fields. -/
def structured (rules : List FieldRule) (r : Reading) (j : Json) : Option Members :=
  match r.inside with
  | none => none
  | some inner => match j with
    | object members => if distinct rules members then some ⟨inner, members⟩ else none
    | array items => (listed rules items).map (⟨inner, ·⟩)
    | _ => none

namespace Members

def get? (m : Members) (name : String) : Option Json :=
  (m.members.find? fun entry => entry.1 = name).map (·.2)

def required {α : Type} (m : Members) (name : String) (d : Decoder α) : Option α :=
  match m.get? name with
  | some j => d m.reading j
  | none => none

def defaulted {α : Type} (m : Members) (name : String) (d : Decoder α) (value : α) : Option α :=
  match m.get? name with
  | some j => d m.reading j
  | none => some value

/-- A member that may be missing or `null`. -/
def optional {α : Type} (m : Members) (name : String) (d : Decoder α) : Option (Option α) :=
  m.defaulted name (nullable d) none

end Members

/-- One of several alternatives: its name, and what comes with it. -/
structure Alternative where
  name : String
  payload : Option (Reading × Json)

/-- An alternative, either named alone or with something that comes with it. -/
def alternative (r : Reading) (j : Json) : Option Alternative :=
  match j with
  | string name => some ⟨name, none⟩
  | object [(name, payload)] => r.inside.map fun inner => ⟨name, some (inner, payload)⟩
  | _ => none

/-- The alternative whose name comes first among those an object has members for. Members of
other names are ignored. -/
def firstAlternative (names : List String) (r : Reading) (j : Json) : Option Alternative :=
  match j with
  | object members => do
    let inner ← r.inside
    let (name, payload) ← names.findSome? fun name => members.find? fun m => m.1 = name
    return ⟨name, some (inner, payload)⟩
  | _ => none

namespace Alternative

def unit {α : Type} (a : Alternative) (value : α) : Option α :=
  match a.payload with
  | none => some value
  | some (_, null) => some value
  | some _ => none

def single {α : Type} (a : Alternative) (d : Decoder α) : Option α :=
  a.payload.bind fun p => d p.1 p.2

def fields (a : Alternative) (rules : List FieldRule) : Option Members :=
  match a.payload with
  | some (r, object members) => structured rules r (object members)
  | some (r, array items) =>
    if r.listedAlternatives then structured rules r (array items) else none
  | _ => none

end Alternative

def must (name : String) : FieldRule := ⟨name, false⟩

def may (name : String) : FieldRule := ⟨name, true⟩

def ofOption {α : Type} (encode : α → Json) : Option α → Json
  | some a => encode a
  | none => null

def ofList {α : Type} (encode : α → Json) (xs : List α) : Json := array (xs.map encode)

def ofNat (n : Nat) : Json := integer n

end FlowTyping.Json
