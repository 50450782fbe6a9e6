/-!
# TOML documents

The tables of a settings file and the values in them. A table remembers where it came from,
because each may be written in one place only: under a header of its own, through dotted keys, or
between braces. `Toml.Members.put` adds a setting, `open?` and `openItem?` add the headers of a
table and of an item in a list of tables; all refuse what is there already.
-/

namespace FlowTyping

/-- How a table came to be. -/
inductive Toml.Origin where
  /-- It has a header of its own. -/
  | header
  /-- A header names a table inside it. -/
  | implied
  /-- A dotted key leads through it. -/
  | dotted
  /-- It is written between braces, and complete. -/
  | braces
deriving DecidableEq

inductive Toml where
  | boolean (value : Bool)
  | integer (value : Int64)
  /-- A number that is no integer, as it is spelled. -/
  | float (spelling : String)
  | string (value : String)
  /-- A date, a time of day or both, as it is spelled. -/
  | moment (spelling : String)
  | array (items : List Toml)
  | table (origin : Toml.Origin) (members : List (String × Toml))
  /-- A list of tables that grows by headers; the last one is still open. -/
  | tables (earlier : List (List (String × Toml))) (last : List (String × Toml))

namespace Toml

abbrev Members := List (String × Toml)

namespace Members

def get? (ms : Members) (key : String) : Option Toml :=
  (ms.find? fun m => m.1 = key).map (·.2)

/-- The members with one of them replaced, or added at the end. -/
def set (ms : Members) (key : String) (value : Toml) : Members :=
  if ms.any fun m => m.1 = key then ms.map fun m => if m.1 = key then (key, value) else m
  else ms ++ [(key, value)]

/-- The members after a setting under a dotted key. The key's tables are made by dotted keys, or
lie between the table and another that has a header; the last of them is made by dotted keys. -/
def putDotted : (path : List String) → (key : String) → Toml → Members → Option Members
  | [], key, value, ms =>
    match ms.get? key with
    | some _ => none
    | none => some (ms.set key value)
  | step :: path, key, value, ms =>
    match ms.get? step with
    | none => (putDotted path key value []).map fun inner => ms.set step (.table .dotted inner)
    | some (.table .dotted inner) =>
      (putDotted path key value inner).map fun inner => ms.set step (.table .dotted inner)
    | some (.table .implied inner) =>
      if path.isEmpty then none
      else (putDotted path key value inner).map fun inner => ms.set step (.table .implied inner)
    | some (.tables earlier last) =>
      if path.isEmpty then none
      else (putDotted path key value last).map fun last => ms.set step (.tables earlier last)
    | some _ => none

/-- The members after a change inside the table that a header leads to. A list of tables leads to
its last one; nothing leads into a table between braces. -/
def within? (change : Members → Option Members) : (header : List String) → Members →
    Option Members
  | [], ms => change ms
  | step :: header, ms =>
    match ms.get? step with
    | none => (within? change header []).map fun inner => ms.set step (.table .implied inner)
    | some (.table .braces _) => none
    | some (.table origin inner) =>
      (within? change header inner).map fun inner => ms.set step (.table origin inner)
    | some (.tables earlier last) =>
      (within? change header last).map fun last => ms.set step (.tables earlier last)
    | some _ => none

/-- The members after a setting under a dotted key in the table that a header opened. -/
def put (header path : List String) (key : String) (value : Toml) (ms : Members) :
    Option Members :=
  ms.within? (putDotted path key value) header

/-- The members after the header of a table, which may be implied by an earlier header. -/
def open? (path : List String) (key : String) (ms : Members) : Option Members :=
  ms.within? (fun ms =>
    match ms.get? key with
    | none => some (ms.set key (.table .header []))
    | some (.table .implied inner) => some (ms.set key (.table .header inner))
    | some _ => none) path

/-- The members after the header of one more table in a list of tables. -/
def openItem? (path : List String) (key : String) (ms : Members) : Option Members :=
  ms.within? (fun ms =>
    match ms.get? key with
    | none => some (ms.set key (.tables [] []))
    | some (.tables earlier last) => some (ms.set key (.tables (earlier ++ [last]) []))
    | some _ => none) path

end Members

end Toml

end FlowTyping
