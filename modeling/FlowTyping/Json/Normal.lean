import FlowTyping.Json.Decoder
import FlowTyping.Json.Magnitude
import FlowTyping.Json.Parser

/-!
# Documents in normal form

In a normal document every string holds text, every number is read as a finite one, containers
nest only so deep, and an object names each member once. Of several members with one name the last
one stands for all.
-/

namespace FlowTyping.Json

/-- The members of an object with a new one, which replaces an earlier one of its name. -/
def putMember (ms : List (String × Json)) (name : String) (j : Json) : List (String × Json) :=
  ms.filter (fun m => m.1 ≠ name) ++ [(name, j)]

mutual

/-- The normal form of a document whose containers nest no deeper than so many levels. -/
def normal? : (depth : Nat) → Json → Option Json
  | _, malformed => none
  | _, decimal spelling => if staysFinite spelling.toList then some (decimal spelling) else none
  | _, integer n => if staysFinite (integerText n) then some (integer n) else none
  | depth + 1, array items => (normalItems? depth items).map array
  | depth + 1, object members => (normalMembers? depth [] members).map object
  | 0, array _ => none
  | 0, object _ => none
  | _, j => some j

def normalItems? (depth : Nat) : List Json → Option (List Json)
  | [] => some []
  | j :: js => match normal? depth j, normalItems? depth js with
    | some j, some js => some (j :: js)
    | _, _ => none

def normalMembers? (depth : Nat) (before : List (String × Json)) :
    List (String × Json) → Option (List (String × Json))
  | [] => some before
  | (name, j) :: ms => match normal? depth j with
    | some j => normalMembers? depth (putMember before name j) ms
    | none => none

end

def parseNormal? (text : String) : Option Json := (parse? text).bind (normal? maxDepth)

mutual

/-- A document with the members of its objects in order of their names. -/
def sorted : Json → Json
  | array items => array (sortedItems items)
  | object members => object ((sortedMembers members).mergeSort fun a b => !decide (b.1 < a.1))
  | j => j

def sortedItems : List Json → List Json
  | [] => []
  | j :: js => sorted j :: sortedItems js

def sortedMembers : List (String × Json) → List (String × Json)
  | [] => []
  | (name, j) :: ms => (name, sorted j) :: sortedMembers ms

end

end FlowTyping.Json
