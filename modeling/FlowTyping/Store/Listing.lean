import FlowTyping.Store

/-!
# Listing a store

The facts of a store as text, one line each, grouped by the kind of receiver and sorted by text
inside a group. The listing depends only on what the store knows.
-/

namespace FlowTyping

def factText (r : Receiver) (v : Value) : String := r.text ++ ": " ++ v.text

namespace Store

/-- The facts of a store; the type of `this` is that of its value. -/
def entries (s : Store) : List (Receiver × Value) :=
  match s.thisValue with
  | some v => (.this v.ty, v) :: s.facts.entries
  | none => s.facts.entries

def lineLe (a b : Nat × String) : Bool :=
  a.1 < b.1 || (a.1 = b.1 && !decide (b.2 < a.2))

def lines (s : Store) : List (Nat × String) :=
  (s.entries.map fun e => (e.1.rank, factText e.1 e.2)).mergeSort lineLe

/-- The listing of a store between braces; a store that knows nothing is a pair of braces. -/
def text (s : Store) : String :=
  if s.isEmpty then "\x7b\x7d"
  else "\x7b\n" ++ String.join (s.lines.map fun l => "  " ++ l.2 ++ "\n") ++ "\x7d"

end Store

end FlowTyping
