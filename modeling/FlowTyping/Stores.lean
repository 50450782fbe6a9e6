import FlowTyping.Node
import FlowTyping.Store

/-!
# Stores around a node

After a boolean condition two stores hold, one for each outcome. `Stores` is a single store or
such a pair, and `Outcome` is the result of visiting a node: its value, if it has one, and the
stores after it.
-/

namespace FlowTyping

/-- One store, or a pair split by the last boolean condition. -/
inductive Stores where
  | regular (store : Store)
  | conditional (thenStore elseStore : Store)

namespace Stores

def isConditional : Stores → Bool
  | regular _ => false
  | conditional _ _ => true

/-- The single store, in which a pair is joined. -/
def merged : Stores → Store
  | regular s => s
  | conditional t e => t.lub e

def thenStore : Stores → Store
  | regular s => s
  | conditional t _ => t

def elseStore : Stores → Store
  | regular s => s
  | conditional _ e => e

/-- The pair with its branches exchanged; a single store becomes a pair. -/
def swap (s : Stores) : Stores := conditional s.elseStore s.thenStore

def agrees : Stores → Stores → Bool
  | regular s, regular s' => s.agrees s'
  | conditional t e, conditional t' e' => t.agrees t' && e.agrees e'
  | _, _ => false

end Stores

structure Outcome where
  value : Option Value
  stores : Stores

abbrev NodeValues := FinMap NodeId Value

end FlowTyping
