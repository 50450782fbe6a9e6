/-!
# Configuration

The choices that an analysis leaves to its user.
-/

namespace FlowTyping

structure Config where
  /-- Whether other threads may write any non-final field at any time. -/
  concurrentSemantics : Bool
  /-- Whether observed types are passed on for inference. -/
  infer : Bool
  /-- Whether every method is taken to be free of side effects. -/
  assumeSideEffectFree : Bool
  /-- The number of block visits after which the analysis gives up. -/
  maxIterations : Nat
  /-- The number of visits of a block after which its entry store is widened. -/
  widenAfter : Option Nat
deriving DecidableEq

namespace Config

/-- Sequential semantics, no inference, and a thousand block visits. -/
def default : Config := ⟨false, false, false, 1000, none⟩

/-- The configuration for analyses that have to hold under concurrent mutation. -/
def concurrent : Config := { default with concurrentSemantics := true }

def isSequential (c : Config) : Bool := !c.concurrentSemantics

end Config

end FlowTyping
