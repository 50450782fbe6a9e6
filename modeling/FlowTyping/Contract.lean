import FlowTyping.Qualifier

/-!
# Method contracts

A contract names an expression and a qualifier that holds for it before a method runs, after it
returns, or after it returns a given truth value.
-/

namespace FlowTyping

/-- When a contract holds. -/
inductive ContractKind where
  | precondition
  | postcondition
  /-- Holds when the method returned `result`. -/
  | conditionalPostcondition (result : Bool)
deriving DecidableEq

structure Contract where
  kind : ContractKind
  expression : String
  qualifier : Qualifier
deriving DecidableEq

end FlowTyping
