import FlowTyping.Element
import FlowTyping.Value

/-!
# What a store asks about types

Invalidation needs to know which types may belong to the same object and what monotonic
qualifiers guarantee about fields. `StoreOracle.byEquality` knows of no subtyping and of no
monotonic field.
-/

namespace FlowTyping

/-- Facts about types and fields that decide which store entries survive a write or a call. -/
structure StoreOracle where
  /-- Whether expressions of the two types may refer to the same object. -/
  canAlias : Ty → Ty → Bool
  /-- Whether storing the value only moves a monotonic qualifier of the field to its target. -/
  isMonotonicUpdate : Field → Value → Bool
  /-- The part of a field's value that survives an arbitrary call. -/
  monotonicRetained : Field → Value → Option Value

/-- The oracle for which only equal types alias and no field is monotonic. -/
def StoreOracle.byEquality : StoreOracle where
  canAlias s t := s = t
  isMonotonicUpdate _ _ := false
  monotonicRetained _ _ := none

end FlowTyping
