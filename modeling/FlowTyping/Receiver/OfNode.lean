import FlowTyping.Graph
import FlowTyping.Receiver

/-!
# The receiver of a node

Conversions are looked through, static members hang off their declaring class, and only calls of
deterministic methods have an identity. A node whose operands lead back to itself has none: the
search along operands ends after as many steps as the graph has nodes.
-/

namespace FlowTyping.Receiver

/-- The receiver of a node, looking at most `depth` nodes deep. -/
def ofNodeWithin (g : Graph) (isDeterministic : Method → Bool) : Nat → NodeId → Receiver
  | 0, _ => .unknown .void
  | depth + 1, id =>
    match g.node? id with
    | none => .unknown .void
    | some node =>
      match node.kind with
      | .localVariable x => .localVariable x
      | .fieldAccess base f =>
        .field (if f.isStatic then .className f.owner
          else ofNodeWithin g isDeterministic depth base) f
      | .thisLiteral => .this node.ty
      | .className => .className node.ty
      | .arrayAccess base index =>
        .array node.ty (ofNodeWithin g isDeterministic depth base)
          (ofNodeWithin g isDeterministic depth index)
      | .stringConversion operand => ofNodeWithin g isDeterministic depth operand
      | .wideningConversion operand => ofNodeWithin g isDeterministic depth operand
      | .narrowingConversion operand => ofNodeWithin g isDeterministic depth operand
      | .literal value => .literal node.ty value
      | .methodInvocation m base arguments =>
        if isDeterministic m then
          .call node.ty m
            (if m.isStatic then .className m.owner
              else ofNodeWithin g isDeterministic depth base)
            (arguments.map (ofNodeWithin g isDeterministic depth))
        else .unknown node.ty
      | _ => .unknown node.ty

/-- The receiver of a node; unknown for a node outside the graph. -/
def ofNode (g : Graph) (isDeterministic : Method → Bool) (id : NodeId) : Receiver :=
  ofNodeWithin g isDeterministic g.nodes.length id

end FlowTyping.Receiver
