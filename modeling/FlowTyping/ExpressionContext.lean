import FlowTyping.Receiver.OfNode

/-!
# Where a contract expression is read

An expression such as `this.next` or `#1` means one thing inside the method that declares the
contract and another at a call. `ExpressionContext.ofDeclaration` and `ExpressionContext.ofCall`
give the receivers that the expression may start from.
-/

namespace FlowTyping

/-- What the starting points of an expression stand for. -/
structure ExpressionContext where
  /-- What `this` stands for. -/
  receiver : Receiver
  /-- What `#1`, `#2`, … stand for. -/
  arguments : List Receiver
  /-- Where unqualified field names are looked up. -/
  outer : Receiver
  /-- Whether the expression is read at a call. -/
  atCall : Bool

/-- A method call whose contracts are applied. -/
structure CallSite where
  method : Method
  receiver : NodeId
  arguments : List NodeId
  tree : Option TreeId

namespace ExpressionContext

/-- The context inside the body of a method, where parameters are locals. -/
def ofDeclaration (m : Method) (parameters : List Variable) : ExpressionContext :=
  let receiver : Receiver := if m.isStatic then .className m.owner else .this m.owner
  ⟨receiver, parameters.map .localVariable, receiver, false⟩

/-- The context at a call, where parameters are the actual arguments. -/
def ofCall (g : Graph) (isDeterministic : Method → Bool) (call : CallSite) : ExpressionContext :=
  let receiver : Receiver :=
    if call.method.isStatic then .className call.method.owner
    else .ofNode g isDeterministic call.receiver
  ⟨receiver, call.arguments.map (Receiver.ofNode g isDeterministic), receiver, true⟩

end ExpressionContext

end FlowTyping
