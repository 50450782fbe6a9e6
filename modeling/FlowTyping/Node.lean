import FlowTyping.Element
import FlowTyping.Literal

/-!
# Expression nodes

Every expression or statement the analysis sees is one `NodeKind`. Sub-expressions are named by
their position in the node list of a graph, so a node's operands are nodes of the same graph.
-/

namespace FlowTyping

/-- The position of a node in its graph. -/
structure NodeId where
  index : Nat
deriving DecidableEq

def NodeId.text (id : NodeId) : String := "n" ++ toString id.index

/-- The closed set of node kinds. -/
inductive NodeKind where
  | localVariable (declaration : Variable)
  | fieldAccess (receiver : NodeId) (field : Field)
  | arrayAccess (array index : NodeId)
  /-- Explicit or implicit `this`. -/
  | thisLiteral
  /-- A class name used as the receiver of a static member. -/
  | className
  | literal (value : Literal)
  /-- Any expression without a refinement rule of its own. -/
  | operation (operands : List NodeId)
  | ternary (condition thenOperand elseOperand : NodeId)
  | conditionalNot (operand : NodeId)
  | equalTo (left right : NodeId)
  | notEqual (left right : NodeId)
  | assignment (target expression : NodeId)
  | stringConcatenateAssignment (target expression : NodeId)
  /-- The flag says whether the reference type carries explicit qualifiers. -/
  | instanceOf (operand : NodeId) (referenceType : TreeId) (annotated : Bool)
  /-- The receiver of a static call is a class name node. -/
  | methodInvocation (method : Method) (receiver : NodeId) (arguments : List NodeId)
  | objectCreation (constructor : Method) (arguments : List NodeId)
  /-- The method a return belongs to is absent inside lambdas. -/
  | returnStatement (result : Option NodeId) (method : Option Method)
  | lambdaResult (result : NodeId)
  /-- One label of a switch, whose operand is first assigned to a synthetic local. -/
  | switchCase (caseOperand switchTarget switchExpression : NodeId)
  | wideningConversion (operand : NodeId)
  | narrowingConversion (operand : NodeId)
  | stringConversion (operand : NodeId)
  | variableDeclaration (declaration : Variable)
deriving DecidableEq

namespace NodeKind

/-- The nodes a node reads, in evaluation order. -/
def operands : NodeKind → List NodeId
  | fieldAccess receiver _ => [receiver]
  | arrayAccess array index => [array, index]
  | operation operands => operands
  | ternary condition thenOperand elseOperand => [condition, thenOperand, elseOperand]
  | conditionalNot operand => [operand]
  | instanceOf operand _ _ => [operand]
  | wideningConversion operand => [operand]
  | narrowingConversion operand => [operand]
  | stringConversion operand => [operand]
  | equalTo left right => [left, right]
  | notEqual left right => [left, right]
  | assignment target expression => [target, expression]
  | stringConcatenateAssignment target expression => [target, expression]
  | methodInvocation _ receiver arguments => receiver :: arguments
  | objectCreation _ arguments => arguments
  | returnStatement result _ => result.toList
  | lambdaResult result => [result]
  | switchCase caseOperand switchTarget switchExpression =>
    [switchExpression, switchTarget, caseOperand]
  | localVariable _ => []
  | thisLiteral => []
  | className => []
  | literal _ => []
  | variableDeclaration _ => []

def name : NodeKind → String
  | localVariable _ => "local-variable"
  | fieldAccess _ _ => "field-access"
  | arrayAccess _ _ => "array-access"
  | thisLiteral => "this"
  | className => "class-name"
  | literal _ => "literal"
  | operation _ => "operation"
  | ternary _ _ _ => "ternary"
  | conditionalNot _ => "conditional-not"
  | equalTo _ _ => "equal-to"
  | notEqual _ _ => "not-equal"
  | assignment _ _ => "assignment"
  | stringConcatenateAssignment _ _ => "string-concatenate-assignment"
  | instanceOf _ _ _ => "instanceof"
  | methodInvocation _ _ _ => "method-invocation"
  | objectCreation _ _ => "object-creation"
  | returnStatement _ _ => "return"
  | lambdaResult _ => "lambda-result"
  | switchCase _ _ _ => "case"
  | wideningConversion _ => "widening-conversion"
  | narrowingConversion _ => "narrowing-conversion"
  | stringConversion _ => "string-conversion"
  | variableDeclaration _ => "variable-declaration"

end NodeKind

structure Node where
  id : NodeId
  /-- The type of the expression; the destination type of a conversion. -/
  ty : Ty
  tree : Option TreeId
  /-- Whether the syntax can carry a type annotation at all. -/
  annotatable : Bool
  kind : NodeKind
deriving DecidableEq

def Node.isBooleanLiteral (node : Node) (value : Bool) : Bool :=
  match node.kind with
  | .literal (.boolean b) => b = value
  | _ => false

end FlowTyping
