import FlowTyping.Contract.Application
import FlowTyping.Store.Update
import FlowTyping.Stores

/-!
# The transfer function

`Setting.visit` gives the value of a node and the stores after it from the stores before it and
the values of its operands.

* A read takes the more specific of what the tables and the store know.
* A write drops what it may change and records the new value.
* A condition splits or exchanges the two stores and refines its operands in the branch where it
  says more about them.
* A call drops what the callee may change, then takes in its postconditions, then splits for its
  conditional postconditions.
-/

namespace FlowTyping

namespace Graph

/-- The parts of a chained assignment that all hold its value, at most `length` of them: the
targets, then the last expression. -/
def assignedPartsWithin (g : Graph) : Nat → NodeId → List NodeId
  | 0, id => [id]
  | length + 1, id =>
    match g.node? id with
    | some node => match node.kind with
      | .assignment target expression => target :: assignedPartsWithin g length expression
      | _ => [id]
    | none => [id]

/-- The parts of a chained assignment that all hold its value; any other node is its own part. -/
def assignedParts (g : Graph) (id : NodeId) : List NodeId :=
  g.assignedPartsWithin g.nodes.length id

def lambdaBodyWithin (g : Graph) : Nat → Node → Node
  | 0, node => node
  | depth + 1, node =>
    match node.kind with
    | .lambdaResult result => match g.node? result with
      | some body => lambdaBodyWithin g depth body
      | none => node
    | _ => node

/-- The node that a lambda result stands for; any other node stands for itself. -/
def lambdaBody (g : Graph) (node : Node) : Node :=
  g.lambdaBodyWithin g.nodes.length node

def isBooleanLiteral (g : Graph) (id : NodeId) (value : Bool) : Bool :=
  match g.node? id with
  | some node => node.isBooleanLiteral value
  | none => false

end Graph

namespace Setting

/-- What the tables know of a node. -/
def tableValue (st : Setting) (node : Node) : Option Value :=
  node.tree.bind fun tree => st.tables.valueOfTree tree node

/-- What the tables know of a node whose syntax can carry annotations. -/
def annotatedValue (st : Setting) (node : Node) : Option Value :=
  if node.annotatable then st.tableValue node else none

/-- A node without a rule of its own: the value comes from the tables, the stores pass. -/
def visitPlain (st : Setting) (node : Node) (stores : Stores) : Outcome :=
  ⟨st.annotatedValue node, stores⟩

def visitClassName (st : Setting) (node : Node) (stores : Stores) : Outcome :=
  ⟨if node.annotatable then node.tree.bind st.tables.valueOfTypeTree else none, stores⟩

def visitLocation (st : Setting) (g : Graph) (node : Node) (stores : Stores) : Outcome :=
  let s := stores.merged
  ⟨Value.moreSpecific? (st.tableValue node) (s.value? (st.receiverOf g node.id)), .regular s⟩

def visitThis (st : Setting) (node : Node) (stores : Stores) : Outcome :=
  let s := stores.merged
  ⟨Value.moreSpecific? (st.annotatedValue node) (s.value? (.this node.ty)), .regular s⟩

def visitTernary (values : NodeValues) (thenOperand elseOperand : NodeId) (stores : Stores) :
    Outcome :=
  ⟨Value.lub? (values.get? thenOperand) (values.get? elseOperand), stores⟩

def visitNot (st : Setting) (node : Node) (stores : Stores) : Outcome :=
  let plain := st.visitPlain node stores
  { plain with stores := plain.stores.swap }

/-- Gives a value to every receiver of a list that the store tracks. -/
def insertAll (s : Store) (receivers : List Receiver) (v : Value) : Store :=
  receivers.foldl (fun s r => s.insert r v) s

/-- The receivers that equality with an operand refines: every part of a chained assignment
whose identity is tracked. -/
def refinedByEquality (st : Setting) (g : Graph) (operand : NodeId) : List Receiver :=
  ((g.assignedParts operand).map (st.receiverOf g)).filter (·.isInsertable)

/-- Gives the receivers of the second operand the value of the first, in the branch where both
are equal, if that value says more. Without such a value or receiver nothing changes. -/
def strengthen (st : Setting) (g : Graph) (first : Option Value) (second : NodeId)
    (secondValue : Option Value) (notEqual : Bool) (stores : Stores) : Stores :=
  match first with
  | none => stores
  | some v =>
    if v.isStrictlyMorePrecise secondValue then
      match st.refinedByEquality g second with
      | [] => stores
      | receivers =>
        if notEqual then .conditional stores.thenStore (insertAll stores.elseStore receivers v)
        else .conditional (insertAll stores.thenStore receivers v) stores.elseStore
    else stores

/-- A comparison of two operands. `x == false` and `x != true` hold exactly when `x` is false, so
there the branches of `x` are exchanged. -/
def visitEquality (st : Setting) (g : Graph) (values : NodeValues) (node : Node)
    (left right : NodeId) (notEqual : Bool) (stores : Stores) : Outcome :=
  let plain := st.visitPlain node stores
  let leftValue := values.get? left
  let rightValue := values.get? right
  let comparesLiteral := g.isBooleanLiteral left notEqual || g.isBooleanLiteral right notEqual
  let split := if plain.stores.isConditional && comparesLiteral then plain.stores.swap
    else plain.stores
  ⟨plain.value,
    st.strengthen g rightValue left leftValue notEqual
      (st.strengthen g leftValue right rightValue notEqual split)⟩

/-- What is observed about an assignment: the value of a field, or of a parameter where those
are watched. -/
def assignmentLog (st : Setting) (g : Graph) (node : Node) (target : NodeId) (r : Receiver)
    (v : Option Value) (watchesParameters : Bool) : Log :=
  match g.node? target with
  | none => .empty
  | some targetNode =>
    match targetNode.kind with
    | .fieldAccess _ f => st.observe node.tree f.id [⟨.field r, v⟩]
    | .localVariable x =>
      if x.kind = .field then st.observe node.tree x.id [⟨.field r, v⟩]
      else if watchesParameters && x.kind = .parameter then
        st.observe node.tree x.id [⟨.parameter x, v⟩]
      else .empty
    | _ => .empty

def visitAssignment (st : Setting) (g : Graph) (values : NodeValues) (node : Node)
    (target expression : NodeId) (stores : Stores) : Outcome × Log :=
  let v := values.get? expression
  let r := st.receiverOf g target
  (⟨v, .regular (stores.merged.assign st.tables.oracle r v)⟩,
    st.assignmentLog g node target r v true)

/-- A compound assignment of strings; the value is what the tables say of the node. -/
def visitConcatenation (st : Setting) (g : Graph) (node : Node) (target : NodeId)
    (stores : Stores) : Outcome × Log :=
  let plain := st.visitPlain node stores
  let r := st.receiverOf g target
  (⟨plain.value, .regular (plain.stores.merged.assign st.tables.oracle r plain.value)⟩,
    st.assignmentLog g node target r plain.value false)

/-- The value of an annotated reference type that says more about an operand than the tables
do, if the operand passed a test for it. -/
def testedValue? (st : Setting) (operand : Node) (referenceType : TreeId) : Option Value :=
  match st.tables.valueOfTypeTree referenceType, st.tableValue operand with
  | some reference, some declared =>
    if st.tables.isSubtype reference declared && reference.qualifiers ≠ declared.qualifiers &&
        !declared.qualifiers.isEmpty then
      some reference
    else none
  | _, _ => none

/-- A type test. One with explicit qualifiers refines its operand. -/
def visitInstanceOf (st : Setting) (g : Graph) (node : Node) (operand : NodeId)
    (referenceType : TreeId) (annotated : Bool) (stores : Stores) : Outcome :=
  let plain := st.visitPlain node stores
  if annotated then
    match (g.node? operand).bind fun n => st.testedValue? n referenceType with
    | none => plain
    | some reference =>
      let r := st.receiverOf g operand
      ⟨plain.value, .regular (refineAll plain.stores.merged
        (reference.qualifiers.toList.map fun q => (r, Value.of r.ty [q])))⟩
  else plain

/-- What is observed about a call: its arguments, and the receiver of an instance method. -/
def callObservations (values : NodeValues) (m : Method) (receiver : NodeId)
    (arguments : List NodeId) : List Observation :=
  (arguments.mapIdx fun index a => ⟨.argument m index, values.get? a⟩) ++
    (if m.isStatic then [] else [⟨.receiver m, values.get? receiver⟩])

def visitInvocation (st : Setting) (g : Graph) (values : NodeValues) (node : Node) (m : Method)
    (receiver : NodeId) (arguments : List NodeId) (stores : Stores) : Outcome × Log :=
  let s := stores.merged
  let r := st.receiverOf g node.id
  let v := Value.moreSpecific? (st.tableValue node) (s.value? r)
  let call : CallSite := ⟨m, receiver, arguments, node.tree⟩
  let pure := st.config.assumeSideEffectFree || st.tables.isSideEffectFree m
  let after := st.assumeAtCall g call .postcondition (s.afterMethodCall st.tables.oracle r pure v)
  (⟨v, .conditional
      (st.assumeAtCall g call (.conditionalPostcondition true) after)
      (st.assumeAtCall g call (.conditionalPostcondition false) after)⟩,
    st.observe node.tree m.id (callObservations values m receiver arguments) ++
      .ofDiagnostics (st.postconditionDiagnostics g call ++ st.conditionalDiagnostics g call))

def visitCreation (st : Setting) (values : NodeValues) (node : Node) (constructor : Method)
    (arguments : List NodeId) (stores : Stores) : Outcome × Log :=
  (st.visitPlain node stores,
    st.observe node.tree constructor.id
      (arguments.mapIdx fun index a => ⟨.constructorArgument constructor index, values.get? a⟩))

/-- A return; inside a lambda there is no method to attribute the value to. -/
def visitReturn (st : Setting) (values : NodeValues) (node : Node) (result : Option NodeId)
    (m : Option Method) (stores : Stores) : Outcome × Log :=
  (st.visitPlain node stores,
    match m with
    | some m => st.observe node.tree m.id [⟨.returnOf m, result.bind values.get?⟩]
    | none => .empty)

/-- A switch label: in the branch where it matches, the switched expression and the local that
holds it have the value of the label. -/
def visitCase (st : Setting) (g : Graph) (values : NodeValues)
    (caseOperand switchTarget switchExpression : NodeId) (stores : Stores) : Outcome :=
  let caseValue := values.get? caseOperand
  let switchValue := stores.merged.value? (st.receiverOf g switchTarget)
  ⟨none,
    st.strengthen g caseValue switchTarget switchValue false
      (st.strengthen g caseValue switchExpression switchValue false
        (.conditional stores.thenStore stores.elseStore))⟩

def visitConversion (values : NodeValues) (node : Node) (operand : NodeId) (stores : Stores) :
    Outcome :=
  ⟨(values.get? operand).bind fun v =>
      Value.of? node.ty (Tables.convertQualifiers v.qualifiers v.ty node.ty).toList,
    stores⟩

/-- Visits a node that is not a lambda result with a body. -/
def visitBody (st : Setting) (g : Graph) (values : NodeValues) (node : Node) (stores : Stores) :
    Outcome × Log :=
  match node.kind with
  | .localVariable _ => (st.visitLocation g node stores, .empty)
  | .fieldAccess _ _ => (st.visitLocation g node stores, .empty)
  | .arrayAccess _ _ => (st.visitLocation g node stores, .empty)
  | .thisLiteral => (st.visitThis node stores, .empty)
  | .className => (st.visitClassName node stores, .empty)
  | .literal _ => (st.visitPlain node stores, .empty)
  | .operation _ => (st.visitPlain node stores, .empty)
  | .ternary _ thenOperand elseOperand =>
    (visitTernary values thenOperand elseOperand stores, .empty)
  | .conditionalNot _ => (st.visitNot node stores, .empty)
  | .equalTo left right => (st.visitEquality g values node left right false stores, .empty)
  | .notEqual left right => (st.visitEquality g values node left right true stores, .empty)
  | .assignment target expression => st.visitAssignment g values node target expression stores
  | .stringConcatenateAssignment target _ => st.visitConcatenation g node target stores
  | .instanceOf operand referenceType annotated =>
    (st.visitInstanceOf g node operand referenceType annotated stores, .empty)
  | .methodInvocation m receiver arguments =>
    st.visitInvocation g values node m receiver arguments stores
  | .objectCreation constructor arguments =>
    st.visitCreation values node constructor arguments stores
  | .returnStatement result m => st.visitReturn values node result m stores
  | .lambdaResult _ => (st.visitPlain node stores, .empty)
  | .switchCase caseOperand switchTarget switchExpression =>
    (st.visitCase g values caseOperand switchTarget switchExpression stores, .empty)
  | .wideningConversion operand => (visitConversion values node operand stores, .empty)
  | .narrowingConversion operand => (visitConversion values node operand stores, .empty)
  | .stringConversion operand => (⟨values.get? operand, stores⟩, .empty)
  | .variableDeclaration _ => (⟨none, .regular stores.merged⟩, .empty)

/-- The value of a node and the stores after it, with what is reported on the way. A lambda
result is visited as the expression it stands for. -/
def visit (st : Setting) (g : Graph) (values : NodeValues) (node : Node) (stores : Stores) :
    Outcome × Log :=
  st.visitBody g values (g.lambdaBody node) stores

end Setting

end FlowTyping
