import FlowTyping.FlowError

/-!
# Control flow graphs

A graph is a list of nodes, a list of blocks that hold node positions, and for each block the
edges and the terminator that say how control leaves it. Nodes and blocks are looked up by
position. `Graph.check` decides what the rest of the library asks of a graph: every position
named exists, nodes stand at their own position, a case node switches on a local variable, and
parameters are declared as such.
-/

namespace FlowTyping

/-- The position of a block in its graph. -/
structure BlockId where
  index : Nat
deriving DecidableEq

def BlockId.text (id : BlockId) : String := "b" ++ toString id.index

/-- How control leaves a block. -/
inductive Terminator where
  /-- The stores of both outcomes merge on the way out. -/
  | goto (target : BlockId)
  /-- Each outcome of the last node has a block of its own. -/
  | branch (thenBlock elseBlock : BlockId)
  /-- Control goes to the exit block. -/
  | leave
  | unreachable
deriving DecidableEq

structure Block where
  id : BlockId
  nodes : List NodeId
  terminator : Option Terminator
  predecessors : List BlockId
  successors : List BlockId
deriving DecidableEq

def Block.new (id : BlockId) : Block := ⟨id, [], none, [], []⟩

/-- A field declared by the class whose method is analyzed. -/
structure FieldDeclaration where
  field : Field
  tree : TreeId
deriving DecidableEq

structure ClassInfo where
  element : ElementId
  ty : Ty
  fields : List FieldDeclaration
deriving DecidableEq

inductive Code where
  | method (element : Method) (tree : TreeId) (cls : ClassInfo)
  | lambda (tree : TreeId)
  /-- Field initializers, initializer blocks and other code outside methods. -/
  | fragment (tree : TreeId)
deriving DecidableEq

def Code.tree : Code → TreeId
  | method _ tree _ => tree
  | lambda tree => tree
  | fragment tree => tree

/-- The control flow graph of one method, lambda or fragment. -/
structure Graph where
  code : Code
  /-- Formal parameters, in declaration order. -/
  parameters : List Variable
  nodes : List Node
  blocks : List Block
  entry : BlockId
  exit : BlockId
deriving DecidableEq

namespace Graph

def node? (g : Graph) (id : NodeId) : Option Node := g.nodes[id.index]?

def block? (g : Graph) (id : BlockId) : Option Block := g.blocks[id.index]?

/-- The successors of a block; none for a block that does not exist. -/
def successors (g : Graph) (id : BlockId) : List BlockId :=
  match g.block? id with
  | some block => block.successors
  | none => []

def parameterFault? (g : Graph) : Option FlowError :=
  (g.parameters.find? (·.kind ≠ .parameter)).map fun p => .notAParameter p.name

/-- The first of some node positions that lies outside the graph. -/
def missingNode? (g : Graph) (ids : List NodeId) : Option FlowError :=
  (ids.find? fun id => (g.node? id).isNone).map .unknownNode

def isLocalVariable (g : Graph) (id : NodeId) : Bool :=
  match g.node? id with
  | some node => match node.kind with
    | .localVariable _ => true
    | _ => false
  | none => false

/-- What is wrong with the node found at a position. -/
def nodeFault? (g : Graph) (position : Nat) (node : Node) : Option FlowError :=
  if node.id.index ≠ position then some (.unknownNode node.id)
  else match g.missingNode? node.kind.operands with
    | some e => some e
    | none => match node.kind with
      | .switchCase _ switchTarget _ =>
        if g.isLocalVariable switchTarget then none else some (.malformedCase node.id)
      | _ => none

/-- The first fault of a graph: parameters first, then the blocks, then the nodes. -/
def fault? (g : Graph) : Option FlowError :=
  g.parameterFault?.or <|
    (g.blocks.findSome? fun block => g.missingNode? block.nodes).or <|
      g.nodes.zipIdx.findSome? fun entry => g.nodeFault? entry.2 entry.1

/-- Accepts the graphs without a fault. -/
def check (g : Graph) : Except FlowError Unit :=
  match g.fault? with
  | some e => .error e
  | none => .ok ()

end Graph

end FlowTyping
