import FlowTyping.Graph

/-!
# Building graphs

A graph starts with an entry and an exit block and grows by nodes, blocks and edges. An edge is
recorded at both of its ends, and a terminator brings the edges it implies. A step that names a
block or node outside the graph changes nothing there.
-/

namespace FlowTyping.Graph

/-- The graph with only the entry block and the exit block. -/
def new (code : Code) (parameters : List Variable) : Graph where
  code := code
  parameters := parameters
  nodes := []
  blocks := [.new ⟨0⟩, .new ⟨1⟩]
  entry := ⟨0⟩
  exit := ⟨1⟩

def addBlock (g : Graph) : BlockId × Graph :=
  let id : BlockId := ⟨g.blocks.length⟩
  (id, { g with blocks := g.blocks ++ [.new id] })

def addNode (g : Graph) (kind : NodeKind) (ty : Ty) (tree : Option TreeId) : NodeId × Graph :=
  let id : NodeId := ⟨g.nodes.length⟩
  (id, { g with nodes := g.nodes ++ [⟨id, ty, tree, true, kind⟩] })

/-- Says whether the syntax of a node can carry a type annotation. -/
def setAnnotatable (g : Graph) (id : NodeId) (annotatable : Bool) : Graph :=
  { g with nodes := g.nodes.modify id.index fun node => { node with annotatable } }

def modifyBlock (g : Graph) (id : BlockId) (change : Block → Block) : Graph :=
  { g with blocks := g.blocks.modify id.index change }

def pushNode (g : Graph) (block : BlockId) (node : NodeId) : Graph :=
  g.modifyBlock block fun b => { b with nodes := b.nodes ++ [node] }

def appendNew {α : Type} [DecidableEq α] (xs : List α) (x : α) : List α :=
  if x ∈ xs then xs else xs ++ [x]

/-- Records an edge at both of its ends. -/
def addEdge (g : Graph) (source target : BlockId) : Graph :=
  (g.modifyBlock source fun b => { b with successors := appendNew b.successors target }).modifyBlock
    target fun b => { b with predecessors := appendNew b.predecessors source }

def targets (g : Graph) : Terminator → List BlockId
  | .goto target => [target]
  | .branch thenBlock elseBlock => [thenBlock, elseBlock]
  | .leave => [g.exit]
  | .unreachable => []

def setTerminator (g : Graph) (block : BlockId) (terminator : Terminator) : Graph :=
  ((g.targets terminator).foldl (fun g target => g.addEdge block target) g).modifyBlock
    block fun b => { b with terminator := some terminator }

end FlowTyping.Graph
