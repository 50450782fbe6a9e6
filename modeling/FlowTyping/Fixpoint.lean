import FlowTyping.EntryStore
import FlowTyping.Graph.Order
import FlowTyping.Transfer

/-!
# Fixpoints over a graph

An `Engine` says which store a body starts from and what visiting a node does. `Engine.solve`
visits blocks from a worklist, at first in reverse postorder, until the stores that leave each
block and the values of its nodes stop changing, or until a given number of visits. The entry
store of a block is the join of what its predecessors send it; a predecessor that ends in a
branch sends each successor the store of its own outcome.
-/

namespace FlowTyping

/-- What an analysis does at the entry of a body and at each node. -/
structure Engine where
  entryStore : Code → List Variable → Except FlowError (Store × Log)
  visit : Graph → NodeValues → Node → Stores → Outcome × Log

def Setting.engine (st : Setting) (fixed : Option Store) : Engine :=
  ⟨st.entryStore fixed, st.visit⟩

structure Visit where
  node : NodeId
  value : Option Value
  /-- Whether two stores left the node. -/
  splits : Bool

/-- The result of running the nodes of a block. -/
structure BlockRun where
  stores : Stores
  values : NodeValues
  /-- Whether the value of some node changed. -/
  changed : Bool
  log : Log
  visits : List Visit

/-- Everything a run has found out so far. -/
structure Progress where
  /-- The store on entry to each reached block. -/
  inputs : FinMap BlockId Store
  /-- The stores leaving each reached block. -/
  outputs : FinMap BlockId Stores
  values : NodeValues
  /-- How often each block was run. -/
  runs : FinMap BlockId Nat
  worklist : List BlockId
  iterations : Nat
  log : Log
  visits : List Visit

structure Solution where
  inputs : FinMap BlockId Store
  outputs : FinMap BlockId Stores
  values : NodeValues
  /-- The number of block visits. -/
  iterations : Nat
  /-- False if the bound on block visits was hit first. -/
  converged : Bool
  log : Log
  visits : List Visit

/-- The store sent along the edge from a block with the given output to `target`. -/
def edgeStore (stores : Stores) (terminator : Option Terminator) (target : BlockId) : Store :=
  match stores, terminator with
  | .conditional t e, some (.branch thenBlock elseBlock) =>
    if thenBlock = elseBlock then t.lub e
    else if target = thenBlock then t
    else e
  | stores, _ => stores.merged

namespace Graph

/-- What the computed predecessors of a block send it, in the order in which they are listed. -/
def incoming (g : Graph) (outputs : FinMap BlockId Stores) (block : Block) : List Store :=
  block.predecessors.filterMap fun p =>
    match outputs.get? p, g.block? p with
    | some stores, some source => some (edgeStore stores source.terminator block.id)
    | _, _ => none

/-- The join of all that flows into a block, the initial store at the entry included; nothing
for a block that nothing has reached. -/
def joinPredecessors (g : Graph) (outputs : FinMap BlockId Stores) (initial : Store)
    (block : Block) : Option Store :=
  if block.id = g.entry then some ((g.incoming outputs block).foldl .lub initial)
  else match g.incoming outputs block with
    | [] => none
    | s :: rest => some (rest.foldl .lub s)

end Graph

namespace Engine

def runNode (engine : Engine) (g : Graph) (run : BlockRun) (id : NodeId) :
    Except FlowError BlockRun :=
  match g.node? id with
  | none => .error (.unknownNode id)
  | some node =>
    let (outcome, log) := engine.visit g run.values node run.stores
    .ok {
      stores := outcome.stores
      values := run.values.set id outcome.value
      changed := run.changed || run.values.get? id ≠ outcome.value
      log := run.log ++ log
      visits := run.visits ++ [⟨id, outcome.value, outcome.stores.isConditional⟩] }

/-- Visits the nodes of a block in order, from a store on entry. -/
def runBlock (engine : Engine) (g : Graph) (values : NodeValues) (ids : List NodeId)
    (input : Store) : Except FlowError BlockRun :=
  ids.foldlM (engine.runNode g) ⟨.regular input, values, false, .empty, []⟩

/-- The store on entry to a block at its next run, widened when it has been run too often. -/
def widenedInput (config : Config) (p : Progress) (id : BlockId) (joined : Store) : Store :=
  match config.widenAfter, p.inputs.get? id with
  | some limit, some previous =>
    if limit < (p.runs.get? id).getD 0 + 1 then joined.widen previous else joined
  | _, _ => joined

/-- The successors that are not waiting yet, each once. -/
def newcomers (worklist successors : List BlockId) : List BlockId :=
  successors.foldl (fun fresh s => if s ∈ worklist ++ fresh then fresh else fresh ++ [s]) []

/-- Takes the result of running a block into account. A block whose stores or values changed
wakes its successors. -/
def settle (p : Progress) (id : BlockId) (block : Block) (input : Store) (run : BlockRun) :
    Progress :=
  let sameOutput := match p.outputs.get? id with
    | some old => old.agrees run.stores
    | none => false
  let p := { p with
    values := run.values
    runs := p.runs.insert id ((p.runs.get? id).getD 0 + 1)
    log := p.log ++ run.log
    visits := p.visits ++ run.visits }
  if run.changed || !sameOutput then
    { p with
      inputs := p.inputs.insert id input
      outputs := p.outputs.insert id run.stores
      worklist := p.worklist ++ newcomers p.worklist block.successors }
  else if p.inputs.contains id then p
  else { p with inputs := p.inputs.insert id input }

def step (engine : Engine) (g : Graph) (config : Config) (initial : Store) (p : Progress)
    (id : BlockId) : Except FlowError Progress :=
  match g.block? id with
  | none => .ok p
  | some block =>
    match g.joinPredecessors p.outputs initial block with
    | none => .ok p
    | some joined =>
      let input := widenedInput config p id joined
      match engine.runBlock g p.values block.nodes input with
      | .error e => .error e
      | .ok run => .ok (settle p id block input run)

/-- Visits waiting blocks until none waits, at most `limit` of them; also says whether none is
left. -/
def iterate (engine : Engine) (g : Graph) (config : Config) (initial : Store) :
    Nat → Progress → Except FlowError (Progress × Bool)
  | limit, p =>
    match p.worklist with
    | [] => .ok (p, true)
    | id :: rest =>
      match limit with
      | 0 => .ok ({ p with worklist := rest }, false)
      | limit + 1 =>
        let p := { p with worklist := rest, iterations := p.iterations + 1 }
        match engine.step g config initial p id with
        | .error e => .error e
        | .ok p => iterate engine g config initial limit p

def start (g : Graph) (log : Log) : Progress :=
  ⟨.empty, .empty, .empty, .empty, g.reversePostorder, 0, log, []⟩

/-- Runs an engine over a graph to a fixpoint, or until the bound of the configuration. -/
def solve (engine : Engine) (g : Graph) (config : Config) : Except FlowError Solution := do
  g.check
  let (initial, log) ← engine.entryStore g.code g.parameters
  let (p, converged) ← engine.iterate g config initial config.maxIterations (start g log)
  return ⟨p.inputs, p.outputs, p.values, p.iterations, converged, p.log, p.visits⟩

end Engine

/-- Analyzes a graph. Code nested in an analyzed body starts from the store at that point. -/
def Setting.analyze (st : Setting) (g : Graph) (enclosing : Option Store) :
    Except FlowError Solution :=
  (st.engine enclosing).solve g st.config

end FlowTyping
