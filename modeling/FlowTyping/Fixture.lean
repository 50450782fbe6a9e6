import FlowTyping.Fixpoint
import FlowTyping.Store.Listing
import FlowTyping.Tables.Check

/-!
# Fixtures

A fixture is everything one analysis needs: a graph, tables, suppressions and a configuration.
Running it gives a `Summary`, the printable outcome: the facts known on entry to each reached
block, the diagnostics and the observations.
-/

namespace FlowTyping

structure Fixture where
  config : Config
  graph : Graph
  tables : Tables
  suppressed : SuppressionList
deriving DecidableEq

/-- Settings that can be turned on, but not off, from outside a configuration. -/
structure Overrides where
  concurrentSemantics : Bool
  infer : Bool
  assumeSideEffectFree : Bool

def Overrides.none : Overrides := ⟨false, false, false⟩

def Overrides.apply (o : Overrides) (c : Config) : Config :=
  { c with
    concurrentSemantics := c.concurrentSemantics || o.concurrentSemantics
    infer := c.infer || o.infer
    assumeSideEffectFree := c.assumeSideEffectFree || o.assumeSideEffectFree }

structure Summary where
  converged : Bool
  iterations : Nat
  /-- The facts on entry to each reached block, sorted, in block order. -/
  stores : List (BlockId × List String)
  diagnostics : List Diagnostic
  observations : List String

/-- Why an analysis has no outcome. -/
inductive RunError where
  | tables (e : TableError)
  | flow (e : FlowError)

def RunError.message : RunError → String
  | tables e => "indexing type tables: " ++ e.message
  | flow e => e.message

/-- The order of texts by their characters. -/
def textLe (a b : String) : Bool := !decide (b < a)

def Store.sortedLines (s : Store) : List String :=
  (s.entries.map fun e => factText e.1 e.2).mergeSort textLe

def Summary.ofSolution (solution : Solution) : Summary where
  converged := solution.converged
  iterations := solution.iterations
  stores := (solution.inputs.entries.mergeSort fun a b => a.1.index ≤ b.1.index).map fun e =>
    (e.1, e.2.sortedLines)
  diagnostics := solution.log.diagnostics
  observations := solution.log.observations.map (·.text)

namespace Fixture

/-- Runs a fixture under a configuration that replaces its own. -/
def runWith (f : Fixture) (config : Config) : Except RunError Summary :=
  match f.tables.check with
  | .error e => .error (.tables e)
  | .ok () =>
    match (Setting.ofTables f.tables f.suppressed config).analyze f.graph none with
    | .error e => .error (.flow e)
    | .ok solution => .ok (.ofSolution solution)

def run (f : Fixture) : Except RunError Summary := f.runWith f.config

end Fixture

end FlowTyping
