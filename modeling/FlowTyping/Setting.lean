import FlowTyping.Config
import FlowTyping.PathExpression
import FlowTyping.Report
import FlowTyping.Tables

/-!
# What an analysis consults

An analysis depends on type tables, a reader of contract expressions, a configuration, and on
what happens to its observations: whether anything collects them and where they are suppressed.
`Setting.observe` is the one place where an observation is let through or held back.
-/

namespace FlowTyping

/-- Where warnings, and with them observations, are suppressed. -/
structure Suppression where
  tree : TreeId → Bool
  element : ElementId → Bool

structure SuppressionList where
  trees : List TreeId
  elements : List ElementId
deriving DecidableEq

namespace SuppressionList

def empty : SuppressionList := ⟨[], []⟩

def suppression (l : SuppressionList) : Suppression :=
  ⟨fun tree => tree ∈ l.trees, fun element => element ∈ l.elements⟩

end SuppressionList

/-- Everything an analysis consults besides the graph. -/
structure Setting where
  tables : Tables
  reader : ExpressionReader
  config : Config
  /-- Whether observations are collected at all. -/
  collects : Bool
  suppression : Suppression

namespace Setting

/-- The setting given by tables and a suppression list, with the path expressions over the
fields of the tables. -/
def ofTables (tables : Tables) (suppressed : SuppressionList) (config : Config) : Setting :=
  ⟨tables, pathReader tables.fieldList, config, true, suppressed.suppression⟩

def admits (st : Setting) (tree : Option TreeId) (element : ElementId) : Bool :=
  st.config.infer && st.collects &&
    !((match tree with
      | some tree => st.suppression.tree tree
      | none => false) || st.suppression.element element)

/-- The log of some observations made at a tree and an element, empty where they are not let
through. -/
def observe (st : Setting) (tree : Option TreeId) (element : ElementId)
    (observations : List Observation) : Log :=
  if st.admits tree element then .ofSightings (observations.map fun o => ⟨tree, element, o⟩)
  else .empty

def receiverOf (st : Setting) (g : Graph) (id : NodeId) : Receiver :=
  .ofNode g st.tables.isDeterministic id

end Setting

end FlowTyping
