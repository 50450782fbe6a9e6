import FlowTyping.Node

/-!
# Analysis errors

The ways in which a graph can break what the analysis asks of it.
-/

namespace FlowTyping

/-- Why a graph cannot be analyzed. -/
inductive FlowError where
  | missingFixedStore (tree : TreeId)
  | unknownNode (node : NodeId)
  | malformedCase (node : NodeId)
  | notAParameter (name : String)
deriving DecidableEq

def FlowError.message : FlowError → String
  | missingFixedStore tree =>
    "lambda " ++ tree.text ++ " has no fixed initial store to capture from"
  | unknownNode node => "node " ++ node.text ++ " is referenced but missing from the graph"
  | malformedCase node => "case node " ++ node.text ++ " does not switch on a synthetic local"
  | notAParameter name =>
    "`" ++ name ++ "` is listed as a parameter of the graph but is not declared as one"

end FlowTyping
