import FlowTyping.Proofs.Fixpoint.RunLog
import FlowTyping.Proofs.Transfer.Lookups

/-!
# How an analysis fails

A graph is checked before anything is analyzed. Every node that an analysis of an accepted graph
looks up is there, so that the analysis fails only for a lambda whose surroundings are not given,
and never once a node has been visited.
-/

namespace FlowTyping

namespace Setting

variable {st : Setting} {g : Graph} {fixed : Option Store} {config : Config} {e : FlowError}

theorem entryStore_eq_error {code : Code} {parameters : List Variable} :
    st.entryStore fixed code parameters = .error e ↔
      fixed = none ∧ ∃ tree, code = .lambda tree ∧ e = .missingFixedStore tree := by
  cases code with
  | method m tree cls => simp [entryStore]
  | lambda tree =>
    cases fixed with
    | none => simp [entryStore, eq_comm]
    | some enclosing => simp [entryStore]
  | fragment tree => simp [entryStore]

theorem solve_eq_error_iff : (st.engine fixed).solve g config = .error e ↔
    g.check = .error e ∨
      g.check = .ok () ∧ st.entryStore fixed g.code g.parameters = .error e := by
  cases hcheck : g.check with
  | error fault =>
    have hsolve : (st.engine fixed).solve g config = .error fault := by
      simp [Engine.solve, hcheck, bind, Except.bind]
    rw [hsolve]
    simp
  | ok accepted =>
    constructor
    · intro h
      exact Or.inr ⟨rfl, (Engine.solve_eq_error h).resolve_left (by simp [hcheck])⟩
    · rintro (hfault | ⟨-, hentry⟩)
      · cases hfault
      · have hseed : (st.engine fixed).entryStore g.code g.parameters = .error e := hentry
        simp [Engine.solve, hcheck, hseed, bind, Except.bind]

/-- In an accepted graph every node that a run looks up is there and carries its own position: the
nodes of blocks, and what is under them. Nothing else is looked up, neither by the searches along
operands, whatever their bound, nor by a visit, whatever values and stores it starts from. So a run
never fails once it has started, and an analysis fails exactly if the graph is not accepted, or for
a lambda whose surroundings are not given. -/
theorem lookups_found (st : Setting) (g : Graph) (fixed : Option Store) (config : Config) :
    (g.check = .ok () →
      (∀ id block, g.block? id = some block → ∀ n ∈ block.nodes, ∀ o, g.Under o n →
        ∃ node, g.node? o = some node ∧ node.id = o) ∧
      (∀ g' n, g.AgreesUnder g' n →
        (∀ isDeterministic depth, SearchesAgree isDeterministic g g' depth depth n) ∧
        ((g.Acyclic ∨ g'.nodes.length = g.nodes.length) →
          ∀ node values values' stores, g.node? n = some node →
            (∀ o, g.Under o n → values'.get? o = values.get? o) →
            st.visit g' values' node stores = st.visit g values node stores)) ∧
      ∀ initial limit p, ∃ result,
        (st.engine fixed).iterate g config initial limit p = .ok result) ∧
    ∀ e, (st.engine fixed).solve g config = .error e ↔
      g.check = .error e ∨ g.check = .ok () ∧ fixed = none ∧
        ∃ tree, g.code = .lambda tree ∧ e = .missingFixedStore tree := by
  refine ⟨fun hcheck => ⟨?_, ?_, ?_⟩, fun e => ?_⟩
  · intro id block hblock n hn o ho
    exact ho.found hcheck (Engine.isSome_node?_of_check hcheck hblock n hn)
  · intro g' n hagrees
    refine ⟨fun isDeterministic depth => SearchesAgree.within hagrees depth, ?_⟩
    intro hbound node values values' stores hnode hvalues
    exact visit_agree hcheck hnode hagrees hbound hvalues
  · intro initial limit p
    exact Engine.iterate_total hcheck limit p
  · rw [solve_eq_error_iff, entryStore_eq_error]

end Setting

namespace LambdaOfAssignment

private def element : Ty := .declared "app.Node"

private def next : Field := ⟨⟨20⟩, "next", element, element, false, false⟩

private def nodeAt (index : Nat) (kind : NodeKind) : Node := ⟨⟨index⟩, element, none, true, kind⟩

private def result : Node := nodeAt 4 (.lambdaResult ⟨3⟩)

/-- `() -> this.next = null` -/
private def graph : Graph where
  code := .lambda ⟨7⟩
  parameters := []
  nodes := [nodeAt 0 .thisLiteral, nodeAt 1 (.fieldAccess ⟨0⟩ next), nodeAt 2 (.literal .null),
    nodeAt 3 (.assignment ⟨1⟩ ⟨2⟩), result]
  blocks := [⟨⟨0⟩, [⟨4⟩], some (.goto ⟨1⟩), [], [⟨1⟩]⟩, ⟨⟨1⟩, [], none, [⟨0⟩], []⟩]
  entry := ⟨0⟩
  exit := ⟨1⟩

private def extended : Graph := { graph with nodes := graph.nodes ++ [nodeAt 5 .thisLiteral] }

private def setting : Setting := .ofTables .empty .empty .default

/-- The target of the assignment is looked up through the lambda result, and found. -/
theorem result_lookups_found :
    graph.check = .ok () ∧ graph.Acyclic ∧ graph.Under ⟨0⟩ ⟨4⟩ ∧
    (∃ node, graph.node? ⟨0⟩ = some node ∧ node.id = ⟨0⟩) ∧
    (∀ values stores, setting.visit extended values result stores =
      setting.visit graph values result stores) ∧
    (setting.engine none).solve graph .default = .error (.missingFixedStore ⟨7⟩) := by
  have hcheck : graph.check = .ok () := rfl
  have hacyclic : graph.Acyclic := Graph.acyclic_of_index_lt (by decide)
  have hunder : graph.Under ⟨0⟩ ⟨4⟩ :=
    ((Graph.under_operand (n := ⟨1⟩) rfl (by decide)).trans
      (Graph.under_operand (n := ⟨3⟩) rfl (by decide))).trans
      (Graph.under_operand (n := ⟨4⟩) rfl (by decide))
  obtain ⟨haccepted, hfails⟩ := Setting.lookups_found setting graph none .default
  obtain ⟨hfound, hvisits, -⟩ := haccepted hcheck
  refine ⟨hcheck, hacyclic, hunder, hfound ⟨0⟩ _ rfl ⟨4⟩ (by decide) ⟨0⟩ hunder, ?_, ?_⟩
  · intro values stores
    have hagrees : graph.AgreesUnder extended ⟨4⟩ := Graph.agreesUnder_append hcheck rfl rfl
    exact (hvisits extended ⟨4⟩ hagrees).2 (Or.inl hacyclic) result values values stores rfl
      fun _ _ => rfl
  · exact (hfails _).2 (Or.inr ⟨hcheck, rfl, ⟨7⟩, rfl, rfl⟩)

end LambdaOfAssignment

end FlowTyping
