import FlowTyping.Proofs.Graph.Paths
import FlowTyping.Transfer

/-!
# What a visit reads

A visit of a node depends on the values of a few nodes only: the operands of the expression that
it stands for. When operands come before the nodes that use them, all of these values have been
computed before the visit, those of the same block earlier in the block.
-/

namespace FlowTyping

namespace Graph

variable {g : Graph}

/-- The nodes whose values a visit looks at. -/
def reads (g : Graph) (node : Node) : List NodeId := (g.lambdaBody node).kind.operands

private theorem visited_operands (hg : g.OperandsFirst) (depth : Nat) :
    ∀ {passed : List BlockId} {id : BlockId} {block : Block} {before after : List NodeId}
      {n : NodeId} {node : Node}, g.Path passed id → g.block? id = some block →
      block.nodes = before ++ n :: after → g.node? n = some node →
      ∀ o ∈ (g.lambdaBodyWithin depth node).kind.operands, g.Visited passed before o := by
  induction depth with
  | zero =>
    intro passed id block before after n node hp hb hn hnode
    exact hg _ _ _ _ _ _ _ hp hb hn hnode
  | succ depth ih =>
    intro passed id block before after n node hp hb hn hnode o ho
    have hown := hg _ _ _ _ _ _ _ hp hb hn hnode
    rw [lambdaBodyWithin] at ho
    split at ho
    · next result hkind =>
      split at ho
      · next body hbody =>
        have hresult : result ∈ node.kind.operands := by simp [hkind, NodeKind.operands]
        rcases hown result hresult with hbefore | ⟨c, hc, source, hsource, hmem⟩
        · obtain ⟨front, back, rfl⟩ := List.append_of_mem hbefore
          have hsplit : block.nodes = front ++ result :: (back ++ n :: after) := by
            rw [hn, List.append_assoc, List.cons_append]
          exact (ih hp hb hsplit hbody o ho).mono (fun _ h => h) (List.subset_append_left _ _)
        · obtain ⟨front, back, rfl, hfront⟩ := hp.stop hc
          obtain ⟨first, rest, hsplit⟩ := List.append_of_mem hmem
          rcases ih hfront hsource hsplit hbody o ho with hfirst | ⟨d, hd, hrest⟩
          · refine Or.inr ⟨c, hc, source, hsource, ?_⟩
            rw [hsplit]
            exact List.mem_append_left _ hfirst
          · exact Or.inr ⟨d, List.mem_append_left _ hd, hrest⟩
      · exact hown o ho
    · exact hown o ho

/-- On every path from the entry, the nodes that a visit reads come before the visited node. -/
theorem OperandsFirst.visited_reads (hg : g.OperandsFirst) {passed : List BlockId} {id : BlockId}
    {block : Block} {before after : List NodeId} {n : NodeId} {node : Node}
    (hp : g.Path passed id) (hb : g.block? id = some block)
    (hn : block.nodes = before ++ n :: after) (hnode : g.node? n = some node) :
    ∀ o ∈ g.reads node, g.Visited passed before o :=
  visited_operands hg _ hp hb hn hnode

theorem OperandsFirst.mem_before (hg : g.OperandsFirst) (hd : g.DistinctNodes) {id : BlockId}
    (hr : g.Reachable id) {block : Block} {before after : List NodeId} {n o : NodeId}
    {node : Node} (hb : g.block? id = some block) (hn : block.nodes = before ++ n :: after)
    (hnode : g.node? n = some node) (ho : o ∈ g.reads node) (hown : o ∈ block.nodes) :
    o ∈ before := by
  obtain ⟨passed, hp, hfirst⟩ := hr.exists_first
  rcases hg.visited_reads hp hb hn hnode o ho with hbefore | ⟨c, hc, source, hsource, hmem⟩
  · exact hbefore
  · have heq := hd.heldOnlyBy hb hown c source hsource hmem
    exact absurd (heq ▸ hc) hfirst

end Graph

namespace Setting

private theorem callObservations_congr {values values' : NodeValues} (m : Method)
    (receiver : NodeId) (arguments : List NodeId)
    (h : ∀ o ∈ receiver :: arguments, values.get? o = values'.get? o) :
    callObservations values m receiver arguments =
      callObservations values' m receiver arguments := by
  have hr := h receiver List.mem_cons_self
  have ha : ∀ a ∈ arguments, values.get? a = values'.get? a :=
    fun a hmem => h a (List.mem_cons_of_mem _ hmem)
  rw [callObservations, callObservations, hr]
  congr 1
  refine List.mapIdx_eq_mapIdx_iff.2 fun i hi => ?_
  rw [ha _ (List.getElem_mem hi)]

/-- Two visits of a node that find the same values at the nodes it reads are the same. -/
theorem visit_congr (st : Setting) (g : Graph) {values values' : NodeValues} (node : Node)
    (stores : Stores) (h : ∀ o ∈ g.reads node, values.get? o = values'.get? o) :
    st.visit g values node stores = st.visit g values' node stores := by
  rw [Graph.reads] at h
  rw [visit, visit]
  generalize g.lambdaBody node = body at h
  rw [visitBody, visitBody]
  cases hkind : body.kind <;> rw [hkind] at h <;> simp only [NodeKind.operands] at h
  case ternary condition thenOperand elseOperand =>
    simp [visitTernary, h thenOperand, h elseOperand]
  case equalTo left right => simp [visitEquality, h left, h right]
  case notEqual left right => simp [visitEquality, h left, h right]
  case assignment target expression => simp [visitAssignment, h expression]
  case methodInvocation m receiver arguments =>
    simp [visitInvocation, callObservations_congr m receiver arguments h]
  case objectCreation constructor arguments =>
    have hobserved : (arguments.mapIdx fun index a =>
        (⟨.constructorArgument constructor index, values.get? a⟩ : Observation)) =
        arguments.mapIdx fun index a => ⟨.constructorArgument constructor index, values'.get? a⟩ :=
      List.mapIdx_eq_mapIdx_iff.2 fun i hi => by rw [h _ (List.getElem_mem hi)]
    simp [visitCreation, hobserved]
  case returnStatement result m =>
    have hresult : result.bind values.get? = result.bind values'.get? := by
      cases result with
      | none => rfl
      | some o => exact h o (by simp)
    simp [visitReturn, hresult]
  case switchCase caseOperand switchTarget switchExpression =>
    simp [visitCase, h caseOperand]
  case wideningConversion operand => simp [visitConversion, h operand]
  case narrowingConversion operand => simp [visitConversion, h operand]
  case stringConversion operand => simp [h operand]

end Setting

end FlowTyping
