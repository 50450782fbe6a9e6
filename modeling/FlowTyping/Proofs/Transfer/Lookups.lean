import FlowTyping.Proofs.Receiver.Grounded
import FlowTyping.Proofs.Transfer.Operands

/-!
# What a visit looks up

A visit looks up the node it visits, the operands of that node, and what the searches along operands
lead to: those for the receiver of a node, for the parts of a chained assignment and for what a
lambda result stands for. All of these nodes lie under the visited node. In an accepted graph every
node under a node of the graph is there and carries its own position, so that no lookup fails. That
nothing else is looked up is what `Setting.visit_agree` says: a visit does the same in every graph
that holds the same nodes there, whatever is found at other positions.
-/

namespace FlowTyping

namespace Graph

variable {g g' : Graph} {n o : NodeId} {node : Node}

/-- One node is an operand of the other. -/
def OperandOf (g : Graph) (o n : NodeId) : Prop :=
  ∃ node, g.node? n = some node ∧ o ∈ node.kind.operands

/-- One node is the other, or an operand of a node under it. -/
def Under (g : Graph) (o n : NodeId) : Prop := Relation.ReflTransGen g.OperandOf o n

/-- No node is an operand of itself, be it directly or through other nodes. -/
def Acyclic (g : Graph) : Prop := ∀ n, ¬Relation.TransGen g.OperandOf n n

theorem under_self (g : Graph) (n : NodeId) : g.Under n n := .refl

theorem Under.trans {a b c : NodeId} (hab : g.Under a b) (hbc : g.Under b c) : g.Under a c :=
  Relation.ReflTransGen.trans hab hbc

theorem under_operand (hnode : g.node? n = some node) (ho : o ∈ node.kind.operands) :
    g.Under o n :=
  .single ⟨node, hnode, ho⟩

theorem acyclic_of_index_lt
    (h : ∀ entry ∈ g.nodes.zipIdx, ∀ o ∈ entry.1.kind.operands, o.index < entry.2) : g.Acyclic := by
  have hsmaller : ∀ o n, Relation.TransGen g.OperandOf o n → o.index < n.index := by
    intro o n hon
    induction hon with
    | single hstep =>
      obtain ⟨node, hnode, ho⟩ := hstep
      exact h (node, _) (List.mem_zipIdx_iff_getElem?.2 hnode) _ ho
    | tail _ hstep ih =>
      obtain ⟨node, hnode, ho⟩ := hstep
      exact ih.trans (h (node, _) (List.mem_zipIdx_iff_getElem?.2 hnode) _ ho)
  exact fun n hn => Nat.lt_irrefl _ (hsmaller n n hn)

/-! ### Accepted graphs -/

/-- In an accepted graph a node stands at its own position, and its operands are in the graph. -/
theorem node?_of_check (hcheck : g.check = .ok ()) (hnode : g.node? n = some node) :
    node.id = n ∧ ∀ o ∈ node.kind.operands, (g.node? o).isSome = true := by
  have hfault : g.fault? = none := by
    rw [check] at hcheck
    split at hcheck
    · cases hcheck
    · assumption
  rw [fault?, Option.or_eq_none_iff, Option.or_eq_none_iff] at hfault
  have hentry : (node, n.index) ∈ g.nodes.zipIdx := List.mem_zipIdx_iff_getElem?.2 hnode
  have hnone := List.findSome?_eq_none_iff.1 hfault.2.2 _ hentry
  rw [nodeFault?] at hnone
  split at hnone
  · cases hnone
  · next hid =>
    refine ⟨congrArg NodeId.mk (Decidable.not_not.1 hid), fun o ho => ?_⟩
    split at hnone
    · cases hnone
    · next hmissing =>
      rw [missingNode?, Option.map_eq_none_iff, List.find?_eq_none] at hmissing
      simpa [Option.isSome_iff_ne_none] using hmissing o ho

theorem Under.found (hcheck : g.check = .ok ()) (hn : (g.node? n).isSome = true)
    (h : g.Under o n) : ∃ node, g.node? o = some node ∧ node.id = o := by
  have hsome : (g.node? o).isSome = true := by
    induction h using Relation.ReflTransGen.head_induction_on with
    | refl => exact hn
    | head hstep _ _ =>
      obtain ⟨node, hnode, ho⟩ := hstep
      exact (node?_of_check hcheck hnode).2 _ ho
  obtain ⟨node, hnode⟩ := Option.isSome_iff_exists.1 hsome
  exact ⟨node, hnode, (node?_of_check hcheck hnode).1⟩

/-! ### Searches along operands -/

/-- Another graph finds the same at every position under a node. -/
def AgreesUnder (g g' : Graph) (n : NodeId) : Prop := ∀ o, g.Under o n → g'.node? o = g.node? o

/-- A graph with further nodes finds the same under each node of an accepted graph. -/
theorem agreesUnder_append (hcheck : g.check = .ok ()) (hn : (g.node? n).isSome = true)
    {extra : List Node} (h : g'.nodes = g.nodes ++ extra) : g.AgreesUnder g' n := by
  intro o ho
  obtain ⟨node, hnode, -⟩ := ho.found hcheck hn
  rw [node?, h]
  exact List.getElem?_append_left (List.getElem?_eq_some_iff.1 hnode).1

theorem AgreesUnder.node?_eq (h : g.AgreesUnder g' n) : g'.node? n = g.node? n :=
  h n (g.under_self n)

theorem AgreesUnder.of_under (h : g.AgreesUnder g' n) (ho : g.Under o n) : g.AgreesUnder g' o :=
  fun p hp => h p (hp.trans ho)

end Graph

theorem NodeKind.mem_operands_of_mem_receiverParts {isDeterministic : Method → Bool}
    {kind : NodeKind} {o : NodeId} (h : o ∈ kind.receiverParts isDeterministic) :
    o ∈ kind.operands := by
  cases kind with
  | fieldAccess base f =>
    simp only [receiverParts] at h
    split at h
    · cases h
    · exact h
  | methodInvocation m base arguments =>
    simp only [receiverParts] at h
    split at h
    · split at h
      · exact List.mem_cons_of_mem _ h
      · exact h
    · cases h
  | arrayAccess base index => exact h
  | stringConversion operand => exact h
  | wideningConversion operand => exact h
  | narrowingConversion operand => exact h
  | _ => cases h

/-- The searches that start at a node find the same in two graphs, within bounds of their own. -/
structure SearchesAgree (isDeterministic : Method → Bool) (g g' : Graph) (depth depth' : Nat)
    (n : NodeId) : Prop where
  receiver : Receiver.ofNodeWithin g' isDeterministic depth' n =
    Receiver.ofNodeWithin g isDeterministic depth n
  parts : g'.assignedPartsWithin depth' n = g.assignedPartsWithin depth n
  body : ∀ node, g.node? n = some node →
    g'.lambdaBodyWithin depth' node = g.lambdaBodyWithin depth node

namespace SearchesAgree

variable {isDeterministic : Method → Bool} {g g' : Graph} {depth depth' : Nat} {n : NodeId}

/-- Searches that agree at a node and from its operands on agree from the node on. -/
theorem succ (hnode : g'.node? n = g.node? n)
    (h : ∀ o, g.OperandOf o n →
      g'.node? o = g.node? o ∧ SearchesAgree isDeterministic g g' depth depth' o) :
    SearchesAgree isDeterministic g g' (depth + 1) (depth' + 1) n where
  receiver := Receiver.ofNodeWithin_succ_congr hnode fun part ⟨node, hfound, hpart⟩ =>
    (h part ⟨node, hfound, NodeKind.mem_operands_of_mem_receiverParts hpart⟩).2.receiver
  parts := by
    cases hfound : g.node? n with
    | none => simp only [Graph.assignedPartsWithin, hnode, hfound]
    | some node =>
      simp only [Graph.assignedPartsWithin, hnode, hfound]
      cases hkind : node.kind with
      | assignment target expression =>
        have hoperand : g.OperandOf expression n :=
          ⟨node, hfound, by simp [hkind, NodeKind.operands]⟩
        exact congrArg _ (h expression hoperand).2.parts
      | _ => rfl
  body node hfound := by
    rw [Graph.lambdaBodyWithin, Graph.lambdaBodyWithin]
    cases hkind : node.kind with
    | lambdaResult result =>
      obtain ⟨hsame, hrest⟩ := h result ⟨node, hfound, by simp [hkind, NodeKind.operands]⟩
      simp only [hsame]
      cases hbody : g.node? result with
      | none => rfl
      | some body => exact hrest.body body hbody
    | _ => rfl

theorem of_missing (hmissing : g.node? n = none) (hnode : g'.node? n = g.node? n)
    (depth depth' : Nat) : SearchesAgree isDeterministic g g' depth depth' n where
  receiver := by
    have hmissing' : g'.node? n = none := hnode.trans hmissing
    cases depth <;> cases depth' <;> simp only [Receiver.ofNodeWithin, hmissing, hmissing']
  parts := by
    have hmissing' : g'.node? n = none := hnode.trans hmissing
    cases depth <;> cases depth' <;> simp only [Graph.assignedPartsWithin, hmissing, hmissing']
  body node hfound := by
    rw [hmissing] at hfound
    cases hfound

/-- Searches within one bound look at nodes under the one they start at only. -/
theorem within (h : g.AgreesUnder g' n) (depth : Nat) :
    SearchesAgree isDeterministic g g' depth depth n := by
  induction depth generalizing n with
  | zero => exact ⟨rfl, rfl, fun _ _ => rfl⟩
  | succ depth ih =>
    refine succ h.node?_eq fun o ho => ?_
    have hunder : g.AgreesUnder g' o := h.of_under (.single ho)
    exact ⟨hunder.node?_eq, ih hunder⟩

/-- Without cycles, the bounds do not matter as long as they count the nodes under the one the
searches start at. -/
theorem of_acyclic (hacyclic : g.Acyclic) (h : g.AgreesUnder g' n)
    (hdepth : (g.below g.OperandOf n).card ≤ depth)
    (hdepth' : (g.below g.OperandOf n).card ≤ depth') :
    SearchesAgree isDeterministic g g' depth depth' n := by
  induction depth generalizing n depth' with
  | zero =>
    cases hfound : g.node? n with
    | none => exact of_missing hfound h.node?_eq 0 depth'
    | some node =>
      have hpos := Finset.card_pos.2 ⟨n.index, Graph.self_mem_below (R := g.OperandOf) hfound⟩
      omega
  | succ depth ih =>
    cases hfound : g.node? n with
    | none => exact of_missing hfound h.node?_eq _ _
    | some node =>
      have hpos := Finset.card_pos.2 ⟨n.index, Graph.self_mem_below (R := g.OperandOf) hfound⟩
      obtain ⟨depth', rfl⟩ := Nat.exists_eq_add_one.2 (Nat.lt_of_lt_of_le hpos hdepth')
      refine succ h.node?_eq fun o ho => ?_
      have hunder : g.AgreesUnder g' o := h.of_under (.single ho)
      have hlt := Graph.card_below_lt (hacyclic n) hfound ho
      exact ⟨hunder.node?_eq, ih hunder (by omega) (by omega)⟩

/-- With the bounds of the two graphs, searches agree if the graphs have as many nodes or the first
one has no cycles. -/
theorem of_agreesUnder (h : g.AgreesUnder g' n)
    (hbound : g.Acyclic ∨ g'.nodes.length = g.nodes.length) :
    SearchesAgree isDeterministic g g' g.nodes.length g'.nodes.length n := by
  rcases hbound with hacyclic | hlength
  · refine of_acyclic hacyclic h Graph.card_below_le ?_
    -- The nodes under the start are in the other graph, too.
    have hsub : g.below g.OperandOf n ⊆ Finset.range g'.nodes.length := by
      intro i hi
      obtain ⟨hlt, hunder⟩ := Graph.mem_below.1 hi
      have hfound : g'.node? ⟨i⟩ = some g.nodes[i] :=
        (h ⟨i⟩ hunder).trans (List.getElem?_eq_getElem hlt)
      exact Finset.mem_range.2 (List.getElem?_eq_some_iff.1 hfound).1
    simpa using Finset.card_le_card hsub
  · rw [hlength]
    exact within h _

end SearchesAgree

namespace Graph

variable {g : Graph} {n o : NodeId} {node : Node}

theorem under_of_mem_assignedPartsWithin {depth : Nat} (ho : o ∈ g.assignedPartsWithin depth n) :
    g.Under o n := by
  induction depth generalizing n with
  | zero => exact List.mem_singleton.1 ho ▸ g.under_self n
  | succ depth ih =>
    rw [assignedPartsWithin] at ho
    split at ho
    · next node hnode =>
      split at ho
      · next target expression hkind =>
        rcases List.mem_cons.1 ho with rfl | hrest
        · exact under_operand hnode (by simp [hkind, NodeKind.operands])
        · exact (ih hrest).trans (under_operand hnode (by simp [hkind, NodeKind.operands]))
      · exact List.mem_singleton.1 ho ▸ g.under_self n
    · exact List.mem_singleton.1 ho ▸ g.under_self n

theorem exists_under_lambdaBodyWithin (depth : Nat) (hnode : g.node? n = some node) :
    ∃ m, g.Under m n ∧ g.node? m = some (g.lambdaBodyWithin depth node) := by
  induction depth generalizing n node with
  | zero => exact ⟨n, g.under_self n, hnode⟩
  | succ depth ih =>
    rw [lambdaBodyWithin]
    split
    · next result hkind =>
      split
      · next body hbody =>
        obtain ⟨m, hm, hfound⟩ := ih hbody
        exact ⟨m, hm.trans (under_operand hnode (by simp [hkind, NodeKind.operands])), hfound⟩
      · exact ⟨n, g.under_self n, hnode⟩
    · exact ⟨n, g.under_self n, hnode⟩

end Graph

namespace Setting

variable {st : Setting} {g g' : Graph} {n : NodeId} {node : Node} {values : NodeValues}
  {stores : Stores}

/-- Two graphs find the same at a position and in the searches that start there. -/
private structure Same (st : Setting) (g g' : Graph) (o : NodeId) : Prop where
  node?_eq : g'.node? o = g.node? o
  receiverOf_eq : st.receiverOf g' o = st.receiverOf g o
  refined_eq : st.refinedByEquality g' o = st.refinedByEquality g o

private theorem same_of_agreesUnder (h : g.AgreesUnder g' n)
    (hbound : g.Acyclic ∨ g'.nodes.length = g.nodes.length) : Same st g g' n where
  node?_eq := h.node?_eq
  receiverOf_eq := (SearchesAgree.of_agreesUnder h hbound).receiver
  refined_eq := by
    have hsearches : SearchesAgree st.tables.isDeterministic g g' g.nodes.length g'.nodes.length n :=
      .of_agreesUnder h hbound
    have hparts : g'.assignedParts n = g.assignedParts n := hsearches.parts
    rw [refinedByEquality, refinedByEquality, hparts]
    congr 1
    refine List.map_congr_left fun o ho => ?_
    have hunder : g.AgreesUnder g' o := h.of_under (Graph.under_of_mem_assignedPartsWithin ho)
    exact (SearchesAgree.of_agreesUnder hunder hbound).receiver

private theorem Same.isBooleanLiteral_eq {o : NodeId} (h : Same st g g' o) (value : Bool) :
    g'.isBooleanLiteral o value = g.isBooleanLiteral o value := by
  rw [Graph.isBooleanLiteral, Graph.isBooleanLiteral, h.node?_eq]

private theorem Same.strengthen_eq {o : NodeId} (h : Same st g g' o) (first : Option Value)
    (secondValue : Option Value) (notEqual : Bool) (stores : Stores) :
    st.strengthen g' first o secondValue notEqual stores =
      st.strengthen g first o secondValue notEqual stores := by
  unfold strengthen
  rw [h.refined_eq]

private theorem Same.assignmentLog_eq {o : NodeId} (h : Same st g g' o) (node : Node)
    (r : Receiver) (v : Option Value) (watchesParameters : Bool) :
    st.assignmentLog g' node o r v watchesParameters =
      st.assignmentLog g node o r v watchesParameters := by
  rw [assignmentLog, assignmentLog, h.node?_eq]

private theorem ofCall_eq (call : CallSite)
    (h : ∀ o ∈ call.receiver :: call.arguments, Same st g g' o) :
    ExpressionContext.ofCall g' st.tables.isDeterministic call =
      ExpressionContext.ofCall g st.tables.isDeterministic call := by
  have hreceiver : Receiver.ofNode g' st.tables.isDeterministic call.receiver =
      Receiver.ofNode g st.tables.isDeterministic call.receiver :=
    (h call.receiver List.mem_cons_self).receiverOf_eq
  have harguments : call.arguments.map (Receiver.ofNode g' st.tables.isDeterministic) =
      call.arguments.map (Receiver.ofNode g st.tables.isDeterministic) :=
    List.map_congr_left fun a ha => (h a (List.mem_cons_of_mem _ ha)).receiverOf_eq
  rw [ExpressionContext.ofCall, ExpressionContext.ofCall, hreceiver, harguments]

private theorem visitBody_agree (hself : Same st g g' node.id)
    (h : ∀ o ∈ node.kind.operands, Same st g g' o) :
    st.visitBody g' values node stores = st.visitBody g values node stores := by
  rw [visitBody, visitBody]
  cases hkind : node.kind <;> rw [hkind] at h <;> simp only [NodeKind.operands] at h
  case localVariable x => simp only [visitLocation, hself.receiverOf_eq]
  case fieldAccess receiver f => simp only [visitLocation, hself.receiverOf_eq]
  case arrayAccess array index => simp only [visitLocation, hself.receiverOf_eq]
  case equalTo left right =>
    have hleft := h left (by simp)
    have hright := h right (by simp)
    simp only [visitEquality, hleft.isBooleanLiteral_eq, hright.isBooleanLiteral_eq,
      hleft.strengthen_eq, hright.strengthen_eq]
  case notEqual left right =>
    have hleft := h left (by simp)
    have hright := h right (by simp)
    simp only [visitEquality, hleft.isBooleanLiteral_eq, hright.isBooleanLiteral_eq,
      hleft.strengthen_eq, hright.strengthen_eq]
  case assignment target expression =>
    have htarget := h target (by simp)
    simp only [visitAssignment, htarget.receiverOf_eq, htarget.assignmentLog_eq]
  case stringConcatenateAssignment target expression =>
    have htarget := h target (by simp)
    simp only [visitConcatenation, htarget.receiverOf_eq, htarget.assignmentLog_eq]
  case instanceOf operand referenceType annotated =>
    have hoperand := h operand (by simp)
    simp only [visitInstanceOf, hoperand.node?_eq, hoperand.receiverOf_eq]
  case methodInvocation m receiver arguments =>
    have hcontext := ofCall_eq ⟨m, receiver, arguments, node.tree⟩ h
    simp only [visitInvocation, hself.receiverOf_eq, assumeAtCall, postconditionDiagnostics,
      conditionalDiagnostics, contractDiagnostics, hcontext]
  case switchCase caseOperand switchTarget switchExpression =>
    have htarget := h switchTarget (by simp)
    have hexpression := h switchExpression (by simp)
    simp only [visitCase, htarget.receiverOf_eq, htarget.strengthen_eq, hexpression.strengthen_eq]

/-- A visit of a node of an accepted graph does the same in every graph that finds the same under the
node, and for all values that are the same there. The other graph may hold other nodes, more of
them, or fewer; only if operands form a cycle, its number of nodes has to be the same, as it is what
bounds the searches. -/
theorem visit_agree (hcheck : g.check = .ok ()) (hnode : g.node? n = some node)
    (h : g.AgreesUnder g' n) (hbound : g.Acyclic ∨ g'.nodes.length = g.nodes.length)
    {values' : NodeValues} (hvalues : ∀ o, g.Under o n → values'.get? o = values.get? o) :
    st.visit g' values' node stores = st.visit g values node stores := by
  have hsearches : SearchesAgree st.tables.isDeterministic g g' g.nodes.length g'.nodes.length n :=
    .of_agreesUnder h hbound
  have hbody : g'.lambdaBody node = g.lambdaBody node := hsearches.body node hnode
  obtain ⟨m, hm, hfound⟩ := Graph.exists_under_lambdaBodyWithin g.nodes.length hnode
  have hid : (g.lambdaBody node).id = m := (Graph.node?_of_check hcheck hfound).1
  have hsame : ∀ o, g.Under o m → Same st g g' o :=
    fun o ho => same_of_agreesUnder (h.of_under (ho.trans hm)) hbound
  have hoperands : ∀ o ∈ (g.lambdaBody node).kind.operands, g.Under o m :=
    fun o ho => Graph.under_operand hfound ho
  calc st.visit g' values' node stores
      = st.visit g' values node stores := by
        refine visit_congr st g' node stores fun o ho => hvalues o ?_
        rw [Graph.reads, hbody] at ho
        exact (hoperands o ho).trans hm
    _ = st.visit g values node stores := by
        rw [visit, visit, hbody]
        refine visitBody_agree ?_ fun o ho => hsame o (hoperands o ho)
        rw [hid]
        exact hsame m (g.under_self m)

end Setting

end FlowTyping
