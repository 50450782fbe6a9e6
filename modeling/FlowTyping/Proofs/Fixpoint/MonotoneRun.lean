import FlowTyping.Proofs.Fixpoint.StoreInvariant
import FlowTyping.Proofs.Transfer.Monotone

/-!
# Runs of a block are monotone

A block is run from stores and values that say more to stores and values that say more, if its
comparisons refine nothing and it does not write to a final field. What it reads of its own nodes
has been computed earlier in the same run; what it reads of other blocks has to be comparable at
the start.
-/

namespace FlowTyping

open Value (KnownBelow)

/-! ### Receivers of nodes -/

theorem Receiver.exists_fieldAccess {g : Graph} {isDeterministic : Method → Bool} {depth : Nat}
    {id : NodeId} {base : Receiver} {f : Field}
    (h : ofNodeWithin g isDeterministic depth id = .field base f) :
    ∃ node ∈ g.nodes, ∃ receiver, node.kind = .fieldAccess receiver f := by
  induction depth generalizing id with
  | zero => cases h
  | succ depth ih =>
    rw [ofNodeWithin] at h
    split at h
    · cases h
    · next node hnode =>
      split at h
      case h_2 receiver f' hkind =>
        cases h
        exact ⟨node, List.mem_of_getElem? hnode, receiver, hkind⟩
      case h_10 =>
        split at h <;> cases h
      all_goals first | exact ih h | cases h

namespace Setting

/-- What makes the runs of a body monotone: comparisons refine nothing, no final field is written,
and no final field of which a visit can let a store know is declared with a monotonic
qualifier. -/
structure Tame (st : Setting) (g : Graph) : Prop where
  nodes : ∀ block ∈ g.blocks, ∀ n ∈ block.nodes, ∀ node, g.node? n = some node →
    st.RefinesNothing g (g.lambdaBody node).kind ∧
      st.writesFinalField g (g.lambdaBody node).kind = false
  accesses : ∀ node ∈ g.nodes, ∀ receiver f, node.kind = .fieldAccess receiver f →
    ¬st.tables.IsMonotonicFinal f
  contracts : ∀ call : CallSite, ∀ c ∈ st.tables.contracts call.method, ∀ base f v,
    st.contractFact (.ofCall g st.tables.isDeterministic call) c = .ok (.field base f, v) →
    ¬st.tables.IsMonotonicFinal f

variable {st : Setting} {g : Graph} {values values' : NodeValues} {node : Node}
  {stores stores' : Stores}

theorem Tame.receiverOf (hst : st.Tame g) (id : NodeId) (base : Receiver) (f : Field)
    (h : st.receiverOf g id = .field base f) : ¬st.tables.IsMonotonicFinal f := by
  obtain ⟨n, hn, receiver, hkind⟩ := Receiver.exists_fieldAccess h
  exact hst.accesses n hn receiver f hkind

theorem Tame.assumeAtCall (hst : st.Tame g) (call : CallSite) (kind : ContractKind) {s : Store}
    (h : s.FinalsNotMonotonic st.tables) :
    (st.assumeAtCall g call kind s).FinalsNotMonotonic st.tables := by
  refine h.refineAll fun fact hfact base f hf => ?_
  obtain ⟨c, hc, hok⟩ := List.mem_filterMap.1 hfact
  have hcontract : c ∈ st.tables.contracts call.method := (List.mem_filter.1 hc).1
  refine hst.contracts call c hcontract base f fact.2 ?_
  rw [← hf]
  cases hread : st.contractFact (.ofCall g st.tables.isDeterministic call) c with
  | error e => simp [hread, Except.toOption] at hok
  | ok fact' =>
    simp only [hread, Except.toOption, Option.some.injEq] at hok
    rw [hok]

theorem finalsNotMonotonic_merged
    (h : stores.Both (Store.FinalsNotMonotonic st.tables)) :
    stores.merged.FinalsNotMonotonic st.tables := by
  cases stores with
  | regular s => exact h.1
  | conditional s e => exact h.1.lub e

theorem visitEquality_both {P : Store → Prop} (h : stores.Both P) {left right : NodeId}
    (hleft : st.refinedByEquality g left = []) (hright : st.refinedByEquality g right = [])
    (values : NodeValues) (node : Node) (notEqual : Bool) :
    (st.visitEquality g values node left right notEqual stores).stores.Both P := by
  rw [visitEquality_of_refines_nothing hleft hright]
  dsimp only
  split
  · exact ⟨h.2, h.1⟩
  · exact h

/-- A visit lets a store know of the receivers of nodes and contracts only. -/
theorem visitBody_finalsNotMonotonic (hst : st.Tame g)
    (hkind : st.RefinesNothing g node.kind)
    (h : stores.Both (Store.FinalsNotMonotonic st.tables)) :
    (st.visitBody g values node stores).1.stores.Both
      (Store.FinalsNotMonotonic st.tables) := by
  have hmerged := finalsNotMonotonic_merged h
  have hassign : ∀ target v, (stores.merged.assign st.tables.oracle (st.receiverOf g target)
      v).FinalsNotMonotonic st.tables :=
    fun target v => hmerged.assign (hst.receiverOf target) st.tables.oracle v
  rw [visitBody]
  cases hnode : node.kind with
  | localVariable x => exact ⟨hmerged, hmerged⟩
  | fieldAccess receiver f => exact ⟨hmerged, hmerged⟩
  | arrayAccess array index => exact ⟨hmerged, hmerged⟩
  | thisLiteral => exact ⟨hmerged, hmerged⟩
  | className => exact h
  | literal value => exact h
  | operation operands => exact h
  | ternary condition thenOperand elseOperand => exact h
  | conditionalNot operand => exact ⟨h.2, h.1⟩
  | equalTo left right =>
    obtain ⟨hleft, hright⟩ := refinesNothing_equalTo.1 (hnode ▸ hkind)
    exact visitEquality_both h hleft hright values node false
  | notEqual left right =>
    obtain ⟨hleft, hright⟩ := refinesNothing_notEqual.1 (hnode ▸ hkind)
    exact visitEquality_both h hleft hright values node true
  | assignment target expression => exact ⟨hassign target _, hassign target _⟩
  | stringConcatenateAssignment target expression => exact ⟨hassign target _, hassign target _⟩
  | instanceOf operand referenceType annotated =>
    dsimp only
    rw [visitInstanceOf]
    split
    · split
      · exact h
      · next reference _ =>
        have hfacts : ∀ fact ∈ reference.qualifiers.toList.map (fun q =>
            (st.receiverOf g operand, Value.of (st.receiverOf g operand).ty [q])),
            ∀ base f, fact.1 = .field base f → ¬st.tables.IsMonotonicFinal f := by
          intro fact hfact
          obtain ⟨q, -, rfl⟩ := List.mem_map.1 hfact
          exact hst.receiverOf operand
        exact ⟨hmerged.refineAll hfacts, hmerged.refineAll hfacts⟩
    · exact h
  | methodInvocation m receiver arguments =>
    have hcall := hmerged.afterMethodCall (hst.receiverOf node.id) st.tables.oracle
    exact ⟨hst.assumeAtCall _ _ (hst.assumeAtCall _ _ (hcall _ _)),
      hst.assumeAtCall _ _ (hst.assumeAtCall _ _ (hcall _ _))⟩
  | objectCreation constructor arguments => exact h
  | returnStatement result m => exact h
  | lambdaResult result => exact h
  | switchCase caseOperand switchTarget switchExpression =>
    obtain ⟨htarget, hexpression⟩ := refinesNothing_switchCase.1 (hnode ▸ hkind)
    dsimp only
    rw [visitCase_of_refines_nothing htarget hexpression]
    exact h
  | wideningConversion operand => exact h
  | narrowingConversion operand => exact h
  | stringConversion operand => exact h
  | variableDeclaration x => exact ⟨hmerged, hmerged⟩

theorem visitEquality_isConditional {left right : NodeId}
    (hleft : st.refinedByEquality g left = []) (hright : st.refinedByEquality g right = [])
    (values : NodeValues) (node : Node) (notEqual : Bool) (stores : Stores) :
    (st.visitEquality g values node left right notEqual stores).stores.isConditional =
      stores.isConditional := by
  rw [visitEquality_of_refines_nothing hleft hright]
  dsimp only
  split
  · next hexchanged => exact (Bool.and_eq_true_iff.1 hexchanged).1.symm
  · rfl

theorem visitBody_isConditional (hkind : st.RefinesNothing g node.kind)
    (h : stores.isConditional = stores'.isConditional) :
    (st.visitBody g values node stores).1.stores.isConditional =
      (st.visitBody g values' node stores').1.stores.isConditional := by
  rw [visitBody, visitBody]
  cases hnode : node.kind with
  | equalTo left right =>
    obtain ⟨hleft, hright⟩ := refinesNothing_equalTo.1 (hnode ▸ hkind)
    exact (visitEquality_isConditional hleft hright values node false stores).trans
      (h.trans (visitEquality_isConditional hleft hright values' node false stores').symm)
  | notEqual left right =>
    obtain ⟨hleft, hright⟩ := refinesNothing_notEqual.1 (hnode ▸ hkind)
    exact (visitEquality_isConditional hleft hright values node true stores).trans
      (h.trans (visitEquality_isConditional hleft hright values' node true stores').symm)
  | switchCase caseOperand switchTarget switchExpression =>
    obtain ⟨htarget, hexpression⟩ := refinesNothing_switchCase.1 (hnode ▸ hkind)
    dsimp only
    rw [visitCase_of_refines_nothing htarget hexpression,
      visitCase_of_refines_nothing htarget hexpression]
    rfl
  | instanceOf operand referenceType annotated =>
    dsimp only
    rw [visitInstanceOf, visitInstanceOf]
    split
    · split
      · exact h
      · rfl
    · exact h
  | className => exact h
  | literal value => exact h
  | operation operands => exact h
  | ternary condition thenOperand elseOperand => exact h
  | objectCreation constructor arguments => exact h
  | returnStatement result m => exact h
  | lambdaResult result => exact h
  | wideningConversion operand => exact h
  | narrowingConversion operand => exact h
  | stringConversion operand => exact h
  | _ => rfl

end Setting

/-! ### Runs -/

namespace Engine

variable {st : Setting} {fixed : Option Store} {g : Graph}

/-- One state of a run says more than another: its stores do, and the values of some nodes. -/
structure RunBelow (st : Setting) (computed : NodeId → Prop) (run run' : BlockRun) : Prop where
  stores : run.stores.Below run'.stores
  shape : run.stores.isConditional = run'.stores.isConditional
  finals : run'.stores.Both (Store.FinalsNotMonotonic st.tables)
  values : ∀ o, computed o → KnownBelow (run.values.get? o) (run'.values.get? o)

variable {computed : NodeId → Prop} {run run' final final' : BlockRun}

/-- A visit keeps the order, and its node becomes one of the computed ones. -/
theorem RunBelow.afterVisit (h : RunBelow st computed run run') (hst : st.Tame g) {id : NodeId}
    {node : Node} (hkind : st.RefinesNothing g (g.lambdaBody node).kind)
    (hwrite : st.writesFinalField g (g.lambdaBody node).kind = false)
    (hreads : ∀ o ∈ g.reads node, computed o) :
    RunBelow st (fun o => computed o ∨ o = id)
      ((st.engine fixed).afterVisit g run id node)
      ((st.engine fixed).afterVisit g run' id node) := by
  have hbelow : (st.visit g run.values node run.stores).1.Below
      (st.visit g run'.values node run'.stores).1 :=
    Setting.visitBody_below hkind hwrite (Setting.finalsNotMonotonic_merged h.finals)
      (fun o ho => h.values o (hreads o ho)) h.stores
  refine ⟨hbelow.stores, Setting.visitBody_isConditional hkind h.shape,
    Setting.visitBody_finalsNotMonotonic hst hkind h.finals, fun o ho => ?_⟩
  rw [Engine.afterVisit, Engine.afterVisit, FinMap.get?_set, FinMap.get?_set]
  split
  · exact hbelow.value
  · next hne => exact h.values o (ho.resolve_right hne)

/-- A run keeps the order if it reads only what is comparable at the start and what it has
computed itself. -/
theorem RunBelow.runNodes (hst : st.Tame g) {ids : List NodeId}
    (hnodes : ∀ n ∈ ids, ∀ node, g.node? n = some node →
      st.RefinesNothing g (g.lambdaBody node).kind ∧
        st.writesFinalField g (g.lambdaBody node).kind = false)
    (hreads : ∀ before n after node, ids = before ++ n :: after → g.node? n = some node →
      ∀ o ∈ g.reads node, computed o ∨ o ∈ before)
    (h : RunBelow st computed run run')
    (hrun : (st.engine fixed).runNodes g run ids = .ok final)
    (hrun' : (st.engine fixed).runNodes g run' ids = .ok final') :
    RunBelow st (fun o => computed o ∨ o ∈ ids) final final' := by
  induction ids generalizing run run' computed with
  | nil =>
    obtain rfl := runNodes_nil_eq_ok.1 hrun
    obtain rfl := runNodes_nil_eq_ok.1 hrun'
    exact ⟨h.stores, h.shape, h.finals, fun o ho => h.values o (ho.resolve_right List.not_mem_nil)⟩
  | cons id ids ih =>
    obtain ⟨node, hnode, hrun⟩ := runNodes_cons_eq_ok.1 hrun
    obtain ⟨node', hnode', hrun'⟩ := runNodes_cons_eq_ok.1 hrun'
    obtain rfl : node = node' := Option.some.inj (hnode.symm.trans hnode')
    obtain ⟨hkind, hwrite⟩ := hnodes id List.mem_cons_self node hnode
    have hnow : ∀ o ∈ g.reads node, computed o := fun o ho =>
      (hreads [] id ids node rfl hnode o ho).resolve_right List.not_mem_nil
    have hvisit : RunBelow st (fun o => computed o ∨ o = id)
        ((st.engine fixed).afterVisit g run id node)
        ((st.engine fixed).afterVisit g run' id node) := h.afterVisit hst hkind hwrite hnow
    have hrest := ih (fun n hn => hnodes n (List.mem_cons_of_mem _ hn)) ?_ hvisit hrun hrun'
    · refine ⟨hrest.stores, hrest.shape, hrest.finals, fun o ho => hrest.values o ?_⟩
      rcases ho with ho | ho
      · exact Or.inl (Or.inl ho)
      · exact (List.mem_cons.1 ho).imp (fun he => Or.inr he) fun hmem => hmem
    · intro before n after node hids hn o ho
      rcases hreads (id :: before) n after node (by rw [hids]; rfl) hn o ho with ho | ho
      · exact Or.inl (Or.inl ho)
      · exact (List.mem_cons.1 ho).imp (fun he => Or.inr he) fun hmem => hmem

end Engine

end FlowTyping
