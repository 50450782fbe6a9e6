import FlowTyping.Proofs.Contract.Meet
import FlowTyping.Proofs.Store.Repetition
import FlowTyping.Proofs.Transfer.StaleOperand

/-!
# Visiting a node again

A node other than a call that is visited a second time, on the stores that the first visit left, has
its value again. Most nodes leave the branches as they are: what a write or a test records is
recorded already. A negation exchanges the branches once more, and so does a comparison with a truth
value that finds a pair: there the branches are the same again exactly if they do not differ.
-/

namespace FlowTyping

namespace Stores

/-- Two stores, or pairs of stores, hold the same in either branch. -/
def SameBranches (s t : Stores) : Prop :=
  s.thenStore.agrees t.thenStore = true ∧ s.elseStore.agrees t.elseStore = true

instance (s t : Stores) : Decidable (s.SameBranches t) :=
  inferInstanceAs (Decidable (_ ∧ _))

variable {s t : Stores}

theorem SameBranches.refl (s : Stores) : s.SameBranches s :=
  ⟨Store.agrees_refl _, Store.agrees_refl _⟩

theorem SameBranches.regular {s t : Store} (h : s.agrees t = true) :
    (Stores.regular s).SameBranches (.regular t) :=
  ⟨h, h⟩

theorem sameBranches_iff (notEqual : Bool) : s.SameBranches t ↔
    (s.equal notEqual).agrees (t.equal notEqual) = true ∧
      (s.unequal notEqual).agrees (t.unequal notEqual) = true := by
  cases notEqual with
  | false => exact Iff.rfl
  | true => exact and_comm

theorem equal_swap (s : Stores) (notEqual : Bool) :
    s.swap.equal notEqual = s.unequal notEqual := by
  cases notEqual <;> rfl

theorem unequal_swap (s : Stores) (notEqual : Bool) :
    s.swap.unequal notEqual = s.equal notEqual := by
  cases notEqual <;> rfl

/-- The branches differ in the same way, whichever of them is the one with equal operands. -/
theorem agrees_equal_unequal (s : Stores) (notEqual : Bool) :
    (s.equal notEqual).agrees (s.unequal notEqual) = true ↔
      s.thenStore.agrees s.elseStore = true := by
  cases notEqual with
  | false => exact Iff.rfl
  | true => exact ⟨Store.agrees_symm, Store.agrees_symm⟩

end Stores

namespace Store

/-- Facts that bring one type for each receiver bring nothing new when they come again. -/
theorem refineAll_again {facts : List (Receiver × Value)} (hone : OneType facts)
    (hnormal : ∀ fact ∈ facts, fact.2.Normalized) (s : Store) :
    (Setting.refineAll (Setting.refineAll s facts) facts).agrees (Setting.refineAll s facts)
      = true := by
  have hmem : ∀ fact, fact ∈ facts ++ facts ↔ fact ∈ facts := by simp
  have htwice : Setting.refineAll (Setting.refineAll s facts) facts =
      Setting.refineAll s (facts ++ facts) := by
    rw [Setting.refineAll, Setting.refineAll, Setting.refineAll, List.foldl_append]
  rw [htwice]
  refine refineAll_agrees hmem (fun fact h fact' h' => ?_) (fun fact h => ?_) s
  · exact hone fact ((hmem fact).1 h) fact' ((hmem fact').1 h')
  · exact hnormal fact ((hmem fact).1 h)

end Store

namespace Graph

/-- Whether a comparison exchanges the branches of some stores. -/
def comparisonExchanges (g : Graph) (left right : NodeId) (notEqual : Bool) (stores : Stores) :
    Bool :=
  stores.isConditional && (g.isBooleanLiteral left notEqual || g.isBooleanLiteral right notEqual)

def exchanges (g : Graph) (node : Node) (stores : Stores) : Bool :=
  match node.kind with
  | .conditionalNot _ => true
  | .equalTo left right => g.comparisonExchanges left right false stores
  | .notEqual left right => g.comparisonExchanges left right true stores
  | _ => false

end Graph

namespace Setting

variable {st : Setting} {g : Graph} {values : NodeValues} {node : Node} {stores : Stores}
  {left right : NodeId} {notEqual : Bool}

/-! ### Comparisons -/

theorem overwrites_insertAll (receivers : List Receiver) (v : Value) :
    Store.Overwrites fun s => insertAll s receivers v := by
  induction receivers with
  | nil => exact .id
  | cons r receivers ih => exact (Store.Overwrites.insert r v).comp ih

theorem overwrites_equated (first : Option Value) (second : NodeId) (secondValue : Option Value) :
    Store.Overwrites (st.equated g first second secondValue) := by
  cases first with
  | none => exact .id
  | some v =>
    cases hprecise : v.isStrictlyMorePrecise secondValue with
    | true =>
      have hequated : st.equated g (some v) second secondValue =
          fun s => insertAll s (st.refinedByEquality g second) v :=
        funext fun s => if_pos hprecise
      rw [hequated]
      exact overwrites_insertAll _ v
    | false =>
      have hequated : st.equated g (some v) second secondValue = fun s => s :=
        funext fun s => if_neg (Bool.eq_false_iff.1 hprecise)
      rw [hequated]
      exact .id

/-- What a comparison makes of the branch with equal operands. -/
def compared (st : Setting) (g : Graph) (values : NodeValues) (left right : NodeId) (s : Store) :
    Store :=
  st.equated g (values.get? right) left (values.get? left)
    (st.equated g (values.get? left) right (values.get? right) s)

theorem overwrites_compared : Store.Overwrites (st.compared g values left right) :=
  (overwrites_equated _ _ _).comp (overwrites_equated _ _ _)

theorem equal_visitEquality (node : Node) (stores : Stores) :
    (st.visitEquality g values node left right notEqual stores).stores.equal notEqual =
      st.compared g values left right
        ((g.comparedStores left right notEqual stores).equal notEqual) := by
  have hstores : (st.visitEquality g values node left right notEqual stores).stores =
      st.strengthen g (values.get? right) left (values.get? left) notEqual
        (st.strengthen g (values.get? left) right (values.get? right) notEqual
          (g.comparedStores left right notEqual stores)) := rfl
  rw [hstores, equal_strengthen, equal_strengthen, compared]

theorem unequal_visitEquality (node : Node) (stores : Stores) :
    (st.visitEquality g values node left right notEqual stores).stores.unequal notEqual =
      (g.comparedStores left right notEqual stores).unequal notEqual := by
  have hstores : (st.visitEquality g values node left right notEqual stores).stores =
      st.strengthen g (values.get? right) left (values.get? left) notEqual
        (st.strengthen g (values.get? left) right (values.get? right) notEqual
          (g.comparedStores left right notEqual stores)) := rfl
  rw [hstores, unequal_strengthen, unequal_strengthen]

/-- Where a comparison does not exchange the branches of what it left itself, it leaves them as they
are. -/
theorem visitEquality_again_of_keeps
    (h : g.comparisonExchanges left right notEqual
      (st.visitEquality g values node left right notEqual stores).stores = false) :
    let first := (st.visitEquality g values node left right notEqual stores).stores
    (st.visitEquality g values node left right notEqual first).stores.SameBranches first := by
  intro first
  have hkeeps : g.comparedStores left right notEqual first = first :=
    if_neg (Bool.eq_false_iff.1 h)
  refine (Stores.sameBranches_iff notEqual).2 ⟨?_, ?_⟩
  · rw [equal_visitEquality, hkeeps, equal_visitEquality]
    exact overwrites_compared.again _
  · rw [unequal_visitEquality, hkeeps]
    exact Store.agrees_refl _

/-- Where it does, each branch comes to where the other one was, and what equality says is recorded
in a branch that did not have it. So the branches are the same exactly if they did not differ. -/
theorem visitEquality_again_of_exchanges
    (h : g.comparisonExchanges left right notEqual
      (st.visitEquality g values node left right notEqual stores).stores = true) :
    let first := (st.visitEquality g values node left right notEqual stores).stores
    let again := (st.visitEquality g values node left right notEqual first).stores
    again.equal notEqual = st.compared g values left right (first.unequal notEqual) ∧
      again.unequal notEqual = first.equal notEqual ∧
      (again.SameBranches first ↔ first.thenStore.agrees first.elseStore = true) := by
  intro first again
  have hswap : g.comparedStores left right notEqual first = first.swap := if_pos h
  have hequal : again.equal notEqual =
      st.compared g values left right (first.unequal notEqual) := by
    rw [equal_visitEquality, hswap, Stores.equal_swap]
  have hunequal : again.unequal notEqual = first.equal notEqual := by
    rw [unequal_visitEquality, hswap, Stores.unequal_swap]
  refine ⟨hequal, hunequal, ?_⟩
  rw [Stores.sameBranches_iff notEqual, hequal, hunequal, Stores.agrees_equal_unequal]
  refine ⟨And.right, fun hsame => ⟨?_, hsame⟩⟩
  -- Equality has been recorded where the operands are equal, and the other branch is no different.
  have hbranches : (first.unequal notEqual).agrees (first.equal notEqual) = true :=
    Store.agrees_symm ((first.agrees_equal_unequal notEqual).2 hsame)
  refine Store.agrees_trans (overwrites_compared.congr hbranches) ?_
  rw [equal_visitEquality]
  exact overwrites_compared.again _

/-! ### Tests -/

theorem visitInstanceOf_again (node : Node) (operand : NodeId) (referenceType : TreeId)
    (annotated : Bool) (stores : Stores) :
    let first := (st.visitInstanceOf g node operand referenceType annotated stores).stores
    (st.visitInstanceOf g node operand referenceType annotated first).stores.SameBranches
      first := by
  cases annotated with
  | false => exact .refl _
  | true =>
    simp only [visitInstanceOf, if_true]
    cases (g.node? operand).bind fun n => st.testedValue? n referenceType with
    | none => exact .refl _
    | some reference =>
      let r := st.receiverOf g operand
      let facts := reference.qualifiers.toList.map fun q => (r, Value.of r.ty [q])
      have hone : Store.OneType facts := by
        intro fact hmem fact' hmem' _
        obtain ⟨q, -, rfl⟩ := List.mem_map.1 hmem
        obtain ⟨q', -, rfl⟩ := List.mem_map.1 hmem'
        rfl
      have hnormal : ∀ fact ∈ facts, fact.2.Normalized := by
        intro fact hmem
        obtain ⟨q, -, rfl⟩ := List.mem_map.1 hmem
        exact Value.normalized_of _ _
      have hagain := Store.refineAll_again hone hnormal stores.merged
      exact ⟨hagain, hagain⟩

/-! ### Labels -/

/-- What a label makes of the branch in which it matches. -/
def matched (st : Setting) (g : Graph) (caseValue : Option Value)
    (switchTarget switchExpression : NodeId) (switchValue : Option Value) (s : Store) : Store :=
  st.equated g caseValue switchTarget switchValue
    (st.equated g caseValue switchExpression switchValue s)

theorem matched_eq (v : Value) (switchTarget switchExpression : NodeId)
    (switchValue : Option Value) (s : Store) :
    st.matched g (some v) switchTarget switchExpression switchValue s =
      if v.isStrictlyMorePrecise switchValue then
        insertAll (insertAll s (st.refinedByEquality g switchExpression) v)
          (st.refinedByEquality g switchTarget) v
      else s := by
  rw [matched, equated, equated]
  split <;> rfl

theorem visitCase_branches (st : Setting) (g : Graph) (values : NodeValues)
    (caseOperand switchTarget switchExpression : NodeId)
    (stores : Stores) :
    let switchValue := stores.merged.value? (st.receiverOf g switchTarget)
    let after := (st.visitCase g values caseOperand switchTarget switchExpression stores).stores
    after.thenStore = st.matched g (values.get? caseOperand) switchTarget switchExpression
        switchValue stores.thenStore ∧
      after.elseStore = stores.elseStore := by
  intro switchValue after
  have hafter : after = st.strengthen g (values.get? caseOperand) switchTarget switchValue false
      (st.strengthen g (values.get? caseOperand) switchExpression switchValue false
        (.conditional stores.thenStore stores.elseStore)) := rfl
  constructor
  · change after.equal false = _
    rw [hafter, equal_strengthen, equal_strengthen]
    rfl
  · change after.unequal false = _
    rw [hafter, unequal_strengthen, unequal_strengthen]
    rfl

/-- A label looks at what the branches together know of the switched local, so it does not matter
whether they are one store. -/
theorem visitCase_conditional (caseOperand switchTarget switchExpression : NodeId)
    (hnormal : stores.merged.Normalized) :
    st.visitCase g values caseOperand switchTarget switchExpression
        (.conditional stores.thenStore stores.elseStore) =
      st.visitCase g values caseOperand switchTarget switchExpression stores := by
  have hmerged : (stores.thenStore.lub stores.elseStore).value? (st.receiverOf g switchTarget) =
      stores.merged.value? (st.receiverOf g switchTarget) := by
    cases stores with
    | regular s =>
      rw [Store.value?_lub]
      exact Value.lub?_self (hnormal.value? _)
    | conditional t e => rfl
  have hpair : (Stores.conditional stores.thenStore stores.elseStore).merged =
      stores.thenStore.lub stores.elseStore := rfl
  rw [visitCase, visitCase, hpair, hmerged]
  rfl

theorem visitCase_again (caseOperand switchTarget switchExpression : NodeId)
    (hnormal : stores.merged.Normalized) :
    let first := (st.visitCase g values caseOperand switchTarget switchExpression stores).stores
    (st.visitCase g values caseOperand switchTarget switchExpression first).stores.SameBranches
      first := by
  intro first
  obtain ⟨hmatched, -⟩ :=
    st.visitCase_branches g values caseOperand switchTarget switchExpression stores
  obtain ⟨hthen, helse⟩ :=
    st.visitCase_branches g values caseOperand switchTarget switchExpression first
  by_cases hprecise : ∃ v, values.get? caseOperand = some v ∧
      v.isStrictlyMorePrecise (stores.merged.value? (st.receiverOf g switchTarget)) = true
  · obtain ⟨v, hv, hprecise⟩ := hprecise
    have hrecorded : first.thenStore =
        insertAll (insertAll stores.thenStore (st.refinedByEquality g switchExpression) v)
          (st.refinedByEquality g switchTarget) v := by
      rw [hmatched, hv, matched_eq, if_pos hprecise]
    refine ⟨?_, ?_⟩
    · -- Whether or not the label says more the second time, it says what is recorded.
      rw [hthen, hv, matched_eq]
      split
      · rw [hrecorded]
        exact ((overwrites_insertAll _ v).comp (overwrites_insertAll _ v)).again stores.thenStore
      · exact Store.agrees_refl _
    · rw [helse]
      exact Store.agrees_refl _
  · have hnot : ∀ v, values.get? caseOperand = some v →
        v.isStrictlyMorePrecise (stores.merged.value? (st.receiverOf g switchTarget)) = false :=
      fun v hv => Bool.eq_false_iff.2 fun h => hprecise ⟨v, hv, h⟩
    have hsame : first = .conditional stores.thenStore stores.elseStore := by
      change st.strengthen g _ _ _ false (st.strengthen g _ _ _ false _) = _
      rw [strengthen_of_not_precise hnot, strengthen_of_not_precise hnot]
    rw [hsame, visitCase_conditional _ _ _ hnormal, ← hsame]
    exact .refl first

/-! ### All nodes but calls -/

theorem value_visitInstanceOf (node : Node) (operand : NodeId) (referenceType : TreeId)
    (annotated : Bool) (stores : Stores) :
    (st.visitInstanceOf g node operand referenceType annotated stores).value =
      st.annotatedValue node := by
  unfold visitInstanceOf
  split
  · split <;> rfl
  · rfl

/-- A node other than a call that is visited again has its value again, and unless it exchanges the
branches, it leaves them as they are. -/
theorem visitBody_again (st : Setting) (g : Graph) (values : NodeValues)
    (hnormal : stores.merged.Normalized)
    (hcall : ∀ m receiver arguments, node.kind ≠ .methodInvocation m receiver arguments) :
    let first := (st.visitBody g values node stores).1
    let again := (st.visitBody g values node first.stores).1
    again.value = first.value ∧
      (g.exchanges node first.stores = false → again.stores.SameBranches first.stores) := by
  simp only [visitBody, Graph.exchanges]
  cases hkind : node.kind with
  | methodInvocation m receiver arguments => exact absurd hkind (hcall m receiver arguments)
  | conditionalNot operand => exact ⟨rfl, fun hkeeps => by cases hkeeps⟩
  | equalTo left right => exact ⟨rfl, visitEquality_again_of_keeps⟩
  | notEqual left right => exact ⟨rfl, visitEquality_again_of_keeps⟩
  | assignment target expression =>
    exact ⟨rfl, fun _ => Stores.SameBranches.regular (Store.assign_again _ _ _ _)⟩
  | stringConcatenateAssignment target expression =>
    exact ⟨rfl, fun _ => Stores.SameBranches.regular (Store.assign_again _ _ _ _)⟩
  | instanceOf operand referenceType annotated =>
    refine ⟨?_, fun _ => visitInstanceOf_again node operand referenceType annotated stores⟩
    rw [value_visitInstanceOf, value_visitInstanceOf]
  | switchCase caseOperand switchTarget switchExpression =>
    exact ⟨rfl, fun _ => visitCase_again caseOperand switchTarget switchExpression hnormal⟩
  | _ => exact ⟨rfl, fun _ => .refl _⟩

/-- Where a node exchanges the branches when it is visited again, they are the same as before
exactly if they did not differ. -/
theorem visitBody_again_of_exchanges
    (h : g.exchanges node (st.visitBody g values node stores).1.stores = true) :
    let first := (st.visitBody g values node stores).1.stores
    (st.visitBody g values node first).1.stores.SameBranches first ↔
      first.thenStore.agrees first.elseStore = true := by
  cases hkind : node.kind with
  | conditionalNot operand =>
    simp only [visitBody, hkind]
    exact ⟨And.right, fun hsame => ⟨Store.agrees_symm hsame, hsame⟩⟩
  | equalTo left right =>
    simp only [visitBody, Graph.exchanges, hkind] at h ⊢
    exact (visitEquality_again_of_exchanges h).2.2
  | notEqual left right =>
    simp only [visitBody, Graph.exchanges, hkind] at h ⊢
    exact (visitEquality_again_of_exchanges h).2.2
  | _ =>
    rw [Graph.exchanges, hkind] at h
    cases h

end Setting

end FlowTyping
