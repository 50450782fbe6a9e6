import FlowTyping.Proofs.Store.Monotone
import FlowTyping.Proofs.Transfer.Operands

/-!
# The transfer function is monotone

From stores and operand values that say more, a visit gives a value and stores that say more. Two
kinds of nodes are left out. A comparison records the value of one operand for the other only if it
says more than what is known, and so replaces a type by an incomparable one from less precise
stores only; one that can record nothing is monotone. A write of an unknown value to a final field
leaves the old fact, which need not be weaker than a value that is written from stores that know
more.
-/

namespace FlowTyping

open Value (KnownBelow knownBelow_self)

theorem Stores.Below.joined {s t : Stores} (h : s.Below t) : s.merged.Below t.merged := by
  cases s with
  | regular s =>
    cases t with
    | regular t => exact h.1
    | conditional t e => exact h.1.trans (Store.below_lub_left t e)
  | conditional s e =>
    cases t with
    | regular t => exact Store.lub_below h.1 h.2
    | conditional t e' => exact h.1.lub h.2

theorem Stores.Below.regular {s t : Store} (h : s.Below t) :
    (Stores.regular s).Below (.regular t) :=
  ⟨h, h⟩

theorem Stores.Below.exchanged {s t : Stores} (h : s.Below t) (exchanges : Bool) :
    (if s.isConditional && exchanges then s.swap else s).Below
      (if t.isConditional && exchanges then t.swap else t) := by
  -- A regular store counts as two equal ones, so that the branches of all stores are exchanged.
  have hbranches : ∀ u : Stores,
      (if u.isConditional && exchanges then u.swap else u).thenStore =
        (if exchanges then u.elseStore else u.thenStore) ∧
      (if u.isConditional && exchanges then u.swap else u).elseStore =
        (if exchanges then u.thenStore else u.elseStore) := by
    intro u
    cases u <;> cases exchanges <;> exact ⟨rfl, rfl⟩
  rw [Stores.Below, (hbranches s).1, (hbranches s).2, (hbranches t).1, (hbranches t).2]
  cases exchanges
  · exact h
  · exact ⟨h.2, h.1⟩

/-- The order of the results of visits: the value and the stores say more. -/
structure Outcome.Below (o o' : Outcome) : Prop where
  value : KnownBelow o.value o'.value
  stores : o.stores.Below o'.stores

/-- Whether a node compares the values of its operands. -/
def NodeKind.comparesOperands : NodeKind → Bool
  | equalTo _ _ => true
  | notEqual _ _ => true
  | switchCase _ _ _ => true
  | _ => false

/-- The operands that a comparison may refine. -/
def NodeKind.comparedOperands : NodeKind → List NodeId
  | equalTo left right => [left, right]
  | notEqual left right => [left, right]
  | switchCase _ switchTarget switchExpression => [switchTarget, switchExpression]
  | _ => []

/-- No compared operand stands for a receiver that a store tracks. -/
def Setting.RefinesNothing (st : Setting) (g : Graph) (kind : NodeKind) : Prop :=
  ∀ o ∈ kind.comparedOperands, st.refinedByEquality g o = []

instance (st : Setting) (g : Graph) (kind : NodeKind) : Decidable (st.RefinesNothing g kind) :=
  inferInstanceAs (Decidable (∀ o ∈ kind.comparedOperands, st.refinedByEquality g o = []))

section RefinesNothing

variable {st : Setting} {g : Graph} {left right operand : NodeId}

theorem Setting.refinesNothing_equalTo : st.RefinesNothing g (.equalTo left right) ↔
    st.refinedByEquality g left = [] ∧ st.refinedByEquality g right = [] := by
  simp [RefinesNothing, NodeKind.comparedOperands]

theorem Setting.refinesNothing_notEqual : st.RefinesNothing g (.notEqual left right) ↔
    st.refinedByEquality g left = [] ∧ st.refinedByEquality g right = [] := by
  simp [RefinesNothing, NodeKind.comparedOperands]

theorem Setting.refinesNothing_switchCase :
    st.RefinesNothing g (.switchCase operand left right) ↔
      st.refinedByEquality g left = [] ∧ st.refinedByEquality g right = [] := by
  simp [RefinesNothing, NodeKind.comparedOperands]

theorem Setting.refinesNothing_of_not_compares {kind : NodeKind}
    (h : kind.comparesOperands = false) : st.RefinesNothing g kind := by
  have hnone : kind.comparedOperands = [] := by
    cases kind <;> first | rfl | cases h
  intro o ho
  rw [hnone] at ho
  cases ho

end RefinesNothing

def Setting.writesFinalField (st : Setting) (g : Graph) : NodeKind → Bool
  | .assignment target _ => (st.receiverOf g target).isFinalField
  | _ => false

namespace Tables

/-! ### Conversions -/

/-- A conversion from or to a primitive type makes a value non-null. -/
theorem rank_convertQualifiers_nullness (s : QualifierSet) (source target : Ty) :
    (convertQualifiers s source target).rank .nullness =
      if source.isPrimitive || target.isPrimitive then 0 else s.rank .nullness := by
  rw [convertQualifiers]
  split
  · obtain ⟨a, b, c, d, e⟩ := s
    revert a b c d e
    decide
  · rfl

theorem rank_convertQualifiers_interning (s : QualifierSet) (source target : Ty) :
    (convertQualifiers s source target).rank .interning = s.rank .interning := by
  rw [convertQualifiers]
  split
  · obtain ⟨a, b, c, d, e⟩ := s
    revert a b c d e
    decide
  · rfl

/-- A more precise value is of a primitive type wherever a less precise one is, so its conversion
says more. -/
theorem rank_convertQualifiers_le {v w : Value} (h : v.Below w) (target : Ty) (hier : Hierarchy) :
    (convertQualifiers v.qualifiers v.ty target).rank hier ≤
      (convertQualifiers w.qualifiers w.ty target).rank hier := by
  obtain ⟨-, hty, hrank⟩ := Value.below_iff.1 h
  have hle : v.qualifiers.rank hier ≤ w.qualifiers.rank hier := hrank hier
  cases hier with
  | nullness =>
    rw [rank_convertQualifiers_nullness, rank_convertQualifiers_nullness]
    split
    · exact Nat.zero_le _
    · next hno =>
      rw [Bool.not_eq_true, Bool.or_eq_false_iff] at hno
      have hw : ¬(w.ty.isPrimitive || target.isPrimitive) = true := by
        rw [Bool.or_eq_true, hno.2]
        rintro (hw | hw)
        · rw [Ty.isPrimitive_of_below hty hw] at hno
          cases hno.1
        · cases hw
      rw [if_neg hw]
      exact hle
  | interning =>
    rw [rank_convertQualifiers_interning, rank_convertQualifiers_interning]
    exact hle

theorem knownBelow_convert {v w : Value} (h : v.Below w) (target : Ty) :
    KnownBelow (Value.of? target (convertQualifiers v.qualifiers v.ty target).toList)
      (Value.of? target (convertQualifiers w.qualifiers w.ty target).toList) := by
  have hle := rank_convertQualifiers_le h target
  rw [Value.of?, Value.of?]
  split
  · next hv =>
    -- Where the more precise conversion says nothing, so does the other.
    have hnone : (convertQualifiers w.qualifiers w.ty target).toList.isEmpty = true := by
      rw [QualifierSet.isEmpty_toList_iff] at hv ⊢
      have hnullness := hle .nullness
      have hinterning := hle .interning
      have hbound := QualifierSet.rank_le (convertQualifiers w.qualifiers w.ty target)
      have hbound₁ := hbound .nullness
      have hbound₂ := hbound .interning
      omega
    rw [if_pos hnone]
    exact Value.knownBelow_none _
  · split
    · exact Value.knownBelow_none _
    · refine KnownBelow.some (Value.below_iff.2 ⟨Value.normalized_of _ _, Ty.lub_self _, ?_⟩)
      intro hier
      rw [Value.rank_of_toList, Value.rank_of_toList]
      exact hle hier

end Tables

namespace Setting

variable {st : Setting} {g : Graph} {values values' : NodeValues} {node : Node}
  {stores stores' : Stores}

theorem normalized_tableValue {v : Value} (h : st.tableValue node = some v) : v.Normalized := by
  obtain ⟨tree, -, htree⟩ := Option.bind_eq_some_iff.1 h
  rw [Tables.valueOfTree] at htree
  split at htree <;> exact Value.normalized_of? htree

theorem normalized_annotatedValue {v : Value} (h : st.annotatedValue node = some v) :
    v.Normalized := by
  rw [annotatedValue] at h
  split at h
  · exact normalized_tableValue h
  · cases h

theorem normalized_valueOfTypeTree {tables : Tables} {tree : TreeId} {v : Value}
    (h : tables.valueOfTypeTree tree = some v) : v.Normalized := by
  obtain ⟨entry, -, hentry⟩ := Option.bind_eq_some_iff.1 h
  exact Value.normalized_of? hentry

theorem normalized_contractFacts {context : ExpressionContext} {cs : List Contract} :
    ∀ fact ∈ st.contractFacts context cs, fact.2.Normalized := by
  intro fact hfact
  obtain ⟨c, -, hc⟩ := List.mem_filterMap.1 hfact
  rw [contractFact] at hc
  split at hc
  · cases hc
    exact Value.normalized_of _ _
  · cases hc

theorem visitPlain_below (h : stores.Below stores') :
    (st.visitPlain node stores).Below (st.visitPlain node stores') :=
  ⟨knownBelow_self fun _ hv => normalized_annotatedValue hv, h⟩

theorem visitClassName_below (h : stores.Below stores') :
    (st.visitClassName node stores).Below (st.visitClassName node stores') := by
  refine ⟨knownBelow_self fun v hv => ?_, h⟩
  rw [visitClassName] at hv
  dsimp only at hv
  split at hv
  · obtain ⟨tree, -, htree⟩ := Option.bind_eq_some_iff.1 hv
    exact normalized_valueOfTypeTree htree
  · cases hv

theorem visitLocation_below (h : stores.Below stores') :
    (st.visitLocation g node stores).Below (st.visitLocation g node stores') :=
  ⟨KnownBelow.moreSpecific? (fun _ hv => normalized_tableValue hv) (h.joined.knownBelow _),
    .regular h.joined⟩

theorem visitThis_below (h : stores.Below stores') :
    (st.visitThis node stores).Below (st.visitThis node stores') :=
  ⟨KnownBelow.moreSpecific? (fun _ hv => normalized_annotatedValue hv) (h.joined.knownBelow _),
    .regular h.joined⟩

theorem visitInstanceOf_below (h : stores.Below stores') (operand : NodeId)
    (referenceType : TreeId) (annotated : Bool) :
    (st.visitInstanceOf g node operand referenceType annotated stores).Below
      (st.visitInstanceOf g node operand referenceType annotated stores') := by
  have hplain : (st.visitPlain node stores).Below (st.visitPlain node stores') :=
    visitPlain_below h
  rw [visitInstanceOf, visitInstanceOf]
  split
  · split
    · exact hplain
    · refine ⟨hplain.value, .regular (Store.Below.refineAll h.joined fun fact hfact => ?_)⟩
      obtain ⟨q, -, rfl⟩ := List.mem_map.1 hfact
      exact Value.normalized_of _ _
  · exact hplain

theorem visitInvocation_below (hfinal : stores'.merged.FinalsNotMonotonic st.tables)
    (h : stores.Below stores') (m : Method) (receiver : NodeId) (arguments : List NodeId) :
    (st.visitInvocation g values node m receiver arguments stores).1.Below
      (st.visitInvocation g values' node m receiver arguments stores').1 := by
  have hvalue : KnownBelow
      (Value.moreSpecific? (st.tableValue node) (stores.merged.value? (st.receiverOf g node.id)))
      (Value.moreSpecific? (st.tableValue node)
        (stores'.merged.value? (st.receiverOf g node.id))) :=
    KnownBelow.moreSpecific? (fun _ hv => normalized_tableValue hv) (h.joined.knownBelow _)
  have hcall := h.joined.afterMethodCall hfinal (st.receiverOf g node.id)
    (st.config.assumeSideEffectFree || st.tables.isSideEffectFree m) hvalue
  have hfacts : ∀ fact ∈ st.contractFacts
      (.ofCall g st.tables.isDeterministic ⟨m, receiver, arguments, node.tree⟩)
      (st.contractsAt m .postcondition), fact.2.Normalized := normalized_contractFacts
  have hafter := hcall.refineAll hfacts
  exact ⟨hvalue, hafter.refineAll normalized_contractFacts,
    hafter.refineAll normalized_contractFacts⟩

theorem visitConversion_below {operand : NodeId} (h : stores.Below stores')
    (hvalue : KnownBelow (values.get? operand) (values'.get? operand)) :
    (visitConversion values node operand stores).Below
      (visitConversion values' node operand stores') := by
  refine ⟨?_, h⟩
  rw [visitConversion, visitConversion]
  cases hw : values'.get? operand with
  | none => exact Value.knownBelow_none _
  | some w =>
    obtain ⟨v, hv, hvw⟩ := Value.knownBelow_iff.1 hvalue w hw
    rw [hv]
    exact Tables.knownBelow_convert hvw node.ty

/-! ### Comparisons that refine nothing -/

theorem strengthen_of_refines_nothing {second : NodeId} (h : st.refinedByEquality g second = [])
    (first secondValue : Option Value) (notEqual : Bool) (stores : Stores) :
    st.strengthen g first second secondValue notEqual stores = stores := by
  cases first with
  | none => rfl
  | some v =>
    rw [strengthen, h]
    exact ite_self _

theorem visitEquality_of_refines_nothing {left right : NodeId}
    (hleft : st.refinedByEquality g left = []) (hright : st.refinedByEquality g right = [])
    (values : NodeValues) (node : Node) (notEqual : Bool) (stores : Stores) :
    st.visitEquality g values node left right notEqual stores =
      ⟨st.annotatedValue node, if stores.isConditional &&
          (g.isBooleanLiteral left notEqual || g.isBooleanLiteral right notEqual)
        then stores.swap else stores⟩ := by
  simp only [visitEquality, strengthen_of_refines_nothing hleft,
    strengthen_of_refines_nothing hright]
  rfl

theorem visitCase_of_refines_nothing {target expression : NodeId}
    (htarget : st.refinedByEquality g target = [])
    (hexpression : st.refinedByEquality g expression = []) (values : NodeValues)
    (caseOperand : NodeId) (stores : Stores) :
    st.visitCase g values caseOperand target expression stores =
      ⟨none, .conditional stores.thenStore stores.elseStore⟩ := by
  simp only [visitCase, strengthen_of_refines_nothing htarget,
    strengthen_of_refines_nothing hexpression]

theorem visitEquality_below (h : stores.Below stores') {left right : NodeId}
    (hleft : st.refinedByEquality g left = []) (hright : st.refinedByEquality g right = [])
    (notEqual : Bool) :
    (st.visitEquality g values node left right notEqual stores).Below
      (st.visitEquality g values' node left right notEqual stores') := by
  rw [visitEquality_of_refines_nothing hleft hright, visitEquality_of_refines_nothing hleft hright]
  exact ⟨(visitPlain_below h).value, h.exchanged _⟩

theorem visitCase_below (h : stores.Below stores') {target expression : NodeId}
    (htarget : st.refinedByEquality g target = [])
    (hexpression : st.refinedByEquality g expression = []) (caseOperand : NodeId) :
    (st.visitCase g values caseOperand target expression stores).Below
      (st.visitCase g values' caseOperand target expression stores') := by
  rw [visitCase_of_refines_nothing htarget hexpression,
    visitCase_of_refines_nothing htarget hexpression]
  exact ⟨Value.knownBelow_none _, h⟩

/-- The visit of a node that is not a lambda result with a body is monotone, also of a comparison
if it refines nothing. -/
theorem visitBody_below (hkind : st.RefinesNothing g node.kind)
    (hwrite : st.writesFinalField g node.kind = false)
    (hfinal : stores'.merged.FinalsNotMonotonic st.tables)
    (hvalues : ∀ o ∈ node.kind.operands, KnownBelow (values.get? o) (values'.get? o))
    (h : stores.Below stores') :
    (st.visitBody g values node stores).1.Below (st.visitBody g values' node stores').1 := by
  have hplain : (st.visitPlain node stores).Below (st.visitPlain node stores') :=
    visitPlain_below h
  rw [visitBody, visitBody]
  cases hnode : node.kind with
  | localVariable x => exact visitLocation_below h
  | fieldAccess receiver f => exact visitLocation_below h
  | arrayAccess array index => exact visitLocation_below h
  | thisLiteral => exact visitThis_below h
  | className => exact visitClassName_below h
  | literal value => exact hplain
  | operation operands => exact hplain
  | ternary condition thenOperand elseOperand =>
    rw [hnode] at hvalues
    exact ⟨(hvalues thenOperand (by simp [NodeKind.operands])).lub?
      (hvalues elseOperand (by simp [NodeKind.operands])), h⟩
  | conditionalNot operand => exact ⟨hplain.value, h.2, h.1⟩
  | equalTo left right =>
    obtain ⟨hleft, hright⟩ := refinesNothing_equalTo.1 (hnode ▸ hkind)
    exact visitEquality_below h hleft hright false
  | notEqual left right =>
    obtain ⟨hleft, hright⟩ := refinesNothing_notEqual.1 (hnode ▸ hkind)
    exact visitEquality_below h hleft hright true
  | assignment target expression =>
    rw [hnode] at hvalues hwrite
    have hvalue := hvalues expression (by simp [NodeKind.operands])
    have hassignable : (st.receiverOf g target).isFinalField = false := hwrite
    exact ⟨hvalue, .regular (h.joined.assign (fun hf => by simp [hf] at hassignable) hvalue)⟩
  | stringConcatenateAssignment target expression =>
    exact ⟨hplain.value, .regular (h.joined.assign (fun _ => rfl) hplain.value)⟩
  | instanceOf operand referenceType annotated =>
    exact visitInstanceOf_below h operand referenceType annotated
  | methodInvocation m receiver arguments =>
    exact visitInvocation_below hfinal h m receiver arguments
  | objectCreation constructor arguments => exact hplain
  | returnStatement result m => exact hplain
  | lambdaResult result => exact hplain
  | switchCase caseOperand switchTarget switchExpression =>
    obtain ⟨htarget, hexpression⟩ := refinesNothing_switchCase.1 (hnode ▸ hkind)
    exact visitCase_below h htarget hexpression caseOperand
  | wideningConversion operand =>
    rw [hnode] at hvalues
    exact visitConversion_below h (hvalues operand (by simp [NodeKind.operands]))
  | narrowingConversion operand =>
    rw [hnode] at hvalues
    exact visitConversion_below h (hvalues operand (by simp [NodeKind.operands]))
  | stringConversion operand =>
    rw [hnode] at hvalues
    exact ⟨hvalues operand (by simp [NodeKind.operands]), h⟩
  | variableDeclaration x => exact ⟨Value.knownBelow_none _, .regular h.joined⟩

/-- The visit of a node is monotone in the stores and in the values that it reads, unless the node
stands for a comparison or for an assignment to a final field. -/
theorem visit_below (hkind : (g.lambdaBody node).kind.comparesOperands = false)
    (hwrite : st.writesFinalField g (g.lambdaBody node).kind = false)
    (hfinal : stores'.merged.FinalsNotMonotonic st.tables)
    (hvalues : ∀ o ∈ g.reads node, KnownBelow (values.get? o) (values'.get? o))
    (h : stores.Below stores') :
    (st.visit g values node stores).1.Below (st.visit g values' node stores').1 :=
  visitBody_below (refinesNothing_of_not_compares hkind) hwrite hfinal hvalues h

end Setting

namespace LambdaAssignment

private def cell : Ty := .declared "Cell"

private def next (isFinal : Bool) : Field := ⟨⟨20⟩, "next", cell, cell, isFinal, false⟩

private def thisNext (isFinal : Bool) : Receiver := .field (.this cell) (next isFinal)

private def assigned : Variable := ⟨⟨10⟩, "y", .localVariable, cell, none⟩

/-- The lambda `() -> this.next = y`. -/
def body (isFinal : Bool) : Graph where
  code := .lambda ⟨0⟩
  parameters := []
  nodes := [
    ⟨⟨0⟩, cell, none, true, .thisLiteral⟩,
    ⟨⟨1⟩, cell, none, true, .fieldAccess ⟨0⟩ (next isFinal)⟩,
    ⟨⟨2⟩, cell, none, true, .localVariable assigned⟩,
    ⟨⟨3⟩, cell, none, true, .assignment ⟨1⟩ ⟨2⟩⟩,
    ⟨⟨4⟩, cell, none, true, .lambdaResult ⟨3⟩⟩]
  blocks := [
    ⟨⟨0⟩, [⟨0⟩, ⟨1⟩, ⟨2⟩, ⟨3⟩, ⟨4⟩], some (.goto ⟨1⟩), [], [⟨1⟩]⟩, ⟨⟨1⟩, [], none, [⟨0⟩], []⟩]
  entry := ⟨0⟩
  exit := ⟨1⟩

private def result : Node := ⟨⟨4⟩, cell, none, true, .lambdaResult ⟨3⟩⟩

private def stores (isFinal : Bool) : Stores :=
  .regular ((Store.empty true).put (thisNext isFinal) (some (.of cell [.nonNull])))

private def nullableAssigned : NodeValues := FinMap.empty.insert ⟨2⟩ (.of cell [.nullable])

private def undeclared : Setting := .ofTables .empty .empty .default

/-- Once `this.next` is not null it stays so. -/
private def monotonic : Setting :=
  .ofTables { Tables.empty with fields := [⟨next false, [.monotonicNonNull], none⟩] } .empty
    .concurrent

private theorem undeclared_finalsNotMonotonic (s : Store) :
    s.FinalsNotMonotonic undeclared.tables := by
  rintro base f - ⟨-, q, declared, hdeclared, -⟩
  cases hdeclared

private theorem monotonic_finalsNotMonotonic :
    (stores false).merged.FinalsNotMonotonic monotonic.tables := by
  rintro base f hknown ⟨hfinal, -⟩
  change (((Store.empty true).put (thisNext false) _).value? (.field base f)).isSome at hknown
  rw [Store.value?_put] at hknown
  split at hknown
  · next hslot =>
    obtain ⟨-, rfl⟩ := Receiver.field.inj (show Receiver.field base f = thisNext false from hslot)
    cases hfinal
  · rw [Store.value?_empty] at hknown
    cases hknown

private theorem stores_below (isFinal : Bool) : (stores isFinal).Below (stores isFinal) := by
  refine .regular (Store.below_iff.2 ⟨rfl, fun r => knownBelow_self fun v hv => ?_⟩)
  rw [Store.value?_put] at hv
  split at hv
  · cases hv
    exact Value.normalized_of _ _
  · rw [Store.value?_empty] at hv
    cases hv

private theorem reads_below (isFinal : Bool) : ∀ o ∈ (body isFinal).reads result,
    KnownBelow (nullableAssigned.get? o) ((FinMap.empty : NodeValues).get? o) :=
  fun _ _ => Value.knownBelow_none _

/-- Where the field is not final, what is assigned is recorded or weakens what was known. -/
theorem visit_result_below :
    ((body false).lambdaBody result).kind.comparesOperands = false ∧
    monotonic.writesFinalField (body false) ((body false).lambdaBody result).kind = false ∧
    (stores false).merged.FinalsNotMonotonic monotonic.tables ∧
    (∀ o ∈ (body false).reads result,
      KnownBelow (nullableAssigned.get? o) ((FinMap.empty : NodeValues).get? o)) ∧
    (stores false).Below (stores false) ∧
    (monotonic.visit (body false) nullableAssigned result (stores false)).1.Below
      (monotonic.visit (body false) .empty result (stores false)).1 :=
  ⟨rfl, rfl, monotonic_finalsNotMonotonic, reads_below false, stores_below false,
    Setting.visit_below rfl rfl monotonic_finalsNotMonotonic (reads_below false)
      (stores_below false)⟩

/-- Where it is final, the result of the lambda is no comparison and no assignment, and stands
for an assignment of which the unknown value leaves the old fact. -/
theorem visit_result_not_below :
    (body true).check = .ok () ∧ result.kind.comparesOperands = false ∧
    ((body true).lambdaBody result).kind.comparesOperands = false ∧
    undeclared.writesFinalField (body true) result.kind = false ∧
    (stores true).merged.FinalsNotMonotonic undeclared.tables ∧
    (∀ o, KnownBelow (nullableAssigned.get? o) ((FinMap.empty : NodeValues).get? o)) ∧
    (stores true).Below (stores true) ∧
    ¬(undeclared.visit (body true) nullableAssigned result (stores true)).1.Below
      (undeclared.visit (body true) .empty result (stores true)).1 := by
  refine ⟨by decide, rfl, rfl, rfl, undeclared_finalsNotMonotonic _,
    fun _ => Value.knownBelow_none _, stores_below true, fun h => ?_⟩
  have hfact := h.stores.1.knownBelow (thisNext true)
  exact absurd hfact (by decide)

end LambdaAssignment

end FlowTyping
