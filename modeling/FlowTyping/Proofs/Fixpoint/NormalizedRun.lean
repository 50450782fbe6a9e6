import FlowTyping.Proofs.Fixpoint.SoundStores
import FlowTyping.Proofs.Store.Normalized

/-!
# Every value of a run is normalized

The tables may list qualifiers more than once, and several of one hierarchy; values are built from
such lists with one qualifier in each hierarchy. From then on a run only joins and refines values,
copies them, and builds further ones from lists. So all values that a run leaves behind are
normalized: those in stores, those of nodes, and those that are observed.
-/

namespace FlowTyping

open Value (KnownNormalized knownNormalized_none knownNormalized_of?)

def NodeValues.Normalized (values : NodeValues) : Prop := ∀ n, KnownNormalized (values.get? n)

def Log.Normalized (log : Log) : Prop :=
  ∀ x ∈ log.sightings, KnownNormalized x.observation.value

/-- All stores, values and observations that a run leaves behind are normalized. -/
structure Solution.Normalized (sol : Solution) : Prop where
  inputs : ∀ id s, sol.inputs.get? id = some s → s.Normalized
  outputs : ∀ id out, sol.outputs.get? id = some out → out.Both Store.Normalized
  values : sol.values.Normalized
  log : sol.log.Normalized

theorem Log.normalized_empty : Log.empty.Normalized := fun x hx => by cases hx

theorem Log.normalized_ofDiagnostics (ds : List Diagnostic) :
    (Log.ofDiagnostics ds).Normalized := fun x hx => by cases hx

theorem Log.Normalized.append {a b : Log} (ha : a.Normalized) (hb : b.Normalized) :
    (a ++ b).Normalized := by
  intro x hx
  rcases List.mem_append.1 hx with hx | hx
  · exact ha x hx
  · exact hb x hx

theorem Stores.normalized_merged {stores : Stores} (h : stores.Both Store.Normalized) :
    stores.merged.Normalized := by
  cases stores with
  | regular s => exact h.1
  | conditional t e => exact Store.normalized_lub t e

theorem Tables.normalized_monotonicRetained (t : Tables) (f : Field) (v w : Value)
    (h : t.oracle.monotonicRetained f v = some w) : w.Normalized := by
  obtain ⟨target, -, rfl⟩ := Option.map_eq_some_iff.1 h
  exact Value.normalized_of v.ty [target]

namespace Setting

variable {st : Setting}

theorem normalized_observe (tree : Option TreeId) (element : ElementId) {os : List Observation}
    (h : ∀ o ∈ os, KnownNormalized o.value) : (st.observe tree element os).Normalized := by
  rw [observe]
  split
  · intro x hx
    obtain ⟨o, ho, rfl⟩ := List.mem_map.1 hx
    exact h o ho
  · exact Log.normalized_empty

/-! ### Stores -/

section Stores

variable {s : Store} (h : s.Normalized)

include h

theorem normalized_insertAll (receivers : List Receiver) {v : Value} (hv : v.Normalized) :
    (insertAll s receivers v).Normalized :=
  List.foldlRecOn receivers _ h fun _ hs r _ => hs.insert r hv

theorem normalized_refineAll {facts : List (Receiver × Value)}
    (hfacts : ∀ fact ∈ facts, fact.2.Normalized) : (refineAll s facts).Normalized :=
  List.foldlRecOn facts _ h fun _ hs fact hfact => hs.refine fact.1 (hfacts fact hfact)

theorem normalized_assumeAtCall (g : Graph) (call : CallSite) (kind : ContractKind) :
    (st.assumeAtCall g call kind s).Normalized :=
  normalized_refineAll h normalized_contractFacts

theorem normalized_afterMethodCall (r : Receiver) (pure : Bool) {v : Option Value}
    (hv : KnownNormalized v) : (s.afterMethodCall st.tables.oracle r pure v).Normalized :=
  h.apply st.tables.normalized_monotonicRetained (.call r pure v) hv

theorem normalized_addParameters (parameters : List Variable) :
    (st.addParameters parameters s).Normalized :=
  List.foldlRecOn parameters _ h fun _ hs x _ =>
    hs.apply st.tables.normalized_monotonicRetained
      (.setParameter x (st.tables.valueOfVariable x))
      fun _ hv => Tables.normalized_valueOfVariable hv

theorem normalized_addFinalLocals (element : ElementId) :
    (st.addFinalLocals element s).Normalized := by
  refine List.foldlRecOn _ _ h fun s hs entry hentry => ?_
  cases entry.1.declaredIn with
  | none => exact hs
  | some owner =>
    dsimp only
    split
    · exact hs.insert _ (Tables.normalized_finalLocalValues entry hentry)
    · exact hs

theorem normalized_addInitializers (cls : ClassInfo) (m : Method) :
    (st.addInitializers cls m s).Normalized := by
  refine List.foldlRecOn _ _ h fun s hs entry hentry => ?_
  split
  · exact hs.insert _ (Tables.normalized_initializerValues entry hentry)
  · exact hs

theorem normalized_addDeclaredFields (cls : ClassInfo) (m : Method) :
    (st.addDeclaredFields cls m s).Normalized := by
  rw [addDeclaredFields]
  split
  · exact h
  · refine List.foldlRecOn _ _ h fun s hs d _ => ?_
    cases hv : st.declaredFieldValue? m d with
    | none => exact hs
    | some v => exact hs.refine _ (normalized_declaredFieldValue hv)

end Stores

/-! ### Entry stores -/

theorem normalized_overriddenObservations (m : Method) :
    ∀ o ∈ st.overriddenObservations m, KnownNormalized o.value := by
  have hrecorded : ∀ o ∈ st.tables.overridden m, KnownNormalized o.receiver ∧
      ∀ v ∈ o.parameters, KnownNormalized v := by
    intro o ho
    rw [Tables.overridden] at ho
    split at ho
    · obtain ⟨entry, -, rfl⟩ := List.mem_map.1 ho
      refine ⟨knownNormalized_of? _ _, fun v hv => ?_⟩
      obtain ⟨p, -, rfl⟩ := List.mem_map.1 hv
      exact knownNormalized_of? _ _
    · cases ho
  intro observation hobservation
  obtain ⟨o, ho, hobservation⟩ := List.mem_flatMap.1 hobservation
  obtain ⟨hreceiver, hparameters⟩ := hrecorded o ho
  rcases List.mem_append.1 hobservation with hmem | hmem
  · obtain ⟨index, hindex, rfl⟩ := List.mem_mapIdx.1 hmem
    exact hparameters _ (List.getElem_mem hindex)
  · rw [List.mem_singleton.1 hmem]
    exact hreceiver

theorem normalized_entryStore {fixed : Option Store}
    (h : ∀ s, fixed = some s → s.Normalized) {code : Code} {parameters : List Variable}
    {initial : Store} {log : Log}
    (hentry : st.entryStore fixed code parameters = .ok (initial, log)) :
    initial.Normalized ∧ log.Normalized := by
  have hbase : (st.fixedOrEmpty fixed).Normalized := by
    cases fixed with
    | none => exact Store.normalized_empty _
    | some s => exact h s rfl
  cases code with
  | method m tree cls =>
    cases hentry
    have hfacts : ∀ fact ∈ st.contractFacts (.ofDeclaration m parameters)
        (st.contractsAt m .precondition), fact.2.Normalized := normalized_contractFacts
    have hparameters : (st.addParameters parameters (st.fixedOrEmpty fixed)).Normalized :=
      normalized_addParameters hbase parameters
    have hassumed := normalized_refineAll hparameters hfacts
    exact ⟨normalized_addFinalLocals
      (normalized_addDeclaredFields (normalized_addInitializers hassumed cls m) cls m) m.id,
      normalized_observe _ _ (normalized_overriddenObservations m)⟩
  | lambda tree =>
    cases fixed with
    | none => cases hentry
    | some enclosing =>
      cases hentry
      have hseeded : (st.addParameters parameters enclosing.withoutTransient).Normalized :=
        normalized_addParameters (hbase.retain _) parameters
      refine ⟨?_, Log.normalized_empty⟩
      rw [lambdaStore, Store.mapFields]
      refine Store.Normalized.mapFacts ?_ fun r v w hv hw => ?_
      · split
        · exact normalized_addFinalLocals hseeded _
        · exact hseeded
      · cases r with
        | field base f =>
          obtain ⟨declared, -, rfl⟩ := Option.map_eq_some_iff.1 hw
          exact Value.normalized_lub declared v
        | _ => exact Option.some.inj hw ▸ hv
  | fragment tree =>
    cases hentry
    exact ⟨hbase, Log.normalized_empty⟩

/-! ### Visits -/

def NormalizedResult (result : Outcome × Log) : Prop :=
  KnownNormalized result.1.value ∧ result.1.stores.Both Store.Normalized ∧ result.2.Normalized

section Visits

variable {g : Graph} {values : NodeValues} {node : Node} {stores : Stores}
  (hvalues : values.Normalized) (h : stores.Both Store.Normalized)

omit hvalues in
theorem normalized_assignmentLog (node : Node) (target : NodeId) (r : Receiver) {v : Option Value}
    (hv : KnownNormalized v) (watchesParameters : Bool) :
    (st.assignmentLog g node target r v watchesParameters).Normalized := by
  have hseen : ∀ site : Site, ∀ o ∈ [(⟨site, v⟩ : Observation)], KnownNormalized o.value :=
    fun site o ho => List.mem_singleton.1 ho ▸ hv
  rw [assignmentLog]
  cases g.node? target with
  | none => exact Log.normalized_empty
  | some targetNode =>
    dsimp only
    split
    · exact normalized_observe _ _ (hseen _)
    · split
      · exact normalized_observe _ _ (hseen _)
      · split
        · exact normalized_observe _ _ (hseen _)
        · exact Log.normalized_empty
    · exact Log.normalized_empty

include h

theorem normalized_strengthen {first : Option Value} (hfirst : KnownNormalized first)
    (second : NodeId) (secondValue : Option Value) (notEqual : Bool) :
    (st.strengthen g first second secondValue notEqual stores).Both Store.Normalized := by
  unfold strengthen
  split
  · exact h
  · next v =>
    have hv : v.Normalized := hfirst v rfl
    split
    · split
      · exact h
      · split
        · exact ⟨h.1, normalized_insertAll h.2 _ hv⟩
        · exact ⟨normalized_insertAll h.1 _ hv, h.2⟩
    · exact h

omit h in
theorem knownNormalized_annotatedValue (st : Setting) (node : Node) :
    KnownNormalized (st.annotatedValue node) := fun _ hv => normalized_annotatedValue hv

omit h in
theorem knownNormalized_tableValue (st : Setting) (node : Node) :
    KnownNormalized (st.tableValue node) := fun _ hv => normalized_tableValue hv

theorem normalized_visitLocation (node : Node) :
    KnownNormalized (st.visitLocation g node stores).value ∧
      (st.visitLocation g node stores).stores.Both Store.Normalized := by
  have hmerged := Stores.normalized_merged h
  exact ⟨(knownNormalized_tableValue st node).moreSpecific? (hmerged.value? _), hmerged, hmerged⟩

theorem normalized_visitThis (node : Node) :
    KnownNormalized (st.visitThis node stores).value ∧
      (st.visitThis node stores).stores.Both Store.Normalized := by
  have hmerged := Stores.normalized_merged h
  exact ⟨(knownNormalized_annotatedValue st node).moreSpecific? (hmerged.value? _), hmerged,
    hmerged⟩

theorem normalized_visitInstanceOf (node : Node) (operand : NodeId) (referenceType : TreeId)
    (annotated : Bool) :
    KnownNormalized (st.visitInstanceOf g node operand referenceType annotated stores).value ∧
      (st.visitInstanceOf g node operand referenceType annotated stores).stores.Both
        Store.Normalized := by
  have hplain := knownNormalized_annotatedValue st node
  rw [visitInstanceOf]
  split
  · split
    · exact ⟨hplain, h⟩
    · next reference _ =>
      have hrefined : (refineAll stores.merged (reference.qualifiers.toList.map fun q =>
          (st.receiverOf g operand, Value.of (st.receiverOf g operand).ty [q]))).Normalized := by
        refine normalized_refineAll (Stores.normalized_merged h) fun fact hfact => ?_
        obtain ⟨q, -, rfl⟩ := List.mem_map.1 hfact
        exact Value.normalized_of _ [q]
      exact ⟨hplain, hrefined, hrefined⟩
  · exact ⟨hplain, h⟩

include hvalues

theorem normalized_visitEquality (node : Node) (left right : NodeId) (notEqual : Bool) :
    KnownNormalized (st.visitEquality g values node left right notEqual stores).value ∧
      (st.visitEquality g values node left right notEqual stores).stores.Both
        Store.Normalized := by
  refine ⟨knownNormalized_annotatedValue st node, ?_⟩
  refine normalized_strengthen (normalized_strengthen ?_ (hvalues left) _ _ _) (hvalues right) _ _ _
  split
  · exact ⟨h.2, h.1⟩
  · exact h

theorem normalized_visitCase (caseOperand switchTarget switchExpression : NodeId) :
    KnownNormalized
        (st.visitCase g values caseOperand switchTarget switchExpression stores).value ∧
      (st.visitCase g values caseOperand switchTarget switchExpression stores).stores.Both
        Store.Normalized := by
  have hsplit : (Stores.conditional stores.thenStore stores.elseStore).Both Store.Normalized := h
  exact ⟨knownNormalized_none, normalized_strengthen
    (normalized_strengthen hsplit (hvalues caseOperand) _ _ _) (hvalues caseOperand) _ _ _⟩

theorem normalized_visitAssignment (node : Node) (target expression : NodeId) :
    NormalizedResult (st.visitAssignment g values node target expression stores) := by
  have hafter := (Stores.normalized_merged h).assign st.tables.oracle (st.receiverOf g target)
    (hvalues expression)
  exact ⟨hvalues expression, ⟨hafter, hafter⟩,
    normalized_assignmentLog node target _ (hvalues expression) true⟩

theorem normalized_visitInvocation (node : Node) (m : Method) (receiver : NodeId)
    (arguments : List NodeId) :
    NormalizedResult (st.visitInvocation g values node m receiver arguments stores) := by
  have hmerged := Stores.normalized_merged h
  have hvalue := (knownNormalized_tableValue st node).moreSpecific?
    (hmerged.value? (st.receiverOf g node.id))
  have hafter : (stores.merged.afterMethodCall st.tables.oracle (st.receiverOf g node.id)
      (st.config.assumeSideEffectFree || st.tables.isSideEffectFree m)
      (Value.moreSpecific? (st.tableValue node)
        (stores.merged.value? (st.receiverOf g node.id)))).Normalized :=
    normalized_afterMethodCall hmerged _ _ hvalue
  have hobserved : ∀ o ∈ callObservations values m receiver arguments,
      KnownNormalized o.value := by
    intro o ho
    rcases List.mem_append.1 ho with hmem | hmem
    · obtain ⟨index, hindex, rfl⟩ := List.mem_mapIdx.1 hmem
      exact hvalues _
    · split at hmem
      · cases hmem
      · rw [List.mem_singleton.1 hmem]
        exact hvalues receiver
  exact ⟨hvalue, ⟨normalized_assumeAtCall (normalized_assumeAtCall hafter g _ _) g _ _,
      normalized_assumeAtCall (normalized_assumeAtCall hafter g _ _) g _ _⟩,
    (normalized_observe _ _ hobserved).append (Log.normalized_ofDiagnostics _)⟩

theorem normalized_visitCreation (node : Node) (constructor : Method) (arguments : List NodeId) :
    NormalizedResult (st.visitCreation values node constructor arguments stores) := by
  refine ⟨knownNormalized_annotatedValue st node, h, normalized_observe _ _ fun o ho => ?_⟩
  obtain ⟨index, hindex, rfl⟩ := List.mem_mapIdx.1 ho
  exact hvalues _

theorem normalized_visitReturn (node : Node) (result : Option NodeId) (m : Option Method) :
    NormalizedResult (st.visitReturn values node result m stores) := by
  refine ⟨knownNormalized_annotatedValue st node, h, ?_⟩
  cases m with
  | none => exact Log.normalized_empty
  | some m =>
    refine normalized_observe _ _ fun o ho => ?_
    rw [List.mem_singleton.1 ho]
    cases result with
    | none => exact knownNormalized_none
    | some id => exact hvalues id

omit hvalues h in
theorem knownNormalized_conversion (values : NodeValues) (node : Node) (operand : NodeId) (stores : Stores) :
    KnownNormalized (visitConversion values node operand stores).value := by
  intro w hw
  obtain ⟨v, -, hv⟩ := Option.bind_eq_some_iff.1 hw
  exact Value.normalized_of? hv

theorem normalized_visit (node : Node) : NormalizedResult (st.visit g values node stores) := by
  have hplain := knownNormalized_annotatedValue st (g.lambdaBody node)
  have hmerged := Stores.normalized_merged h
  have silent : ∀ {o : Outcome}, KnownNormalized o.value ∧ o.stores.Both Store.Normalized →
      NormalizedResult (o, .empty) := fun ho => ⟨ho.1, ho.2, Log.normalized_empty⟩
  rw [visit]
  generalize g.lambdaBody node = body at hplain ⊢
  rw [visitBody]
  cases body.kind with
  | localVariable x => exact silent (normalized_visitLocation h body)
  | fieldAccess receiver f => exact silent (normalized_visitLocation h body)
  | arrayAccess array index => exact silent (normalized_visitLocation h body)
  | thisLiteral => exact silent (normalized_visitThis h body)
  | className =>
    refine silent ⟨fun v hv => ?_, h⟩
    change (if body.annotatable then body.tree.bind st.tables.valueOfTypeTree else none) = some v
      at hv
    split at hv
    · obtain ⟨tree, -, htree⟩ := Option.bind_eq_some_iff.1 hv
      exact normalized_valueOfTypeTree htree
    · cases hv
  | literal value => exact silent ⟨hplain, h⟩
  | operation name => exact silent ⟨hplain, h⟩
  | ternary condition thenOperand elseOperand =>
    exact silent ⟨Value.knownNormalized_lub? _ _, h⟩
  | conditionalNot operand => exact silent ⟨hplain, h.2, h.1⟩
  | equalTo left right => exact silent (normalized_visitEquality hvalues h body left right false)
  | notEqual left right => exact silent (normalized_visitEquality hvalues h body left right true)
  | assignment target expression =>
    exact normalized_visitAssignment hvalues h body target expression
  | stringConcatenateAssignment target expression =>
    have hafter := hmerged.assign st.tables.oracle (st.receiverOf g target) hplain
    exact ⟨hplain, ⟨hafter, hafter⟩, normalized_assignmentLog body target _ hplain false⟩
  | instanceOf operand referenceType annotated =>
    exact silent (normalized_visitInstanceOf h body operand referenceType annotated)
  | methodInvocation m receiver arguments =>
    exact normalized_visitInvocation hvalues h body m receiver arguments
  | objectCreation constructor arguments =>
    exact normalized_visitCreation hvalues h body constructor arguments
  | returnStatement result m => exact normalized_visitReturn hvalues h body result m
  | lambdaResult result => exact silent ⟨hplain, h⟩
  | switchCase caseOperand switchTarget switchExpression =>
    exact silent (normalized_visitCase hvalues h caseOperand switchTarget switchExpression)
  | wideningConversion operand =>
    exact silent ⟨knownNormalized_conversion values body operand stores, h⟩
  | narrowingConversion operand =>
    exact silent ⟨knownNormalized_conversion values body operand stores, h⟩
  | stringConversion operand => exact silent ⟨hvalues operand, h⟩
  | variableDeclaration x => exact silent ⟨knownNormalized_none, hmerged, hmerged⟩

end Visits

/-! ### Runs -/

private structure Normal (p : Progress) : Prop where
  inputs : ∀ id s, p.inputs.get? id = some s → s.Normalized
  outputs : ∀ id out, p.outputs.get? id = some out → out.Both Store.Normalized
  values : p.values.Normalized
  log : p.log.Normalized

private theorem normal_step {fixed : Option Store} {g : Graph} {config : Config} {initial : Store}
    {p p' : Progress} {id : BlockId} (hinitial : initial.Normalized) (h : Normal p)
    (hstep : (st.engine fixed).step g config initial p id = .ok p') : Normal p' := by
  rcases Engine.step_cases hstep with ⟨rfl, -⟩ | ⟨block, joined, run, hr, rfl⟩
  · exact h
  · have hjoined : joined.Normalized :=
      Graph.joinPredecessors_induct hinitial h.outputs
        (fun s t _ _ => Store.normalized_lub s t) hr.joined_eq
    have hinput : (Engine.widenedInput config p id joined).Normalized := by
      rw [Engine.widenedInput]
      split
      · split
        · exact Store.normalized_lub joined _
        · exact hjoined
      · exact hjoined
    have hrun : run.values.Normalized ∧ run.stores.Both Store.Normalized ∧ run.log.Normalized := by
      refine Engine.runNodes_preserves
        (P := fun r => r.values.Normalized ∧ r.stores.Both Store.Normalized ∧ r.log.Normalized)
        (fun r n _ node _ hr => ?_) ?_ hr.run_eq
      · obtain ⟨hvalue, hstores, hlog⟩ : NormalizedResult (st.visit g r.values node r.stores) :=
          normalized_visit hr.1 hr.2.1 node
        refine ⟨fun other => ?_, hstores, hr.2.2.append hlog⟩
        rw [Engine.afterVisit, FinMap.get?_set]
        split
        · exact hvalue
        · exact hr.1 other
      · exact ⟨h.values, ⟨hinput, hinput⟩, Log.normalized_empty⟩
    refine ⟨fun other s hs => ?_, fun other out hout => ?_, ?_, ?_⟩
    · rw [Engine.settle_inputs] at hs
      split at hs
      · exact Option.some.inj hs ▸ hinput
      · exact h.inputs other s hs
    · rw [Engine.settle_outputs] at hout
      split at hout
      · exact Option.some.inj hout ▸ hrun.2.1
      · exact h.outputs other out hout
    · rw [Engine.settle_values]
      exact hrun.1
    · rw [Engine.settle_log]
      exact h.log.append hrun.2.2

/-- A value is normalized if no two of its qualifiers are of one hierarchy. One that is built from
a list keeps, for each hierarchy in the list, the one listed qualifier below all others of that
hierarchy. Every value in a store, of a node or in an observation of a run is normalized, if the
values are in the store that surrounds the analyzed code. -/
theorem solve_normalized (st : Setting) :
    (∀ v : Value, v.Normalized ↔
      ∀ p q, v.has p = true → v.has q = true → p.hierarchy = q.hierarchy → p = q) ∧
    (∀ ty qualifiers,
      (∀ q ∈ qualifiers, ∃ p, (Value.of ty qualifiers).has p = true ∧
        p.hierarchy = q.hierarchy) ∧
      ∀ p, (Value.of ty qualifiers).has p = true → p ∈ qualifiers ∧
        ∀ q ∈ qualifiers, q.hierarchy = p.hierarchy → p.isSubtype q = true) ∧
    ∀ fixed g config sol, (∀ s, fixed = some s → s.Normalized) →
      (st.engine fixed).solve g config = .ok sol → sol.Normalized := by
  refine ⟨fun v => Value.normalized_iff_unique,
    fun ty qualifiers => ⟨fun q => Value.exists_has_of ty, fun p => Value.has_of.1⟩, ?_⟩
  intro fixed g config sol hfixed hsol
  obtain ⟨initial, log, p, converged, hentry, hiter, rfl⟩ := Engine.solve_eq_ok hsol
  obtain ⟨hinitial, hlog⟩ := normalized_entryStore hfixed hentry
  have hstart : Normal (Engine.start g log) :=
    ⟨fun _ _ hs => (nomatch hs), fun _ _ hout => (nomatch hout), fun _ => knownNormalized_none, hlog⟩
  have hend : Normal p := Engine.iterate_preserves Normal
    (fun p _ rest _ _ hp hstep => normal_step (p := Engine.taken p rest) hinitial
      ⟨hp.inputs, hp.outputs, hp.values, hp.log⟩ hstep)
    (fun _ _ hp => ⟨hp.inputs, hp.outputs, hp.values, hp.log⟩) hstart hiter
  exact ⟨hend.inputs, hend.outputs, hend.values, hend.log⟩

end Setting

namespace RepeatedQualifiers

private def leaf : Ty := .declared "Leaf"

private def item : Variable := ⟨⟨10⟩, "item", .parameter, leaf, none⟩

private def take : Method := ⟨⟨30⟩, "take", .declared "Box", .void, false, false⟩

private def takeAny : Method := ⟨⟨31⟩, "take", .object, .void, false, false⟩

/-- The parameter is declared with two qualifiers for nullness; so is that of the method that is
overridden, which was not built from a list. -/
private def tables : Tables :=
  { Tables.empty with
    trees := [⟨⟨1⟩, none, [.monotonicNonNull, .nonNull, .monotonicNonNull, .interned]⟩]
    declaredVariables := [⟨⟨10⟩, [.nullable, .monotonicNonNull]⟩]
    methods := [⟨⟨30⟩, [], false, false,
      [⟨takeAny, [.nonNull, .nullable], [⟨leaf, .ofList [.nullable, .nonNull]⟩]⟩]⟩] }

private def setting : Setting := .ofTables tables .empty { Config.default with infer := true }

private def graph : Graph where
  code := .method take ⟨0⟩ ⟨⟨40⟩, .declared "Box", []⟩
  parameters := [item]
  nodes := [⟨⟨0⟩, leaf, some ⟨1⟩, true, .localVariable item⟩]
  blocks := [⟨⟨0⟩, [⟨0⟩], some .leave, [], [⟨1⟩]⟩, ⟨⟨1⟩, [], none, [⟨0⟩], []⟩]
  entry := ⟨0⟩
  exit := ⟨1⟩

private def surroundings : Store :=
  (Store.empty true).put (.className leaf) (some (.of leaf [.nonNull, .nullable]))

private def firstObserved (sol : Solution) : Option Value :=
  sol.log.sightings.head?.bind (·.observation.value)

theorem take_solution_normalized :
    surroundings.Normalized ∧
    ∃ sol, (setting.engine (some surroundings)).solve graph setting.config = .ok sol ∧
      sol.Normalized ∧ sol.values.get? ⟨0⟩ = some (.of leaf [.nonNull, .interned]) ∧
      firstObserved sol = some (.of leaf [.nonNull]) := by
  have hfixed : surroundings.Normalized :=
    (Store.normalized_empty true).put _ (Value.normalized_of leaf [.nonNull, .nullable])
  have horder : graph.reversePostorder = [⟨0⟩, ⟨1⟩] := by cbv
  have hrun : ((setting.engine (some surroundings)).solve graph setting.config).toOption.any
      (fun sol => decide (sol.values.get? ⟨0⟩ = some (.of leaf [.nonNull, .interned])) &&
        decide (firstObserved sol = some (.of leaf [.nonNull]))) = true := by
    simp only [Engine.solve, Engine.start, horder]
    decide
  obtain ⟨sol, hsol, hseen⟩ := Solution.exists_of_any hrun
  obtain ⟨hvalue, hobserved⟩ := Bool.and_eq_true_iff.1 hseen
  have hnormalized : sol.Normalized :=
    (Setting.solve_normalized setting).2.2 (some surroundings) graph setting.config sol
      (fun s hs => by cases hs; exact hfixed) hsol
  exact ⟨hfixed, sol, hsol, hnormalized, of_decide_eq_true hvalue, of_decide_eq_true hobserved⟩

end RepeatedQualifiers

end FlowTyping
