import FlowTyping.Proofs.Fixpoint.Settled
import FlowTyping.Proofs.Store.WellFormed

/-!
# Invariants of all stores of a run

A run changes stores by the operations of stores only. So what every operation preserves holds of
all stores of a run, given that it holds of the store from which the entry store is built:
`Setting.solve_preserves`. In particular all stores of a run are well-formed and have the
semantics of the initial store.
-/

namespace FlowTyping

def Stores.Both (P : Store → Prop) (s : Stores) : Prop := P s.thenStore ∧ P s.elseStore

namespace Graph

variable {g : Graph} {outputs : FinMap BlockId Stores} {initial joined : Store} {block : Block}

/-- What holds of the stores that flow into a block, and of joins, holds of what is joined. -/
theorem joinPredecessors_induct {P : Store → Prop} (hinitial : P initial)
    (houtputs : ∀ id out, outputs.get? id = some out → out.Both P)
    (hlub : ∀ s t, P s → P t → P (s.lub t))
    (h : g.joinPredecessors outputs initial block = some joined) : P joined := by
  have hmerged : ∀ out : Stores, out.Both P → P out.merged := by
    intro out hout
    cases out with
    | regular s => exact hout.1
    | conditional t e => exact hlub t e hout.1 hout.2
  have hincoming : ∀ s ∈ g.incoming outputs block, P s := by
    intro s hs
    obtain ⟨q, -, out, source, hout, -, rfl⟩ := mem_incoming.1 hs
    have hboth := houtputs q out hout
    rw [edgeStore_eq]
    split
    · split
      · exact hmerged out hboth
      · split
        · exact hboth.1
        · exact hboth.2
    · exact hmerged out hboth
  rw [joinPredecessors] at h
  split at h
  · cases h
    exact List.foldlRecOn _ _ hinitial fun s hs t ht => hlub s t hs (hincoming t ht)
  · cases hin : g.incoming outputs block with
    | nil => simp [hin] at h
    | cons s rest =>
      simp only [hin, Option.some.injEq] at h
      rw [hin] at hincoming
      rw [← h]
      exact List.foldlRecOn _ _ (hincoming s List.mem_cons_self) fun s hs t ht =>
        hlub s t hs (hincoming t (List.mem_cons_of_mem _ ht))

end Graph

namespace Store.Closed

variable {oracle : StoreOracle} {P : Store → Prop} (hP : Closed oracle P)

include hP

theorem merged {stores : Stores} (h : stores.Both P) : P stores.merged := by
  cases stores with
  | regular s => exact h.1
  | conditional t e => exact hP t (.lub e) h.1

theorem insertAll {s : Store} (h : P s) (receivers : List Receiver) (v : Value) :
    P (Setting.insertAll s receivers v) :=
  List.foldlRecOn receivers _ h fun s hs r _ => hP s (.insert r v) hs

theorem refineAll {s : Store} (h : P s) (facts : List (Receiver × Value)) :
    P (Setting.refineAll s facts) :=
  List.foldlRecOn facts _ h fun s hs fact _ => hP s (.refine fact.1 fact.2) hs

theorem joinPredecessors {g : Graph} {outputs : FinMap BlockId Stores} {initial joined : Store}
    {block : Block} (hinitial : P initial)
    (houtputs : ∀ id out, outputs.get? id = some out → out.Both P)
    (h : g.joinPredecessors outputs initial block = some joined) : P joined :=
  Graph.joinPredecessors_induct hinitial houtputs (fun s t hs _ => hP s (.lub t) hs) h

end Store.Closed

namespace Setting

variable {st : Setting} {P : Store → Prop} (hP : Store.Closed st.tables.oracle P)

include hP

/-! ### Entry stores -/

theorem addParameters_preserves {s : Store} (h : P s) (parameters : List Variable) :
    P (st.addParameters parameters s) :=
  List.foldlRecOn parameters _ h fun s hs x _ =>
    hP s (.setParameter x (st.tables.valueOfVariable x)) hs

theorem addInitializers_preserves {s : Store} (h : P s) (cls : ClassInfo) (m : Method) :
    P (st.addInitializers cls m s) :=
  List.foldlRecOn _ _ h fun s hs entry _ => by
    split
    · exact hP s (.insert _ entry.2) hs
    · exact hs

theorem addDeclaredFields_preserves {s : Store} (h : P s) (cls : ClassInfo) (m : Method) :
    P (st.addDeclaredFields cls m s) := by
  rw [addDeclaredFields]
  split
  · exact h
  · refine List.foldlRecOn _ _ h fun s hs d _ => ?_
    cases st.declaredFieldValue? m d with
    | none => exact hs
    | some v => exact hP s (.refine _ v) hs

theorem addFinalLocals_preserves {s : Store} (h : P s) (element : ElementId) :
    P (st.addFinalLocals element s) := by
  refine List.foldlRecOn _ _ h fun s hs entry _ => ?_
  cases entry.1.declaredIn with
  | none => exact hs
  | some owner =>
    dsimp only
    split
    · exact hP s (.insert _ entry.2) hs
    · exact hs

theorem entryStore_preserves {fixed : Option Store} (h : P (st.fixedOrEmpty fixed)) {code : Code}
    {parameters : List Variable} {initial : Store} {log : Log}
    (hentry : st.entryStore fixed code parameters = .ok (initial, log)) : P initial := by
  cases code with
  | method m tree cls =>
    cases hentry
    exact addFinalLocals_preserves hP (addDeclaredFields_preserves hP (addInitializers_preserves hP
      (hP.refineAll (addParameters_preserves hP h parameters) _) cls m) cls m) m.id
  | lambda tree =>
    cases fixed with
    | none => cases hentry
    | some enclosing =>
      cases hentry
      have hseeded := addParameters_preserves hP (hP enclosing .withoutTransient h) parameters
      rw [lambdaStore, Store.mapFields_eq]
      refine hP _ (.mapFields _) ?_
      split
      · exact addFinalLocals_preserves hP hseeded _
      · exact hseeded
  | fragment tree =>
    cases hentry
    exact h

/-! ### Visits -/

theorem strengthen_preserves {stores : Stores} (h : stores.Both P) (g : Graph)
    (first : Option Value) (second : NodeId) (secondValue : Option Value) (notEqual : Bool) :
    (st.strengthen g first second secondValue notEqual stores).Both P := by
  unfold strengthen
  split
  · exact h
  · split
    · split
      · exact h
      · split
        · exact ⟨h.1, hP.insertAll h.2 _ _⟩
        · exact ⟨hP.insertAll h.1 _ _, h.2⟩
    · exact h

theorem visitEquality_preserves {stores : Stores} (h : stores.Both P) (g : Graph)
    (values : NodeValues) (node : Node) (left right : NodeId) (notEqual : Bool) :
    (st.visitEquality g values node left right notEqual stores).stores.Both P := by
  have hsplit : (if (st.visitPlain node stores).stores.isConditional &&
      (g.isBooleanLiteral left notEqual || g.isBooleanLiteral right notEqual) then
      (st.visitPlain node stores).stores.swap else (st.visitPlain node stores).stores).Both P := by
    split
    · exact ⟨h.2, h.1⟩
    · exact h
  exact strengthen_preserves hP (strengthen_preserves hP hsplit g _ _ _ _) g _ _ _ _

theorem visitInstanceOf_preserves {stores : Stores} (h : stores.Both P) (g : Graph) (node : Node)
    (operand : NodeId) (referenceType : TreeId) (annotated : Bool) :
    (st.visitInstanceOf g node operand referenceType annotated stores).stores.Both P := by
  rw [visitInstanceOf]
  split
  · split
    · exact h
    · have hrefined := hP.refineAll (hP.merged h)
      exact ⟨hrefined _, hrefined _⟩
  · exact h

theorem visitInvocation_preserves {stores : Stores} (h : stores.Both P) (g : Graph)
    (values : NodeValues) (node : Node) (m : Method) (receiver : NodeId)
    (arguments : List NodeId) :
    (st.visitInvocation g values node m receiver arguments stores).1.stores.Both P := by
  have hafter : ∀ r pure v, P (stores.merged.afterMethodCall st.tables.oracle r pure v) :=
    fun r pure v => hP _ (.call r pure v) (hP.merged h)
  exact ⟨hP.refineAll (hP.refineAll (hafter _ _ _) _) _,
    hP.refineAll (hP.refineAll (hafter _ _ _) _) _⟩

theorem visit_preserves {stores : Stores} (h : stores.Both P) (g : Graph) (values : NodeValues)
    (node : Node) : (st.visit g values node stores).1.stores.Both P := by
  have hmerged := hP.merged h
  have hassign : ∀ r v, P (stores.merged.assign st.tables.oracle r v) :=
    fun r v => hP _ (.assign r v) hmerged
  rw [visit]
  generalize g.lambdaBody node = body
  rw [visitBody]
  cases body.kind with
  | localVariable x => exact ⟨hmerged, hmerged⟩
  | fieldAccess receiver f => exact ⟨hmerged, hmerged⟩
  | arrayAccess array index => exact ⟨hmerged, hmerged⟩
  | thisLiteral => exact ⟨hmerged, hmerged⟩
  | className => exact h
  | literal value => exact h
  | operation name => exact h
  | ternary condition thenOperand elseOperand => exact h
  | conditionalNot operand => exact ⟨h.2, h.1⟩
  | equalTo left right => exact visitEquality_preserves hP h g values body left right false
  | notEqual left right => exact visitEquality_preserves hP h g values body left right true
  | assignment target expression => exact ⟨hassign _ _, hassign _ _⟩
  | stringConcatenateAssignment target expression => exact ⟨hassign _ _, hassign _ _⟩
  | instanceOf operand referenceType annotated =>
    exact visitInstanceOf_preserves hP h g body operand referenceType annotated
  | methodInvocation m receiver arguments =>
    exact visitInvocation_preserves hP h g values body m receiver arguments
  | objectCreation constructor arguments => exact h
  | returnStatement result m => exact h
  | lambdaResult result => exact h
  | switchCase caseOperand switchTarget switchExpression =>
    have hsplit : (Stores.conditional stores.thenStore stores.elseStore).Both P := h
    exact strengthen_preserves hP (strengthen_preserves hP hsplit g _ _ _ _) g _ _ _ _
  | wideningConversion operand => exact h
  | narrowingConversion operand => exact h
  | stringConversion operand => exact h
  | variableDeclaration x => exact ⟨hmerged, hmerged⟩

/-! ### Runs -/

private def Holds (P : Store → Prop) (p : Progress) : Prop :=
  (∀ id s, p.inputs.get? id = some s → P s) ∧
    ∀ id out, p.outputs.get? id = some out → out.Both P

private theorem holds_step {fixed : Option Store} {g : Graph} {config : Config} {initial : Store}
    {p p' : Progress} {id : BlockId} (hinitial : P initial) (h : Holds P p)
    (hstep : (st.engine fixed).step g config initial p id = .ok p') : Holds P p' := by
  rcases Engine.step_cases hstep with ⟨rfl, -⟩ | ⟨block, joined, run, hr, rfl⟩
  · exact h
  · have hjoined : P joined := hP.joinPredecessors hinitial h.2 hr.joined_eq
    have hinput : P (Engine.widenedInput config p id joined) := by
      rw [Engine.widenedInput]
      split
      · split
        · exact hP _ (.widen _) hjoined
        · exact hjoined
      · exact hjoined
    -- All three stores come from the joined one, by operations only.
    have hrun : run.stores.Both P := by
      refine Engine.runNodes_preserves (P := fun r => r.stores.Both P)
        (fun r n _ node _ hstores => ?_) ?_ hr.run_eq
      · exact visit_preserves hP hstores g r.values node
      · exact ⟨hinput, hinput⟩
    refine ⟨fun other s hs => ?_, fun other out hout => ?_⟩
    · rw [Engine.settle_inputs] at hs
      split at hs
      · cases hs
        exact hinput
      · exact h.1 other s hs
    · rw [Engine.settle_outputs] at hout
      split at hout
      · cases hout
        exact hrun
      · exact h.2 other out hout

/-- What every operation preserves holds of all stores of a run if it holds of the store from which
the entry store is built. -/
theorem solve_preserves {fixed : Option Store} (h : P (st.fixedOrEmpty fixed)) {g : Graph}
    {config : Config} {sol : Solution} (hsol : (st.engine fixed).solve g config = .ok sol) :
    (∀ id s, sol.inputs.get? id = some s → P s) ∧
      ∀ id out, sol.outputs.get? id = some out → out.Both P := by
  obtain ⟨initial, log, p, converged, hentry, hiter, rfl⟩ := Engine.solve_eq_ok hsol
  have hinitial : P initial := entryStore_preserves hP h hentry
  have hstart : Holds P (Engine.start g log) :=
    ⟨fun _ _ hs => (nomatch hs), fun _ _ hout => (nomatch hout)⟩
  exact Engine.iterate_preserves (Holds P)
    (fun p _ rest _ _ hp hstep => holds_step hP (p := Engine.taken p rest) hinitial hp hstep)
    (fun _ _ hp => hp) hstart hiter

end Setting

namespace CapturedField

open MonotonicField

private def element : Receiver := .array box (.this box) (.literal (.primitive .int) (.integer 0))

private def setting : Setting := .ofTables tables .empty .concurrent

/-- What is known after `this.value = 1; this[0] = 1`. -/
private def surroundings : Store :=
  StoreOp.run setting.tables.oracle
    [.assign thisValue (some (.of value.ty [.nonNull])),
      .assign element (some (.of box [.nonNull]))] (.empty false)

/-- A lambda with the body `this.value = 1`. -/
private def body : Graph where
  code := .lambda ⟨0⟩
  parameters := []
  nodes := [
    ⟨⟨0⟩, box, none, true, .thisLiteral⟩, ⟨⟨1⟩, value.ty, none, true, .fieldAccess ⟨0⟩ value⟩,
    ⟨⟨2⟩, value.ty, some ⟨1⟩, true, .literal (.integer 1)⟩,
    ⟨⟨3⟩, value.ty, none, true, .assignment ⟨1⟩ ⟨2⟩⟩]
  blocks := [⟨⟨0⟩, [⟨0⟩, ⟨1⟩, ⟨2⟩, ⟨3⟩], some (.goto ⟨1⟩), [], [⟨1⟩]⟩, ⟨⟨1⟩, [], none, [⟨0⟩], []⟩]
  entry := ⟨0⟩
  exit := ⟨1⟩

end CapturedField

end FlowTyping
