import FlowTyping.Proofs.Fixpoint.LeastSolution
import FlowTyping.Proofs.Graph.LambdaBody

/-!
# What an analysis reports

A call whose contracts cannot be read is reported when it is visited. What a visit of a node reports
depends on the node alone, so what a run reports depends only on which blocks it computes: all
broken contracts of the calls in these blocks, whatever the stores were, and nothing else.
-/

namespace FlowTyping

/-- The reader of path expressions fails with a fault of the expression without the blanks around
it. -/
theorem pathReader_eq_error {fields : List Field} {context : ExpressionContext}
    {expression : String} {e : ParseError} (h : pathReader fields context expression = .error e) :
    ∃ fault, e = .path (String.ofList (Text.trim expression.toList)) fault := by
  rw [pathReader] at h
  cases hpath : Path.ofText? (Text.trim expression.toList) with
  | none =>
    simp only [hpath] at h
    cases h
    exact ⟨_, rfl⟩
  | some path =>
    simp only [hpath] at h
    cases hresolve : path.resolve fields context with
    | ok r => rw [hresolve] at h; cases h
    | error fault =>
      rw [hresolve] at h
      cases h
      exact ⟨fault, rfl⟩

/-- The call that a node amounts to, looking through lambda results. -/
def Graph.AmountsToCall (g : Graph) (node : Node) (call : CallSite) : Prop :=
  ∃ path target, g.LeadsTo node path target ∧
    target.kind = .methodInvocation call.method call.receiver call.arguments ∧
    target.tree = call.tree

/-- A contract of the method of a call, no precondition, cannot be read at the call. -/
structure Setting.Breaks (st : Setting) (g : Graph) (call : CallSite) (c : Contract)
    (e : ParseError) : Prop where
  listed : c ∈ st.tables.contracts call.method
  kind_ne : c.kind ≠ .precondition
  unreadable : st.reader (.ofCall g st.tables.isDeterministic call) c.expression = .error e

/-- What there is to report about a node. -/
inductive Setting.Reports (st : Setting) (g : Graph) (node : Node) : Diagnostic → Prop
  | path {call : CallSite} {c : Contract} {expression : String} {fault : PathFault}
      (hcall : g.AmountsToCall node call) (hbreaks : st.Breaks g call c (.path expression fault)) :
      Reports st g node ⟨call.tree, "flowexpr.parse.error.postcondition",
        [call.method.name, expression, fault.message]⟩
  | diagnostic {call : CallSite} {c : Contract} {key : String} {args : List String}
      (hcall : g.AmountsToCall node call) (hbreaks : st.Breaks g call c (.diagnostic key args)) :
      Reports st g node ⟨call.tree, key, args⟩

namespace Setting

variable {st : Setting} {g : Graph} {node : Node} {call : CallSite} {d : Diagnostic}

theorem reports_iff : st.Reports g node d ↔
    ∃ call c e, g.AmountsToCall node call ∧ st.Breaks g call c e ∧
      d = contractDiagnostic call e := by
  constructor
  · rintro (⟨hcall, hbreaks⟩ | ⟨hcall, hbreaks⟩)
    · exact ⟨_, _, _, hcall, hbreaks, rfl⟩
    · exact ⟨_, _, _, hcall, hbreaks, rfl⟩
  · rintro ⟨call, c, e, hcall, hbreaks, rfl⟩
    cases e with
    | path expression fault => exact .path hcall hbreaks
    | diagnostic key args => exact .diagnostic hcall hbreaks

/-! ### One visit -/

theorem mem_contractDiagnostics {cs : List Contract} :
    d ∈ st.contractDiagnostics g call cs ↔
      ∃ c ∈ cs, ∃ e, st.reader (.ofCall g st.tables.isDeterministic call) c.expression = .error e ∧
        d = contractDiagnostic call e := by
  rw [contractDiagnostics, List.mem_filterMap]
  refine exists_congr fun c => and_congr_right fun _ => ?_
  rw [contractFact]
  cases st.reader (.ofCall g st.tables.isDeterministic call) c.expression with
  | ok r => simp
  | error e => simp [eq_comm]

theorem mem_callDiagnostics :
    d ∈ st.postconditionDiagnostics g call ++ st.conditionalDiagnostics g call ↔
      ∃ c e, st.Breaks g call c e ∧ d = contractDiagnostic call e := by
  rw [List.mem_append, postconditionDiagnostics, conditionalDiagnostics, mem_contractDiagnostics,
    mem_contractDiagnostics]
  constructor
  · rintro (⟨c, hc, e, he, rfl⟩ | ⟨c, hc, e, he, rfl⟩)
    all_goals
      obtain ⟨hlisted, hkind⟩ := List.mem_filter.1 hc
      refine ⟨c, e, ⟨hlisted, fun hpre => ?_, he⟩, rfl⟩
      simp [hpre] at hkind
  · rintro ⟨c, e, ⟨hlisted, hkind, he⟩, rfl⟩
    cases hk : c.kind with
    | precondition => exact absurd hk hkind
    | postcondition => exact Or.inl ⟨c, List.mem_filter.2 ⟨hlisted, by simp [hk]⟩, e, he, rfl⟩
    | conditionalPostcondition result =>
      exact Or.inr ⟨c, List.mem_filter.2 ⟨hlisted, by simp [hk]⟩, e, he, rfl⟩

theorem diagnostics_observe (tree : Option TreeId) (element : ElementId)
    (os : List Observation) : (st.observe tree element os).diagnostics = [] := by
  rw [observe]
  split <;> rfl

theorem diagnostics_assignmentLog (target : NodeId) (r : Receiver) (v : Option Value)
    (watchesParameters : Bool) :
    (st.assignmentLog g node target r v watchesParameters).diagnostics = [] := by
  unfold assignmentLog
  repeat' split
  all_goals first | rfl | exact diagnostics_observe _ _ _

/-- Of the kinds of expressions only calls report. -/
theorem mem_visitBody_diagnostics {values : NodeValues} {stores : Stores} :
    d ∈ (st.visitBody g values node stores).2.diagnostics ↔
      ∃ m receiver arguments, node.kind = .methodInvocation m receiver arguments ∧
        ∃ c e, st.Breaks g ⟨m, receiver, arguments, node.tree⟩ c e ∧
          d = contractDiagnostic ⟨m, receiver, arguments, node.tree⟩ e := by
  unfold visitBody
  cases hkind : node.kind with
  | methodInvocation m receiver arguments =>
    have hlog : (st.visitInvocation g values node m receiver arguments stores).2.diagnostics =
        (st.observe node.tree m.id (callObservations values m receiver arguments)).diagnostics ++
          (st.postconditionDiagnostics g ⟨m, receiver, arguments, node.tree⟩ ++
            st.conditionalDiagnostics g ⟨m, receiver, arguments, node.tree⟩) := rfl
    simp only [hlog, diagnostics_observe, List.nil_append, mem_callDiagnostics]
    constructor
    · exact fun h => ⟨m, receiver, arguments, rfl, h⟩
    · rintro ⟨m', receiver', arguments', heq, h⟩
      cases heq
      exact h
  | assignment target expression =>
    simp [visitAssignment, diagnostics_assignmentLog]
  | stringConcatenateAssignment target expression =>
    simp [visitConcatenation, diagnostics_assignmentLog]
  | objectCreation constructor arguments => simp [visitCreation, diagnostics_observe]
  | returnStatement result m => cases m <;> simp [visitReturn, diagnostics_observe, Log.empty]
  | _ => simp [Log.empty]

/-- A visit reports what there is to report about the node, whatever the values and stores. -/
theorem mem_visit_diagnostics {values : NodeValues} {stores : Stores} :
    d ∈ (st.visit g values node stores).2.diagnostics ↔ st.Reports g node d := by
  rw [visit, mem_visitBody_diagnostics, reports_iff]
  constructor
  · rintro ⟨m, receiver, arguments, hkind, c, e, hbreaks, rfl⟩
    have hfinal : ∀ id, (g.lambdaBody node).kind ≠ .lambdaResult id := by simp [hkind]
    obtain ⟨path, hpath⟩ := (Graph.lambdaBody_eq_iff hfinal).1 rfl
    exact ⟨_, c, e, ⟨path, _, hpath, hkind, rfl⟩, hbreaks, rfl⟩
  · rintro ⟨call, c, e, ⟨path, target, hpath, hkind, htree⟩, hbreaks, rfl⟩
    have hbody : g.lambdaBody node = target :=
      (Graph.lambdaBody_eq_iff (by simp [hkind])).2 ⟨path, hpath⟩
    refine ⟨call.method, call.receiver, call.arguments, hbody ▸ hkind, c, e, ?_⟩
    rw [hbody, htree]
    exact ⟨hbreaks, rfl⟩

theorem diagnostics_entryStore {enclosing : Option Store} {code : Code}
    {parameters : List Variable} {s : Store} {log : Log}
    (h : st.entryStore enclosing code parameters = .ok (s, log)) : log.diagnostics = [] := by
  cases code with
  | method m tree cls => cases h; exact diagnostics_observe _ _ _
  | lambda tree => cases enclosing <;> cases h; rfl
  | fragment tree => cases h; rfl

/-! ### The whole run -/

/-- A node with something to report stands in a block with an output. -/
def ReportsIn (st : Setting) (g : Graph) (outputs : FinMap BlockId Stores) (d : Diagnostic) :
    Prop :=
  ∃ id block n node, (outputs.get? id).isSome ∧ g.block? id = some block ∧ n ∈ block.nodes ∧
    g.node? n = some node ∧ st.Reports g node d

theorem mem_runNodes_diagnostics {enclosing : Option Store} {ids : List NodeId}
    {run run' : BlockRun} (h : (st.engine enclosing).runNodes g run ids = .ok run') :
    d ∈ run'.log.diagnostics ↔ d ∈ run.log.diagnostics ∨
      ∃ n ∈ ids, ∃ node, g.node? n = some node ∧ st.Reports g node d := by
  induction ids generalizing run with
  | nil => simp [Engine.runNodes_nil_eq_ok.1 h]
  | cons id ids ih =>
    obtain ⟨node, hnode, h⟩ := Engine.runNodes_cons_eq_ok.1 h
    have hone : d ∈ ((st.engine enclosing).afterVisit g run id node).log.diagnostics ↔
        d ∈ run.log.diagnostics ∨ st.Reports g node d :=
      List.mem_append.trans (or_congr_right mem_visit_diagnostics)
    rw [ih h, hone, or_assoc]
    simp [hnode]

/-- After every turn the log holds what there is to report about the blocks with an output. -/
theorem diagnostics_turn {enclosing : Option Store} {config : Config} {initial : Store}
    {p p' : Progress} {id : BlockId}
    (h : ∀ d, d ∈ p.log.diagnostics ↔ st.ReportsIn g p.outputs d)
    (hstep : (st.engine enclosing).step g config initial p id = .ok p') :
    ∀ d, d ∈ p'.log.diagnostics ↔ st.ReportsIn g p'.outputs d := by
  rcases Engine.step_cases hstep with ⟨rfl, -⟩ | ⟨block, joined, run, hr, rfl⟩
  · exact h
  · intro d
    have hrun : d ∈ run.log.diagnostics ↔
        ∃ n ∈ block.nodes, ∃ node, g.node? n = some node ∧ st.Reports g node d := by
      rw [mem_runNodes_diagnostics hr.run_eq]
      simp [Log.empty]
    have happend : d ∈ (p.log ++ run.log).diagnostics ↔
        d ∈ p.log.diagnostics ∨ d ∈ run.log.diagnostics := List.mem_append
    rw [Engine.settle_log, happend, h d, hrun, ReportsIn, ReportsIn]
    simp only [Engine.isSome_settle_outputs_iff]
    constructor
    · rintro (⟨other, source, n, node, hout, hrest⟩ | ⟨n, hn, node, hnode, hd⟩)
      · exact ⟨other, source, n, node, Or.inr hout, hrest⟩
      · exact ⟨id, block, n, node, Or.inl rfl, hr.block_eq, hn, hnode, hd⟩
    · rintro ⟨other, source, n, node, rfl | hout, hsource, hn, hrest⟩
      · rw [hr.block_eq] at hsource
        cases hsource
        exact Or.inr ⟨n, hn, node, hrest⟩
      · exact Or.inl ⟨other, source, n, node, hout, hsource, hn, hrest⟩

/-- An analysis reports exactly what there is to report about the nodes of the blocks it computes.
When it converges these are the blocks that can be reached from the entry. Faults of path
expressions are about the expression without the blanks around it. -/
theorem analyze_reports {enclosing : Option Store} {sol : Solution}
    (h : st.analyze g enclosing = .ok sol) :
    (∀ d, d ∈ sol.log.diagnostics ↔
      ∃ id block n node, (sol.outputs.get? id).isSome ∧ g.block? id = some block ∧
        n ∈ block.nodes ∧ g.node? n = some node ∧ st.Reports g node d) ∧
    (g.Mirrored → g.Numbered → sol.converged = true →
      ∀ id, (sol.outputs.get? id).isSome ↔ g.Reachable id ∧ (g.block? id).isSome) ∧
    ∀ fields, st.reader = pathReader fields → ∀ context expression e,
      st.reader context expression = .error e →
        ∃ fault, e = .path (String.ofList (Text.trim expression.toList)) fault := by
  obtain ⟨initial, log, p, converged, hentry, hiter, rfl⟩ := Engine.solve_eq_ok h
  refine ⟨?_, fun hg hn hc id => ?_, fun fields hreader context expression e he => ?_⟩
  · refine Engine.iterate_preserves
      (fun p => ∀ d, d ∈ p.log.diagnostics ↔ st.ReportsIn g p.outputs d)
      (fun p id rest p' _ hp hstep => diagnostics_turn (p := Engine.taken p rest) hp hstep)
      (fun p rest hp => hp) (fun d => ?_) hiter
    simp [Engine.start, diagnostics_entryStore hentry, ReportsIn]
  · obtain rfl : converged = true := hc
    obtain ⟨hs, hnil⟩ := Engine.settled_of_converged hg hiter
    have hanswered : Engine.Answered g initial p :=
      (Engine.iterate_converged (Engine.Answered g initial)
        (fun _ _ _ _ hp hinv hstep => hinv.turn hg hp hstep) (Engine.answered_start hn log)
        hiter).1
    exact ⟨hs.reachable_of_isSome, fun hid => hanswered.isSome_outputs hg hn hnil hid.1 hid.2⟩
  · exact pathReader_eq_error (hreader ▸ he)

end Setting

namespace BrokenContracts

private def box : Ty := .declared "Box"

private def unlock : Method := ⟨⟨30⟩, "unlock", box, .void, false, false⟩

private def lock : Method := ⟨⟨31⟩, "lock", box, .void, false, false⟩

private def lid (kind : ContractKind) : Contract := ⟨kind, " lid() ", .nonNull⟩

/-- The contracts are about a call, which no path expression denotes. -/
private def setting : Setting :=
  .ofTables { Tables.empty with
    methods := [⟨⟨30⟩, [lid .precondition, lid .postcondition], false, false, []⟩,
      ⟨⟨31⟩, [lid (.conditionalPostcondition true)], false, false, []⟩] } .empty .default

private def unlockCall : Node := ⟨⟨1⟩, .void, some ⟨7⟩, true, .methodInvocation unlock ⟨0⟩ []⟩

private def lockCall : Node := ⟨⟨3⟩, .void, some ⟨8⟩, true, .methodInvocation lock ⟨0⟩ []⟩

/-- `() -> this.unlock()`, and a call of `lock` that nothing leads to. -/
private def graph : Graph where
  code := .fragment ⟨0⟩
  parameters := []
  nodes := [⟨⟨0⟩, box, none, true, .thisLiteral⟩, unlockCall,
    ⟨⟨2⟩, .void, none, true, .lambdaResult ⟨1⟩⟩, lockCall]
  blocks := [⟨⟨0⟩, [⟨0⟩, ⟨2⟩], some .leave, [], [⟨1⟩]⟩, ⟨⟨1⟩, [], none, [⟨0⟩], []⟩,
    ⟨⟨2⟩, [⟨3⟩], some .leave, [], []⟩]
  entry := ⟨0⟩
  exit := ⟨1⟩

/-- The call of `unlock` stands in no block. It is reported for its postcondition, at its own tree,
since the lambda result that is visited amounts to it. The call of `lock` is not. -/
theorem unlock_reported :
    graph.Mirrored ∧ graph.Numbered ∧ ∃ sol, setting.analyze graph none = .ok sol ∧
      sol.converged = true ∧ (sol.outputs.get? ⟨0⟩).isSome ∧
      ⟨some ⟨7⟩, "flowexpr.parse.error.postcondition",
        ["unlock", "lid()", "not a path expression"]⟩ ∈ sol.log.diagnostics ∧
      ∀ d ∈ sol.log.diagnostics, d.tree ≠ lockCall.tree := by
  have hg : graph.Mirrored := by decide
  have hn : graph.Numbered := by
    rintro ⟨n⟩ block hblock
    rcases n with _ | _ | _ | n <;> cases hblock <;> rfl
  have horder : graph.reversePostorder = [⟨0⟩, ⟨1⟩] := by cbv
  have hrun : (setting.analyze graph none).toOption.any (fun sol =>
      decide (sol.converged = true ∧ ∀ d ∈ sol.log.diagnostics, d.tree ≠ lockCall.tree)) =
        true := by
    simp only [Setting.analyze, Engine.solve, Engine.start, horder]
    decide
  obtain ⟨sol, hsol, hchecks⟩ := Solution.exists_of_any hrun
  obtain ⟨hc, hsilent⟩ := of_decide_eq_true hchecks
  obtain ⟨hreports, hcomputed, -⟩ := Setting.analyze_reports hsol
  have hentry : (sol.outputs.get? ⟨0⟩).isSome :=
    (hcomputed hg hn hc ⟨0⟩).2 ⟨.entry, rfl⟩
  have hcall : graph.AmountsToCall ⟨⟨2⟩, .void, none, true, .lambdaResult ⟨1⟩⟩
      ⟨unlock, ⟨0⟩, [], some ⟨7⟩⟩ :=
    ⟨[⟨1⟩], unlockCall, .through rfl rfl (.here unlockCall), rfl, rfl⟩
  have hbreaks : setting.Breaks graph ⟨unlock, ⟨0⟩, [], some ⟨7⟩⟩ (lid .postcondition)
      (.path "lid()" .notAPath) := ⟨by decide, by decide, rfl⟩
  exact ⟨hg, hn, sol, hsol, hc, hentry, (hreports _).2
    ⟨⟨0⟩, _, ⟨2⟩, _, hentry, rfl, by decide, rfl, .path hcall hbreaks⟩, hsilent⟩

end BrokenContracts

end FlowTyping
