import FlowTyping.Proofs.Fixpoint.Settled

/-!
# Reported entry stores

The store reported on entry to a block is kept from the last run that changed what the block
sends on. Later runs may have started from another store: the reported store and the join of what
the predecessors send in the end have the same effect on the block, and they agree wherever the
block tells different stores apart. A block that overwrites a fact does not, and there the
reported store can claim more than holds.
-/

namespace FlowTyping

namespace Engine

/-- Running the block from either store leaves the same stores and the same values of its own
nodes. -/
def SameEffect (engine : Engine) (g : Graph) (id : BlockId) (block : Block) (s t : Store) :
    Prop :=
  ∃ values values' run run', engine.runBlock g values block.nodes s = .ok run ∧
    engine.runBlock g values' block.nodes t = .ok run' ∧
    run.stores.agrees run'.stores = true ∧
    ∀ n ∈ block.nodes, g.HeldOnlyBy id n → run.values.get? n = run'.values.get? n

/-- Stores with the same effect on the block agree. -/
def TellsApart (engine : Engine) (g : Graph) (id : BlockId) (block : Block) : Prop :=
  ∀ s t, engine.SameEffect g id block s t → s.agrees t = true

end Engine

/-- Whether a visit of such a node hands on a single store as it is. -/
def NodeKind.keepsStore : NodeKind → Bool
  | conditionalNot _ => false
  | equalTo _ _ => false
  | notEqual _ _ => false
  | assignment _ _ => false
  | stringConcatenateAssignment _ _ => false
  | instanceOf _ _ annotated => !annotated
  | methodInvocation _ _ _ => false
  | switchCase _ _ _ => false
  | _ => true

namespace Setting

variable {st : Setting} {g : Graph}

theorem visit_of_keepsStore {node : Node} (h : (g.lambdaBody node).kind.keepsStore = true)
    (values : NodeValues) (s : Store) :
    (st.visit g values node (.regular s)).1.stores = .regular s := by
  rw [visit]
  generalize g.lambdaBody node = body at h
  rw [visitBody]
  cases hkind : body.kind <;> rw [hkind] at h <;>
    simp_all [NodeKind.keepsStore, visitLocation, visitThis, visitClassName, visitPlain,
      visitTernary, visitInstanceOf, visitCreation, visitReturn, visitConversion, Stores.merged]

/-- A block whose nodes all hand on their store tells any two stores apart. -/
theorem tellsApart_of_keepsStore {enclosing : Option Store} {id : BlockId} {block : Block}
    (h : ∀ n ∈ block.nodes, ∀ node ∈ g.node? n, (g.lambdaBody node).kind.keepsStore = true) :
    (st.engine enclosing).TellsApart g id block := by
  have hkeep : ∀ (values : NodeValues) (s : Store) (run : BlockRun),
      (st.engine enclosing).runBlock g values block.nodes s = .ok run →
        run.stores = .regular s := by
    intro values s run hrun
    refine Engine.runNodes_preserves (P := fun r => r.stores = .regular s)
      (fun r n hn node hnode hr => ?_) rfl hrun
    rw [Engine.afterVisit]
    dsimp only
    rw [hr]
    exact visit_of_keepsStore (h n hn node hnode) r.values s
  rintro s t ⟨values, values', run, run', hrun, hrun', hagree, _⟩
  rw [hkeep values s run hrun, hkeep values' t run' hrun'] at hagree
  exact hagree

/-- On convergence the store reported on entry to a block has the effect on it of the join of
what its predecessors send, and agrees with that join if the block tells stores apart. -/
theorem analyze_reports_entryStore {enclosing : Option Store} {sol : Solution}
    (hg : g.Mirrored) (hw : st.config.widenAfter = none)
    (h : st.analyze g enclosing = .ok sol) (hc : sol.converged = true)
    {id : BlockId} {block : Block} (hblock : g.block? id = some block)
    (hreached : (sol.outputs.get? id).isSome) :
    ∃ initial log input joined,
      st.entryStore enclosing g.code g.parameters = .ok (initial, log) ∧
      sol.inputs.get? id = some input ∧
      g.joinPredecessors sol.outputs initial block = some joined ∧
      (st.engine enclosing).SameEffect g id block input joined ∧
      ((st.engine enclosing).TellsApart g id block → input.agrees joined = true) := by
  obtain ⟨initial, log, p, hentry, hs, hnil, hin, hout, -, -⟩ := Engine.settled_of_solve hg h hc
  rw [hout] at hreached
  have hoff : id ∉ p.worklist := by simp [hnil]
  obtain ⟨values, joined, input, run, hlast⟩ := hs.lastRun id block hoff hreached hblock
  obtain ⟨input', block', values', run', hinput, hreport⟩ := hs.reported id hreached
  obtain rfl : block = block' := Option.some.inj (hblock.symm.trans hreport.block_eq)
  have hjoin : input = joined := hlast.input_eq.resolve_right fun hwide => hwide.1 hw
  obtain ⟨out, hfinal, hagree⟩ := hlast.output_eq
  obtain rfl : run'.stores = out := Option.some.inj (hreport.output_eq.symm.trans hfinal)
  have hsame : (st.engine enclosing).SameEffect g id block input' joined := by
    refine ⟨values', values, run', run, hreport.run_eq, hjoin ▸ hlast.run_eq, hagree, ?_⟩
    intro n _ hn
    rw [hlast.own n hn, hreport.own n hn]
  refine ⟨initial, log, input', joined, hentry, hin ▸ hinput, hout ▸ hlast.joined_eq, hsame, ?_⟩
  exact fun htells => htells input' joined hsame

end Setting

namespace EntryStores

private def cell : Ty := .declared "Cell"

private def next : Field := ⟨⟨20⟩, "next", cell, cell, false, false⟩

private def thisNext : Receiver := .field (.this cell) next

private def touch : Method := ⟨⟨30⟩, "touch", cell, .void, false, false⟩

/-- `this.next = 1; while (…this.next…) { this.next = null; }`, with the read of `next` in a block
of its own. -/
def readLoop : Graph where
  code := .fragment ⟨0⟩
  parameters := []
  nodes := [
    ⟨⟨0⟩, cell, none, true, .thisLiteral⟩, ⟨⟨1⟩, cell, none, true, .fieldAccess ⟨0⟩ next⟩,
    ⟨⟨2⟩, cell, some ⟨1⟩, true, .literal (.integer 1)⟩,
    ⟨⟨3⟩, cell, none, true, .assignment ⟨1⟩ ⟨2⟩⟩,
    ⟨⟨4⟩, cell, none, true, .thisLiteral⟩, ⟨⟨5⟩, cell, none, true, .fieldAccess ⟨4⟩ next⟩,
    ⟨⟨6⟩, cell, none, true, .thisLiteral⟩, ⟨⟨7⟩, cell, none, true, .fieldAccess ⟨6⟩ next⟩,
    ⟨⟨8⟩, cell, some ⟨2⟩, true, .literal .null⟩,
    ⟨⟨9⟩, cell, none, true, .assignment ⟨7⟩ ⟨8⟩⟩]
  blocks := [
    ⟨⟨0⟩, [⟨0⟩, ⟨1⟩, ⟨2⟩, ⟨3⟩], some (.goto ⟨2⟩), [], [⟨2⟩]⟩,
    ⟨⟨1⟩, [], none, [⟨2⟩], []⟩,
    ⟨⟨2⟩, [⟨4⟩, ⟨5⟩], some (.branch ⟨3⟩ ⟨1⟩), [⟨0⟩, ⟨3⟩], [⟨3⟩, ⟨1⟩]⟩,
    ⟨⟨3⟩, [⟨6⟩, ⟨7⟩, ⟨8⟩, ⟨9⟩], some (.goto ⟨2⟩), [⟨2⟩], [⟨2⟩]⟩]
  entry := ⟨0⟩
  exit := ⟨1⟩

/-- The head of the loop of `readLoop` is entered from two sides with different values of
`next`. -/
theorem readLoop_reports_join :
    readLoop.Mirrored ∧ Setting.plain.config.widenAfter = none ∧
    ∃ sol block initial log input joined, Setting.plain.analyze readLoop none = .ok sol ∧
      sol.converged = true ∧ readLoop.block? ⟨2⟩ = some block ∧
      (sol.outputs.get? ⟨2⟩).isSome ∧
      Setting.plain.entryStore none readLoop.code readLoop.parameters = .ok (initial, log) ∧
      sol.inputs.get? ⟨2⟩ = some input ∧
      readLoop.joinPredecessors sol.outputs initial block = some joined ∧
      input.agrees joined = true := by
  have hg : readLoop.Mirrored := by decide
  have horder : readLoop.reversePostorder = [⟨0⟩, ⟨2⟩, ⟨1⟩, ⟨3⟩] := by cbv
  have hrun : (Setting.plain.analyze readLoop none).toOption.any
      (fun sol => sol.converged && (sol.outputs.get? ⟨2⟩).isSome) = true := by
    simp only [Setting.analyze, Engine.solve, Engine.start, horder]
    decide
  have hkeep : (Setting.plain.engine none).TellsApart readLoop ⟨2⟩
      ⟨⟨2⟩, [⟨4⟩, ⟨5⟩], some (.branch ⟨3⟩ ⟨1⟩), [⟨0⟩, ⟨3⟩], [⟨3⟩, ⟨1⟩]⟩ :=
    Setting.tellsApart_of_keepsStore (by decide)
  obtain ⟨sol, hsol, hchecks⟩ := Solution.exists_of_any hrun
  obtain ⟨hc, hreached⟩ := Bool.and_eq_true_iff.1 hchecks
  obtain ⟨initial, log, input, joined, hentry, hinput, hjoined, -, htells⟩ :=
    Setting.analyze_reports_entryStore hg rfl hsol hc rfl hreached
  exact ⟨hg, rfl, sol, _, initial, log, input, joined, hsol, hc, rfl, hreached, hentry, hinput,
    hjoined, htells hkeep⟩

private def loopBody : Block :=
  ⟨⟨2⟩, [⟨4⟩, ⟨5⟩, ⟨6⟩, ⟨7⟩, ⟨8⟩], some (.branch ⟨2⟩ ⟨1⟩), [⟨0⟩, ⟨2⟩], [⟨2⟩, ⟨1⟩]⟩

/-- `this.next = 1; do { this.touch(); this.next = null; } while (…)`. -/
def writeLoop : Graph where
  code := .fragment ⟨0⟩
  parameters := []
  nodes := [
    ⟨⟨0⟩, cell, none, true, .thisLiteral⟩, ⟨⟨1⟩, cell, none, true, .fieldAccess ⟨0⟩ next⟩,
    ⟨⟨2⟩, cell, some ⟨1⟩, true, .literal (.integer 1)⟩,
    ⟨⟨3⟩, cell, none, true, .assignment ⟨1⟩ ⟨2⟩⟩,
    ⟨⟨4⟩, cell, none, true, .thisLiteral⟩,
    ⟨⟨5⟩, .void, none, true, .methodInvocation touch ⟨4⟩ []⟩,
    ⟨⟨6⟩, cell, none, true, .fieldAccess ⟨4⟩ next⟩, ⟨⟨7⟩, cell, some ⟨2⟩, true, .literal .null⟩,
    ⟨⟨8⟩, cell, none, true, .assignment ⟨6⟩ ⟨7⟩⟩]
  blocks := [
    ⟨⟨0⟩, [⟨0⟩, ⟨1⟩, ⟨2⟩, ⟨3⟩], some (.goto ⟨2⟩), [], [⟨2⟩]⟩,
    ⟨⟨1⟩, [], none, [⟨2⟩], []⟩, loopBody]
  entry := ⟨0⟩
  exit := ⟨1⟩

/-- The body of `writeLoop` forgets `next` before it writes it. Its reported entry store keeps
the value of the first round, which the way back into the loop contradicts. -/
theorem writeLoop_reports_stale_store :
    writeLoop.check = .ok () ∧ writeLoop.Mirrored ∧ writeLoop.FollowsTerminators ∧
    Setting.plain.config.widenAfter = none ∧
    ∃ sol block initial log input joined, Setting.plain.analyze writeLoop none = .ok sol ∧
      sol.converged = true ∧ writeLoop.block? ⟨2⟩ = some block ∧
      (sol.outputs.get? ⟨2⟩).isSome ∧
      Setting.plain.entryStore none writeLoop.code writeLoop.parameters = .ok (initial, log) ∧
      sol.inputs.get? ⟨2⟩ = some input ∧
      writeLoop.joinPredecessors sol.outputs initial block = some joined ∧
      input.value? thisNext = some (.of cell [.nonNull]) ∧
      joined.value? thisNext = some (.of cell [.nullable]) ∧ input.agrees joined = false := by
  refine ⟨by decide, by decide, by decide, rfl, ?_⟩
  have horder : writeLoop.reversePostorder = [⟨0⟩, ⟨2⟩, ⟨1⟩] := by cbv
  have hrun : (Setting.plain.analyze writeLoop none).toOption.any (fun sol =>
      (sol.inputs.get? ⟨2⟩).any fun input =>
        (writeLoop.joinPredecessors sol.outputs (.empty true) loopBody).any fun joined =>
          decide (sol.converged = true ∧ (sol.outputs.get? ⟨2⟩).isSome ∧
            input.value? thisNext = some (.of cell [.nonNull]) ∧
            joined.value? thisNext = some (.of cell [.nullable]) ∧
            input.agrees joined = false)) = true := by
    simp only [Setting.analyze, Engine.solve, Engine.start, horder]
    decide
  obtain ⟨sol, hsol, hchecks⟩ := Solution.exists_of_any hrun
  obtain ⟨input, hinput, hchecks⟩ := Option.any_eq_true _ _ |>.1 hchecks
  obtain ⟨joined, hjoined, hchecks⟩ := Option.any_eq_true _ _ |>.1 hchecks
  obtain ⟨hc, hreached, hvalues⟩ := of_decide_eq_true hchecks
  exact ⟨sol, loopBody, _, _, input, joined, hsol, hc, rfl, hreached, rfl, hinput, hjoined,
    hvalues⟩

end EntryStores

end FlowTyping
