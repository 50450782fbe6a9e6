import FlowTyping.Proofs.Fixpoint.Settled
import FlowTyping.Proofs.Transfer.Operands

/-!
# Node values on convergence

A block whose output or node values change wakes its direct successors only. On convergence the
result of a block is what its nodes give with the operand values that they last saw. Those are the
final values of the block's own nodes and of its direct predecessors; the value of an operand
computed farther back may have changed since, behind a block that did not change itself.
-/

namespace FlowTyping

/-- Visits the listed nodes again, each with the operand values that `seen` says. The result is
the stores in the end, or nothing if some visit gives a node another value than the recorded
one. -/
def Engine.replay (engine : Engine) (g : Graph) (seen : NodeId → Node → NodeValues)
    (recorded : NodeValues) : List NodeId → Stores → Option Stores
  | [], stores => some stores
  | n :: ids, stores =>
    match g.node? n with
    | none => none
    | some node =>
      let outcome := (engine.visit g (seen n node) node stores).1
      if outcome.value = recorded.get? n then engine.replay g seen recorded ids outcome.stores
      else none

/-- The final values, but at operands outside the block those that the node saw when it was last
visited. -/
def Solution.lastSeen (sol : Solution) (g : Graph) (block : Block) (n : NodeId) (node : Node) :
    NodeValues :=
  (g.reads node).foldl (fun values o =>
    if o ∈ block.nodes then values else values.set o (valueSeen sol.visits n o)) sol.values

/-- A node of the block reads `o`, which neither the block nor a direct predecessor computes. -/
def Graph.ReadsFar (g : Graph) (block : Block) (n o : NodeId) : Prop :=
  n ∈ block.nodes ∧ (∃ node, g.node? n = some node ∧ o ∈ g.reads node) ∧ o ∉ block.nodes ∧
    ∀ q ∈ block.predecessors, o ∉ g.nodesOf q

private theorem Solution.lastSeen_get? (sol : Solution) {g : Graph} {block : Block} {n : NodeId}
    {node : Node} {o : NodeId} (ho : o ∈ g.reads node) :
    (sol.lastSeen g block n node).get? o =
      if o ∈ block.nodes then sol.values.get? o else valueSeen sol.visits n o := by
  have hfold : ∀ (operands : List NodeId) (values : NodeValues),
      (operands.foldl (fun values o => if o ∈ block.nodes then values
          else values.set o (valueSeen sol.visits n o)) values).get? o =
        if o ∈ operands ∧ o ∉ block.nodes then valueSeen sol.visits n o
        else values.get? o := by
    intro operands
    induction operands with
    | nil => simp
    | cons a operands ih =>
      intro values
      rw [List.foldl_cons, ih]
      by_cases hown : o ∈ block.nodes
      · by_cases ha : a ∈ block.nodes
        · simp [hown, ha]
        · have hoa : o ≠ a := fun he => ha (he ▸ hown)
          simp [hown, ha, hoa]
      · by_cases hoa : o = a
        · subst hoa
          simp [hown]
        · by_cases ha : a ∈ block.nodes <;> simp [hown, ha, hoa]
  rw [lastSeen, hfold]
  by_cases hown : o ∈ block.nodes <;> simp [hown, ho]

namespace Setting

variable {st : Setting} {g : Graph} {enclosing : Option Store}

private theorem replay_cons {seen : NodeId → Node → NodeValues} {values : NodeValues}
    {n : NodeId} {ids : List NodeId} {node : Node} {stores : Stores} (hnode : g.node? n = some node)
    (hvalue : (st.visit g (seen n node) node stores).1.value = values.get? n) :
    (st.engine enclosing).replay g seen values (n :: ids) stores =
      (st.engine enclosing).replay g seen values ids
        (st.visit g (seen n node) node stores).1.stores := by
  rw [Engine.replay, hnode]
  exact if_pos hvalue

private theorem replay_of_runNodes {seen : NodeId → Node → NodeValues} {final : NodeValues}
    {ids : List NodeId} {r run : BlockRun}
    (h : (st.engine enclosing).runNodes g r ids = .ok run) (hnodup : ids.Nodup)
    (hown : ∀ n ∈ ids, run.values.get? n = final.get? n)
    (hread : ∀ before n after, ids = before ++ n :: after → ∀ node, g.node? n = some node →
      ∀ o ∈ g.reads node, o ∈ before ∧ (seen n node).get? o = final.get? o ∨
        o ∉ ids ∧ (seen n node).get? o = r.values.get? o) :
    (st.engine enclosing).replay g seen final ids r.stores = some run.stores := by
  induction ids generalizing r with
  | nil =>
    rw [Engine.runNodes_nil_eq_ok] at h
    rw [Engine.replay, h]
  | cons id ids ih =>
    obtain ⟨node, hnode, h⟩ := Engine.runNodes_cons_eq_ok.1 h
    obtain ⟨hid, hnodup⟩ := List.nodup_cons.1 hnodup
    have hvisit : st.visit g r.values node r.stores =
        st.visit g (seen id node) node r.stores := by
      refine st.visit_congr g node r.stores fun o ho => ?_
      rcases hread [] id ids rfl node hnode o ho with ⟨hnil, -⟩ | ⟨-, hsame⟩
      · exact absurd hnil List.not_mem_nil
      · exact hsame.symm
    have hset : ((st.engine enclosing).afterVisit g r id node).values.get? id =
        (st.visit g (seen id node) node r.stores).1.value := by
      rw [Engine.afterVisit, ← hvisit]
      simp [Setting.engine]
    have hvalue : (st.visit g (seen id node) node r.stores).1.value = final.get? id := by
      rw [← hset, ← Engine.runNodes_get?_of_notMem h hid]
      exact hown id List.mem_cons_self
    have hstores : ((st.engine enclosing).afterVisit g r id node).stores =
        (st.visit g (seen id node) node r.stores).1.stores := by
      rw [← hvisit]
      rfl
    have hrest := ih h hnodup (fun n hn => hown n (List.mem_cons_of_mem _ hn)) ?_
    · rw [replay_cons hnode hvalue, ← hstores]
      exact hrest
    · intro before n after hsplit other hother o ho
      have hlater := hread (id :: before) n after (by rw [hsplit]; rfl) other hother o ho
      by_cases hoid : o = id
      · subst hoid
        refine Or.inr ⟨hid, ?_⟩
        rcases hlater with ⟨-, hsame⟩ | ⟨hout, -⟩
        · rw [hsame, hset, hvalue]
        · exact absurd List.mem_cons_self hout
      · rcases hlater with ⟨hbefore, hsame⟩ | ⟨hout, hsame⟩
        · exact Or.inl ⟨(List.mem_cons.1 hbefore).resolve_left hoid, hsame⟩
        · refine Or.inr ⟨fun hmem => hout (List.mem_cons_of_mem _ hmem), ?_⟩
          rw [hsame, Engine.afterVisit, FinMap.get?_set, if_neg hoid]

/-- On convergence a block's visits, replayed from the join of what its predecessors send with
the operand values that they last saw, give its output and the values of its nodes. Replayed with
the final node values they give the same, if every operand computed farther back than a direct
predecessor still has the value last seen. -/
theorem analyze_replays {sol : Solution} (hg : g.Mirrored) (hd : g.DistinctNodes)
    (ho : g.OperandsFirst) (hw : st.config.widenAfter = none)
    (h : st.analyze g enclosing = .ok sol) (hc : sol.converged = true)
    {id : BlockId} {block : Block} {out : Stores} (hblock : g.block? id = some block)
    (hout : sol.outputs.get? id = some out) :
    ∃ initial log joined stores,
      st.entryStore enclosing g.code g.parameters = .ok (initial, log) ∧
      g.joinPredecessors sol.outputs initial block = some joined ∧ out.agrees stores = true ∧
      (st.engine enclosing).replay g (sol.lastSeen g block) sol.values block.nodes
        (.regular joined) = some stores ∧
      ((∀ n o, g.ReadsFar block n o → valueSeen sol.visits n o = sol.values.get? o) →
        (st.engine enclosing).replay g (fun _ _ => sol.values) sol.values block.nodes
          (.regular joined) = some stores) := by
  obtain ⟨initial, log, p, hentry, hs, hnil, -, houts, hvalues, hvisits⟩ :=
    Engine.settled_of_solve hg h hc
  rw [houts] at hout ⊢
  have hreached : (p.outputs.get? id).isSome := by simp [hout]
  have hoff : id ∉ p.worklist := by simp [hnil]
  obtain ⟨values, joined, input, run, hlast⟩ := hs.lastRun id block hoff hreached hblock
  have hjoin : input = joined := hlast.input_eq.resolve_right fun hwide => hwide.1 hw
  obtain ⟨out', hout', hagree⟩ := hlast.output_eq
  obtain rfl : out = out' := Option.some.inj (hout.symm.trans hout')
  have hrun := hlast.run_eq
  rw [hjoin, Engine.runBlock_eq_runNodes] at hrun
  have hown : ∀ n ∈ block.nodes, run.values.get? n = sol.values.get? n := by
    intro n hn
    rw [hvalues]
    exact hlast.own n (hd.heldOnlyBy hblock hn)
  have hseen : ∀ n ∈ block.nodes, ∀ o ∉ block.nodes,
      valueSeen sol.visits n o = values.get? o := by
    intro n hn o hout
    rw [hvisits]
    exact hlast.seen n hn (hd.heldOnlyBy hblock hn) o hout
  have hbefore : ∀ before n after, block.nodes = before ++ n :: after →
      ∀ node, g.node? n = some node → ∀ o ∈ g.reads node, o ∈ block.nodes → o ∈ before :=
    fun before n after hsplit node hnode o hread =>
      ho.mem_before hd (hs.reached id hreached) hblock hsplit hnode hread
  refine ⟨initial, log, joined, run.stores, hentry, hlast.joined_eq, hagree, ?_, fun hfresh => ?_⟩
  · refine replay_of_runNodes hrun (hd.nodup hblock) hown ?_
    intro before n after hsplit node hnode o hread
    rw [sol.lastSeen_get? hread]
    by_cases hmem : o ∈ block.nodes
    · rw [if_pos hmem]
      exact Or.inl ⟨hbefore before n after hsplit node hnode o hread hmem, rfl⟩
    · rw [if_neg hmem, hseen n (by simp [hsplit]) o hmem]
      exact Or.inr ⟨hmem, rfl⟩
  · refine replay_of_runNodes hrun (hd.nodup hblock) hown ?_
    intro before n after hsplit node hnode o hread
    have hn : n ∈ block.nodes := by simp [hsplit]
    by_cases hmem : o ∈ block.nodes
    · exact Or.inl ⟨hbefore before n after hsplit node hnode o hread hmem, rfl⟩
    · refine Or.inr ⟨hmem, ?_⟩
      by_cases hnear : ∃ q ∈ block.predecessors, o ∈ g.nodesOf q
      · obtain ⟨q, hq, hoq⟩ := hnear
        obtain ⟨source, hsource, hoq⟩ := Graph.mem_nodesOf.1 hoq
        rw [hvalues]
        exact (hlast.near q hq o (hd.heldOnlyBy hsource hoq)).symm
      · have hfar : g.ReadsFar block n o :=
          ⟨hn, ⟨node, hnode, hread⟩, hmem, fun q hq hoq => hnear ⟨q, hq, hoq⟩⟩
        rw [← hfresh n o hfar]
        exact hseen n hn o hmem

end Setting

namespace NodeValues

private def foo : Ty := .declared "Foo"

private def localNode (id : ElementId) (name : String) : NodeKind :=
  .localVariable ⟨id, name, .localVariable, foo, none⟩

private def lastBlock : Block :=
  ⟨⟨4⟩, [⟨7⟩, ⟨8⟩], some (.branch ⟨2⟩ ⟨1⟩), [⟨3⟩], [⟨2⟩, ⟨1⟩]⟩

/-- `x = 1; do { read x; x = null; … y = (what was read); } while (…)`, where the given nodes stand
in a block of their own between the read and the assignment to `y`. -/
def relay (between : List NodeId) : Graph where
  code := .fragment ⟨0⟩
  parameters := []
  nodes := [
    ⟨⟨0⟩, foo, none, true, localNode ⟨10⟩ "x"⟩,
    ⟨⟨1⟩, foo, some ⟨1⟩, true, .literal (.integer 1)⟩,
    ⟨⟨2⟩, foo, none, true, .assignment ⟨0⟩ ⟨1⟩⟩,
    ⟨⟨3⟩, foo, none, true, localNode ⟨10⟩ "x"⟩,
    ⟨⟨4⟩, foo, none, true, localNode ⟨10⟩ "x"⟩,
    ⟨⟨5⟩, foo, some ⟨2⟩, true, .literal .null⟩,
    ⟨⟨6⟩, foo, none, true, .assignment ⟨4⟩ ⟨5⟩⟩,
    ⟨⟨7⟩, foo, none, true, localNode ⟨11⟩ "y"⟩,
    ⟨⟨8⟩, foo, none, true, .assignment ⟨7⟩ ⟨3⟩⟩,
    ⟨⟨9⟩, foo, none, true, localNode ⟨12⟩ "z"⟩,
    ⟨⟨10⟩, foo, none, true, .assignment ⟨9⟩ ⟨3⟩⟩]
  blocks := [
    ⟨⟨0⟩, [⟨0⟩, ⟨1⟩, ⟨2⟩], some (.goto ⟨2⟩), [], [⟨2⟩]⟩,
    ⟨⟨1⟩, [], none, [⟨4⟩], []⟩,
    ⟨⟨2⟩, [⟨3⟩, ⟨4⟩, ⟨5⟩, ⟨6⟩], some (.goto ⟨3⟩), [⟨0⟩, ⟨4⟩], [⟨3⟩]⟩,
    ⟨⟨3⟩, between, some (.goto ⟨4⟩), [⟨2⟩], [⟨4⟩]⟩, lastBlock]
  entry := ⟨0⟩
  exit := ⟨1⟩

private def computed : BlockId → List NodeId
  | ⟨0⟩ => []
  | ⟨2⟩ => [⟨0⟩, ⟨1⟩, ⟨2⟩]
  | _ => [⟨0⟩, ⟨1⟩, ⟨2⟩, ⟨3⟩, ⟨4⟩, ⟨5⟩, ⟨6⟩]

private theorem reversePostorder_relay (between : List NodeId) :
    (relay between).reversePostorder = [⟨0⟩, ⟨2⟩, ⟨3⟩, ⟨4⟩, ⟨1⟩] := by cbv

/-- The block between assigns to `z` what was read, so it changes along and wakes the block that
assigns to `y`. -/
theorem relay_replays :
    (relay [⟨9⟩, ⟨10⟩]).Mirrored ∧ (relay [⟨9⟩, ⟨10⟩]).DistinctNodes ∧
    (relay [⟨9⟩, ⟨10⟩]).OperandsFirst ∧ Setting.plain.config.widenAfter = none ∧
    ∃ sol block out initial log joined stores,
      Setting.plain.analyze (relay [⟨9⟩, ⟨10⟩]) none = .ok sol ∧ sol.converged = true ∧
      (relay [⟨9⟩, ⟨10⟩]).block? ⟨4⟩ = some block ∧ sol.outputs.get? ⟨4⟩ = some out ∧
      Setting.plain.entryStore none (.fragment ⟨0⟩) [] = .ok (initial, log) ∧
      (relay [⟨9⟩, ⟨10⟩]).joinPredecessors sol.outputs initial block = some joined ∧
      out.agrees stores = true ∧
      (Setting.plain.engine none).replay (relay [⟨9⟩, ⟨10⟩]) (fun _ _ => sol.values) sol.values
        block.nodes (.regular joined) = some stores := by
  have hg : (relay [⟨9⟩, ⟨10⟩]).Mirrored := by decide
  have hd : (relay [⟨9⟩, ⟨10⟩]).DistinctNodes := by decide
  have ho : (relay [⟨9⟩, ⟨10⟩]).OperandsFirst := by
    have hcovers : (relay [⟨9⟩, ⟨10⟩]).Covers computed := by decide
    exact hcovers.operandsFirst
  have hrun : (Setting.plain.analyze (relay [⟨9⟩, ⟨10⟩]) none).toOption.any (fun sol =>
      decide (sol.converged = true ∧ (sol.outputs.get? ⟨4⟩).isSome ∧
        valueSeen sol.visits ⟨8⟩ ⟨3⟩ = sol.values.get? ⟨3⟩)) = true := by
    simp only [Setting.analyze, Engine.solve, Engine.start, reversePostorder_relay]
    decide
  obtain ⟨sol, hsol, hchecks⟩ := Solution.exists_of_any hrun
  obtain ⟨hc, hreached, hlast⟩ := of_decide_eq_true hchecks
  obtain ⟨out, hout⟩ := Option.isSome_iff_exists.1 hreached
  obtain ⟨initial, log, joined, stores, hentry, hjoined, hagree, -, hfinal⟩ :=
    Setting.analyze_replays hg hd ho rfl hsol hc rfl hout
  refine ⟨hg, hd, ho, rfl, sol, _, out, initial, log, joined, stores, hsol, hc, rfl, hout,
    hentry, hjoined, hagree, hfinal ?_⟩
  have hreads : ∀ n ∈ [NodeId.mk 7, ⟨8⟩], ∀ node ∈ (relay [⟨9⟩, ⟨10⟩]).node? n,
      ∀ o ∈ (relay [⟨9⟩, ⟨10⟩]).reads node, o ∉ [NodeId.mk 7, ⟨8⟩] →
        n = ⟨8⟩ ∧ o = ⟨3⟩ := by decide
  rintro n o ⟨hn, ⟨node, hnode, hread⟩, hown, -⟩
  obtain ⟨rfl, rfl⟩ := hreads n hn node hnode o hread hown
  exact hlast

/-- With nothing in the block between, the loop is left before `y` is assigned what the last
round reads, and the final store still takes `y` to be the value of the first round. -/
theorem relay_keeps_stale_value :
    (relay []).check = .ok () ∧ (relay []).Mirrored ∧ (relay []).FollowsTerminators ∧
    (relay []).DistinctNodes ∧ (relay []).OperandsFirst ∧ Setting.plain.config.widenAfter = none ∧
    ∃ sol block initial log joined, Setting.plain.analyze (relay []) none = .ok sol ∧
      sol.converged = true ∧ (relay []).block? ⟨4⟩ = some block ∧
      (sol.outputs.get? ⟨4⟩).isSome ∧
      Setting.plain.entryStore none (.fragment ⟨0⟩) [] = .ok (initial, log) ∧
      (relay []).joinPredecessors sol.outputs initial block = some joined ∧
      sol.values.get? ⟨3⟩ = some (.of foo [.nullable]) ∧
      sol.values.get? ⟨8⟩ = some (.of foo [.nonNull]) ∧
      (Setting.plain.engine none).replay (relay []) (fun _ _ => sol.values) sol.values block.nodes
        (.regular joined) = none := by
  have ho : (relay []).OperandsFirst := by
    have hcovers : (relay []).Covers computed := by decide
    exact hcovers.operandsFirst
  refine ⟨by decide, by decide, by decide, by decide, ho, rfl, ?_⟩
  have hrun : (Setting.plain.analyze (relay []) none).toOption.any (fun sol =>
      ((relay []).joinPredecessors sol.outputs (.empty true) lastBlock).any fun joined =>
        decide (sol.converged = true ∧ (sol.outputs.get? ⟨4⟩).isSome ∧
          sol.values.get? ⟨3⟩ = some (.of foo [.nullable]) ∧
          sol.values.get? ⟨8⟩ = some (.of foo [.nonNull])) &&
        ((Setting.plain.engine none).replay (relay []) (fun _ _ => sol.values) sol.values
          lastBlock.nodes (.regular joined)).isNone) = true := by
    simp only [Setting.analyze, Engine.solve, Engine.start, reversePostorder_relay]
    decide
  obtain ⟨sol, hsol, hchecks⟩ := Solution.exists_of_any hrun
  obtain ⟨joined, hjoined, hchecks⟩ := Option.any_eq_true _ _ |>.1 hchecks
  obtain ⟨hfacts, hnone⟩ := Bool.and_eq_true_iff.1 hchecks
  obtain ⟨hc, hreached, hread, hassigned⟩ := of_decide_eq_true hfacts
  exact ⟨sol, lastBlock, _, _, joined, hsol, hc, rfl, hreached, rfl, hjoined, hread, hassigned,
    Option.isNone_iff_eq_none.1 hnone⟩

end NodeValues

end FlowTyping
