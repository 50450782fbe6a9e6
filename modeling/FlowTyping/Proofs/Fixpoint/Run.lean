import FlowTyping.Fixpoint
import FlowTyping.Proofs.Graph.Paths

/-!
# Runs of a block

What one visit of a node does, as an inversion of the definition, and what a run over the nodes
of a block does to values and to the record of visits.
-/

namespace FlowTyping

/-- The value that a list of visits leaves recorded for a node. -/
def recorded (visits : List Visit) (n : NodeId) : Option Value :=
  visits.foldl (fun v x => if x.node = n then x.value else v) none

/-- What the node `n` found recorded for the node `o` when it was last visited. -/
def valueSeen (visits : List Visit) (n o : NodeId) : Option Value :=
  (visits.foldl (fun st x =>
    (if x.node = n then st.2 else st.1, if x.node = o then x.value else st.2))
    ((none, none) : Option Value × Option Value)).1

@[simp] theorem recorded_append_singleton (visits : List Visit) (x : Visit) (n : NodeId) :
    recorded (visits ++ [x]) n = if x.node = n then x.value else recorded visits n := by
  simp [recorded]

private theorem foldl_valueSeen (visits : List Visit) (n o : NodeId)
    (start : Option Value × Option Value) :
    (visits.foldl (fun st x =>
      (if x.node = n then st.2 else st.1, if x.node = o then x.value else st.2)) start).2 =
      visits.foldl (fun v x => if x.node = o then x.value else v) start.2 := by
  induction visits generalizing start with
  | nil => rfl
  | cons x visits ih =>
    rw [List.foldl_cons, List.foldl_cons]
    exact ih _

@[simp] theorem valueSeen_append_singleton (visits : List Visit) (x : Visit) (n o : NodeId) :
    valueSeen (visits ++ [x]) n o =
      if x.node = n then recorded visits o else valueSeen visits n o := by
  have hnow := foldl_valueSeen visits n o (none, none)
  simp only [valueSeen, recorded, List.foldl_append, List.foldl_cons, List.foldl_nil]
  by_cases hn : x.node = n
  · rw [if_pos hn, if_pos hn, hnow]
  · rw [if_neg hn, if_neg hn]

namespace Engine

variable {engine : Engine} {g : Graph} {config : Config} {initial : Store}

/-- What a run of a block's nodes amounts to after one more visit. -/
def afterVisit (engine : Engine) (g : Graph) (run : BlockRun) (id : NodeId) (node : Node) :
    BlockRun :=
  let result := engine.visit g run.values node run.stores
  { stores := result.1.stores
    values := run.values.set id result.1.value
    changed := run.changed || run.values.get? id ≠ result.1.value
    log := run.log ++ result.2
    visits := run.visits ++ [⟨id, result.1.value, result.1.stores.isConditional⟩] }

theorem runNode_eq_ok {run run' : BlockRun} {id : NodeId} :
    engine.runNode g run id = .ok run' ↔
      ∃ node, g.node? id = some node ∧ engine.afterVisit g run id node = run' := by
  unfold runNode
  cases hnode : g.node? id with
  | none => simp
  | some node => simp [afterVisit]

def runNodes (engine : Engine) (g : Graph) (run : BlockRun) (ids : List NodeId) :
    Except FlowError BlockRun :=
  ids.foldlM (engine.runNode g) run

theorem runBlock_eq_runNodes (values : NodeValues) (ids : List NodeId) (input : Store) :
    engine.runBlock g values ids input =
      engine.runNodes g ⟨.regular input, values, false, .empty, []⟩ ids := rfl

theorem runNodes_nil_eq_ok {run run' : BlockRun} :
    engine.runNodes g run [] = .ok run' ↔ run = run' := by
  simp [runNodes, pure, Except.pure]

theorem runNodes_cons_eq_ok {run run' : BlockRun} {id : NodeId} {ids : List NodeId} :
    engine.runNodes g run (id :: ids) = .ok run' ↔
      ∃ node, g.node? id = some node ∧
        engine.runNodes g (engine.afterVisit g run id node) ids = .ok run' := by
  rw [runNodes, List.foldlM_cons]
  cases hstep : engine.runNode g run id with
  | error e =>
    simp only [bind, Except.bind, reduceCtorEq, false_iff, not_exists, not_and]
    intro node hnode
    rw [runNode_eq_ok.2 ⟨node, hnode, rfl⟩] at hstep
    cases hstep
  | ok mid =>
    obtain ⟨node, hnode, rfl⟩ := runNode_eq_ok.1 hstep
    simp [bind, Except.bind, hnode, runNodes]

theorem runNodes_preserves {P : BlockRun → Prop} {ids : List NodeId}
    (hstep : ∀ run, ∀ id ∈ ids, ∀ node, g.node? id = some node → P run →
      P (engine.afterVisit g run id node))
    {run run' : BlockRun} (hp : P run) (h : engine.runNodes g run ids = .ok run') : P run' := by
  induction ids generalizing run with
  | nil => exact runNodes_nil_eq_ok.1 h ▸ hp
  | cons id ids ih =>
    obtain ⟨node, hnode, h⟩ := runNodes_cons_eq_ok.1 h
    exact ih (fun run id' hid' => hstep run id' (List.mem_cons_of_mem _ hid'))
      (hstep run id List.mem_cons_self node hnode hp) h

theorem runNodes_get?_of_notMem {ids : List NodeId} {run run' : BlockRun}
    (h : engine.runNodes g run ids = .ok run') {n : NodeId} (hn : n ∉ ids) :
    run'.values.get? n = run.values.get? n := by
  refine runNodes_preserves (P := fun r => r.values.get? n = run.values.get? n)
    (fun r id hid node _ hr => ?_) rfl h
  have hne : n ≠ id := fun he => hn (he ▸ hid)
  rw [afterVisit, FinMap.get?_set, if_neg hne, hr]

/-- A run that reports no change leaves every value alone. -/
theorem runNodes_get?_of_unchanged {ids : List NodeId} {run run' : BlockRun}
    (h : engine.runNodes g run ids = .ok run') (hc : run'.changed = false) (n : NodeId) :
    run'.values.get? n = run.values.get? n := by
  refine runNodes_preserves (P := fun r => r.changed = false → r.values.get? n = run.values.get? n)
    (fun r id _ node _ hr hchanged => ?_) (fun _ => rfl) h hc
  simp only [afterVisit, Bool.or_eq_false_iff, decide_eq_false_iff_not, not_not] at hchanged
  rw [afterVisit, FinMap.get?_set]
  split
  · next heq => rw [heq, ← hchanged.2, ← heq, hr hchanged.1]
  · exact hr hchanged.1

/-- A run of distinct nodes reports a change only if it leaves some of them another value. -/
theorem runNodes_changed {ids : List NodeId} (hids : ids.Nodup) {run run' : BlockRun}
    (h : engine.runNodes g run ids = .ok run')
    (hvalues : ∀ n ∈ ids, run'.values.get? n = run.values.get? n) :
    run'.changed = run.changed := by
  induction ids generalizing run with
  | nil => rw [runNodes_nil_eq_ok.1 h]
  | cons id ids ih =>
    obtain ⟨node, hnode, h⟩ := runNodes_cons_eq_ok.1 h
    rw [List.nodup_cons] at hids
    have hkeep : (engine.afterVisit g run id node).values.get? id = run.values.get? id := by
      rw [← runNodes_get?_of_notMem h hids.1]
      exact hvalues id List.mem_cons_self
    have hrest : run'.changed = (engine.afterVisit g run id node).changed := by
      refine ih hids.2 h fun n hn => ?_
      have hne : n ≠ id := fun he => hids.1 (he ▸ hn)
      rw [hvalues n (List.mem_cons_of_mem _ hn), afterVisit, FinMap.get?_set, if_neg hne]
    rw [afterVisit, FinMap.get?_set, if_pos rfl] at hkeep
    rw [hrest, afterVisit, ← hkeep]
    simp

theorem runNodes_recorded {ids : List NodeId} {run run' : BlockRun}
    (h : engine.runNodes g run ids = .ok run') {earlier : List Visit}
    (hrec : ∀ n, recorded (earlier ++ run.visits) n = run.values.get? n) :
    ∀ n, recorded (earlier ++ run'.visits) n = run'.values.get? n := by
  refine runNodes_preserves
    (P := fun r => ∀ n, recorded (earlier ++ r.visits) n = r.values.get? n)
    (fun r id _ node _ hr n => ?_) hrec h
  rw [afterVisit, ← List.append_assoc, recorded_append_singleton, FinMap.get?_set, hr n]
  by_cases hn : id = n
  · rw [if_pos hn, if_pos hn.symm]
  · rw [if_neg hn, if_neg fun he => hn he.symm]

theorem runNodes_valueSeen_of_notMem {ids : List NodeId} {run run' : BlockRun}
    (h : engine.runNodes g run ids = .ok run') (earlier : List Visit) {n : NodeId} (hn : n ∉ ids)
    (o : NodeId) :
    valueSeen (earlier ++ run'.visits) n o = valueSeen (earlier ++ run.visits) n o := by
  refine runNodes_preserves
    (P := fun r => valueSeen (earlier ++ r.visits) n o = valueSeen (earlier ++ run.visits) n o)
    (fun r id hid node _ hr => ?_) rfl h
  have hne : ¬id = n := fun he => hn (he ▸ hid)
  rw [afterVisit, ← List.append_assoc, valueSeen_append_singleton, if_neg hne, hr]

/-- A visited node finds at a node outside the run the value recorded before the run. -/
theorem runNodes_valueSeen {ids : List NodeId} {run run' : BlockRun}
    (h : engine.runNodes g run ids = .ok run') {earlier : List Visit}
    (hrec : ∀ n, recorded (earlier ++ run.visits) n = run.values.get? n) {n o : NodeId}
    (hn : n ∈ ids) (ho : o ∉ ids) :
    valueSeen (earlier ++ run'.visits) n o = run.values.get? o := by
  induction ids generalizing run with
  | nil => simp at hn
  | cons id ids ih =>
    obtain ⟨node, hnode, h⟩ := runNodes_cons_eq_ok.1 h
    have hone : engine.runNodes g run [id] = .ok (engine.afterVisit g run id node) :=
      runNodes_cons_eq_ok.2 ⟨node, hnode, rfl⟩
    have hvalue := runNodes_get?_of_notMem hone
      (fun hmem => ho (List.mem_cons.2 (Or.inl (List.mem_singleton.1 hmem))))
    have ho' : o ∉ ids := fun hmem => ho (List.mem_cons_of_mem _ hmem)
    by_cases hmem : n ∈ ids
    · rw [ih h (runNodes_recorded hone hrec) hmem ho', hvalue]
    · obtain rfl : n = id := (List.mem_cons.1 hn).resolve_right hmem
      rw [runNodes_valueSeen_of_notMem h earlier hmem, afterVisit, ← List.append_assoc,
        valueSeen_append_singleton, if_pos rfl, hrec]

end Engine

end FlowTyping
