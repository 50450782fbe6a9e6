import FlowTyping.Proofs.Fixpoint.Joins
import FlowTyping.Proofs.Fixpoint.Turn
import FlowTyping.Proofs.Graph.ReversePostorder

/-!
# Settled blocks

The invariant of the worklist loop. A computed block that is not waiting was last run from what
its predecessors still send it, and since then neither the values of its own nodes nor those of
its predecessors have changed. Nothing is said about the values of blocks farther back: those may
change without the block being run again, and `valueSeen` is all that is known of them. The store
reported on entry to a block is one from which a run gave its present output.
-/

namespace FlowTyping

/-- No tables, and the default configuration, which does not widen. -/
def Setting.plain : Setting := .ofTables .empty .empty .default

theorem Solution.exists_of_any {e : Except FlowError Solution} {test : Solution → Bool}
    (h : e.toOption.any test = true) : ∃ sol, e = .ok sol ∧ test sol = true := by
  cases e with
  | error e => cases h
  | ok sol => exact ⟨sol, rfl, h⟩

namespace Engine

variable {engine : Engine} {g : Graph} {config : Config} {initial : Store}

theorem widenedInput_eq (config : Config) (p : Progress) (id : BlockId) (joined : Store) :
    widenedInput config p id joined = joined ∨ config.widenAfter ≠ none ∧
      ∃ previous, widenedInput config p id joined = joined.widen previous := by
  rw [widenedInput]
  split
  · next limit previous hlimit hprevious =>
    split
    · exact Or.inr ⟨by simp [hlimit], previous, rfl⟩
    · exact Or.inl rfl
  · exact Or.inl rfl

/-- The last run of a block, seen from the progress made since. -/
structure LastRun (engine : Engine) (g : Graph) (config : Config) (initial : Store)
    (p : Progress) (id : BlockId) (block : Block) (values : NodeValues) (joined input : Store)
    (run : BlockRun) : Prop where
  joined_eq : g.joinPredecessors p.outputs initial block = some joined
  input_eq : input = joined ∨ config.widenAfter ≠ none ∧ ∃ previous, input = joined.widen previous
  run_eq : engine.runBlock g values block.nodes input = .ok run
  output_eq : ∃ out, p.outputs.get? id = some out ∧ out.agrees run.stores = true
  own : ∀ n, g.HeldOnlyBy id n → run.values.get? n = p.values.get? n
  near : ∀ q ∈ block.predecessors, ∀ o, g.HeldOnlyBy q o → values.get? o = p.values.get? o
  seen : ∀ n ∈ block.nodes, g.HeldOnlyBy id n → ∀ o ∉ block.nodes,
    valueSeen p.visits n o = values.get? o

/-- The store reported on entry to a block, and a run from it that gave the present output. -/
structure ReportedRun (engine : Engine) (g : Graph) (p : Progress) (id : BlockId) (input : Store)
    (block : Block) (values : NodeValues) (run : BlockRun) : Prop where
  block_eq : g.block? id = some block
  run_eq : engine.runBlock g values block.nodes input = .ok run
  output_eq : p.outputs.get? id = some run.stores
  own : ∀ n, g.HeldOnlyBy id n → run.values.get? n = p.values.get? n

/-- What holds between any two turns of the loop. -/
structure Settled (engine : Engine) (g : Graph) (config : Config) (initial : Store)
    (p : Progress) : Prop where
  recorded_eq : ∀ n, recorded p.visits n = p.values.get? n
  waiting : ∀ id ∈ p.worklist, g.Reachable id
  reached : ∀ id, (p.outputs.get? id).isSome → g.Reachable id
  fed : ∀ id, (p.outputs.get? id).isSome → ∃ block, g.block? id = some block ∧
    (g.joinPredecessors p.outputs initial block).isSome
  lastRun : ∀ id block, id ∉ p.worklist → (p.outputs.get? id).isSome →
    g.block? id = some block →
    ∃ values joined input run,
      LastRun engine g config initial p id block values joined input run
  reported : ∀ id, (p.outputs.get? id).isSome → ∃ input block values run,
    p.inputs.get? id = some input ∧ ReportedRun engine g p id input block values run

section Turn

variable {p : Progress} {id other : BlockId} {block : Block} {joined : Store} {run : BlockRun}

theorem Runs.notMem_nodes (hr : Runs engine g config initial p id block joined run)
    {n : NodeId} (hn : g.HeldOnlyBy other n) (hne : id ≠ other) : n ∉ block.nodes :=
  fun hmem => hne (hn id block hr.block_eq hmem)

theorem Runs.get?_of_heldOnlyBy (hr : Runs engine g config initial p id block joined run)
    {n : NodeId} (hn : g.HeldOnlyBy other n) (hne : id ≠ other) :
    run.values.get? n = p.values.get? n :=
  runNodes_get?_of_notMem hr.run_eq (hr.notMem_nodes hn hne)

theorem Runs.recorded (hr : Runs engine g config initial p id block joined run)
    (hrec : ∀ n, recorded p.visits n = p.values.get? n) (n : NodeId) :
    recorded (p.visits ++ run.visits) n = run.values.get? n :=
  runNodes_recorded hr.run_eq (by simpa using hrec) n

theorem isSome_settle_outputs {input : Store} (h : (p.outputs.get? other).isSome) :
    ((settle p id block input run).outputs.get? other).isSome :=
  isSome_settle_outputs_iff.2 (Or.inr h)

/-- A run that wakes no successor which is `block` keeps what flows into that block. -/
theorem joinPredecessors_settle {source : Block} {input : Store}
    (hquiet : wakes p other run = true → other ∉ block.predecessors) :
    g.joinPredecessors (settle p other source input run).outputs initial block =
      g.joinPredecessors p.outputs initial block := by
  refine Graph.joinPredecessors_congr fun q hq => ?_
  rw [settle_outputs, if_neg]
  rintro ⟨rfl, hw⟩
  exact hquiet hw hq

/-- The last run of a block stays its last run when another block is run that does not wake it. -/
theorem LastRun.settle_other {source : Block} {values : NodeValues} {input joined' : Store}
    {run' : BlockRun}
    (h : LastRun engine g config initial p id block values joined input run) (hne : other ≠ id)
    (hr : Runs engine g config initial p other source joined' run') (input' : Store)
    (hquiet : wakes p other run' = true → other ∉ block.predecessors) :
    LastRun engine g config initial (settle p other source input' run') id block values joined
      input run where
  joined_eq := (joinPredecessors_settle hquiet).trans h.joined_eq
  input_eq := h.input_eq
  run_eq := h.run_eq
  output_eq := by
    have hno : ¬(id = other ∧ wakes p other run' = true) := fun he => hne he.1.symm
    rw [settle_outputs, if_neg hno]
    exact h.output_eq
  own n hn := by
    rw [settle_values, hr.get?_of_heldOnlyBy hn hne]
    exact h.own n hn
  near q hq o ho := by
    rw [settle_values, h.near q hq o ho]
    by_cases hqo : q = other
    · subst hqo
      have hw : wakes p q run' = false := Bool.eq_false_iff.2 fun hw => hquiet hw hq
      exact (runNodes_get?_of_unchanged hr.run_eq (wakes_eq_false.1 hw).1 o).symm
    · exact (hr.get?_of_heldOnlyBy ho fun he => hqo he.symm).symm
  seen n hn hheld o ho := by
    have hkeep := runNodes_valueSeen_of_notMem hr.run_eq p.visits (hr.notMem_nodes hheld hne) o
    rw [List.append_nil] at hkeep
    rw [settle_visits, hkeep]
    exact h.seen n hn hheld o ho

/-- A run of a block that does not wake itself is its last run. -/
theorem Runs.lastRun (hr : Runs engine g config initial p id block joined run)
    (hrec : ∀ n, FlowTyping.recorded p.visits n = p.values.get? n)
    (hquiet : wakes p id run = true → id ∉ block.predecessors) :
    LastRun engine g config initial
      (settle p id block (widenedInput config p id joined) run) id block p.values joined
      (widenedInput config p id joined) run where
  joined_eq := (joinPredecessors_settle hquiet).trans hr.joined_eq
  input_eq := widenedInput_eq config p id joined
  run_eq := hr.run_eq
  output_eq := by
    rw [settle_outputs]
    by_cases hw : wakes p id run = true
    · rw [if_pos ⟨rfl, hw⟩]
      exact ⟨run.stores, rfl, run.stores.agrees_refl⟩
    · have hold := (wakes_eq_false.1 (Bool.eq_false_iff.2 hw)).2
      rwa [if_neg fun h => hw h.2]
  own n _ := by rw [settle_values]
  near q hq o ho := by
    rw [settle_values]
    by_cases hqid : q = id
    · subst hqid
      have hw : wakes p q run = false := Bool.eq_false_iff.2 fun hw => hquiet hw hq
      exact (runNodes_get?_of_unchanged hr.run_eq (wakes_eq_false.1 hw).1 o).symm
    · exact (hr.get?_of_heldOnlyBy ho fun he => hqid he.symm).symm
  seen n hn _ o ho := by
    rw [settle_visits]
    exact runNodes_valueSeen hr.run_eq (by simpa using hrec) hn ho

end Turn

section Invariant

variable {p : Progress} {id : BlockId} {rest : List BlockId} {log : Log}

theorem settled_start (log : Log) : Settled engine g config initial (start g log) where
  recorded_eq n := rfl
  waiting id hid := Graph.reachable_of_mem_reversePostorder hid
  reached id h := by simp [start] at h
  fed id h := by simp [start] at h
  lastRun id block _ h := by simp [start] at h
  reported id h := by simp [start] at h

/-- A turn that finds nothing to do keeps the invariant: nothing flows into its block, so the
block has not been computed. -/
theorem Settled.idle (h : Settled engine g config initial p) (hp : p.worklist = id :: rest)
    (hidle : ∀ block, g.block? id = some block →
      g.joinPredecessors p.outputs initial block = none) :
    Settled engine g config initial (taken p rest) where
  recorded_eq := h.recorded_eq
  waiting other hother := h.waiting other (hp ▸ List.mem_cons_of_mem _ hother)
  reached := h.reached
  fed := h.fed
  lastRun other block hother hout hblock := by
    by_cases hid : other = id
    · subst hid
      obtain ⟨source, hsource, hfed⟩ := h.fed other hout
      rw [hidle source hsource] at hfed
      cases hfed
    · have hwaiting : other ∉ p.worklist := by
        rw [hp]
        exact fun hmem => (List.mem_cons.1 hmem).elim hid hother
      obtain ⟨values, joined, input, run, hrun⟩ := h.lastRun other block hwaiting hout hblock
      exact ⟨values, joined, input, run, hrun.joined_eq, hrun.input_eq, hrun.run_eq,
        hrun.output_eq, hrun.own, hrun.near, hrun.seen⟩
  reported other hout := by
    obtain ⟨input, block, values, run, hinput, hrun⟩ := h.reported other hout
    exact ⟨input, block, values, run, hinput, hrun.block_eq, hrun.run_eq, hrun.output_eq,
      hrun.own⟩

section Run

variable {block : Block} {joined : Store} {run : BlockRun}

private theorem Settled.fed_ran (h : Settled engine g config initial p)
    (hr : Runs engine g config initial (taken p rest) id block joined run) (input : Store)
    {other : BlockId}
    (hother : ((settle (taken p rest) id block input run).outputs.get? other).isSome) :
    ∃ source, g.block? other = some source ∧ (g.joinPredecessors
      (settle (taken p rest) id block input run).outputs initial source).isSome := by
  have hgrow : ∀ source : Block, (g.joinPredecessors p.outputs initial source).isSome →
      (g.joinPredecessors (settle (taken p rest) id block input run).outputs initial
        source).isSome := by
    intro source hsource
    rw [Graph.isSome_joinPredecessors] at hsource ⊢
    refine hsource.imp_right ?_
    rintro ⟨q, hq, hout, hb⟩
    exact ⟨q, hq, isSome_settle_outputs hout, hb⟩
  by_cases hid : other = id
  · subst hid
    have hjoined : g.joinPredecessors p.outputs initial block = some joined := hr.joined_eq
    exact ⟨block, hr.block_eq, hgrow block (by rw [hjoined]; rfl)⟩
  · rw [settle_outputs, if_neg fun he => hid he.1] at hother
    obtain ⟨source, hsource, hfed⟩ := h.fed other hother
    exact ⟨source, hsource, hgrow source hfed⟩

private theorem Settled.lastRun_ran (hg : g.Mirrored) (h : Settled engine g config initial p)
    (hp : p.worklist = id :: rest)
    (hr : Runs engine g config initial (taken p rest) id block joined run)
    {other : BlockId} {source : Block}
    (hwaiting : other ∉ (settle (taken p rest) id block
      (widenedInput config (taken p rest) id joined) run).worklist)
    (hout : ((settle (taken p rest) id block
      (widenedInput config (taken p rest) id joined) run).outputs.get? other).isSome)
    (hsource : g.block? other = some source) :
    ∃ values joined' input run', LastRun engine g config initial
      (settle (taken p rest) id block (widenedInput config (taken p rest) id joined) run)
      other source values joined' input run' := by
  rw [mem_settle_worklist, not_or] at hwaiting
  -- Had the run woken `source`, its block would be waiting now.
  have hquiet : wakes (taken p rest) id run = true → id ∉ source.predecessors := by
    intro hw hmem
    rw [← Graph.predecessors_of_block? hsource] at hmem
    have hsucc := (hg id other).2 hmem
    rw [Graph.successors_of_block? hr.block_eq] at hsucc
    exact hwaiting.2 ⟨hw, hsucc⟩
  by_cases hid : other = id
  · subst hid
    obtain rfl : block = source := Option.some.inj (hr.block_eq.symm.trans hsource)
    exact ⟨_, _, _, _, hr.lastRun h.recorded_eq hquiet⟩
  · have hbefore : other ∉ p.worklist := by
      rw [hp]
      exact fun hmem => (List.mem_cons.1 hmem).elim hid hwaiting.1
    rw [settle_outputs, if_neg fun he => hid he.1] at hout
    obtain ⟨values, joined', input, run', hlast⟩ := h.lastRun other source hbefore hout hsource
    have hlast' : LastRun engine g config initial (taken p rest) other source values joined'
        input run' :=
      ⟨hlast.joined_eq, hlast.input_eq, hlast.run_eq, hlast.output_eq, hlast.own, hlast.near,
        hlast.seen⟩
    exact ⟨_, _, _, _, hlast'.settle_other (fun he => hid he.symm) hr _ hquiet⟩

private theorem Settled.reported_ran (h : Settled engine g config initial p)
    (hr : Runs engine g config initial (taken p rest) id block joined run) {other : BlockId}
    (hout : ((settle (taken p rest) id block
      (widenedInput config (taken p rest) id joined) run).outputs.get? other).isSome) :
    ∃ input source values run', (settle (taken p rest) id block
        (widenedInput config (taken p rest) id joined) run).inputs.get? other = some input ∧
      ReportedRun engine g (settle (taken p rest) id block
        (widenedInput config (taken p rest) id joined) run) other input source values run' := by
  by_cases hfresh : other = id ∧ wakes (taken p rest) id run = true
  · obtain ⟨rfl, hw⟩ := hfresh
    refine ⟨_, block, p.values, run, ?_, hr.block_eq, hr.run_eq, ?_, fun n _ => ?_⟩
    · rw [settle_inputs, if_pos ⟨rfl, Or.inl hw⟩]
    · rw [settle_outputs, if_pos ⟨rfl, hw⟩]
    · rw [settle_values]
  · rw [settle_outputs, if_neg hfresh] at hout
    obtain ⟨input, source, values, run', hinput, hrun⟩ := h.reported other hout
    refine ⟨input, source, values, run', ?_, hrun.block_eq, hrun.run_eq, ?_, fun n hn => ?_⟩
    · have hstale : ¬(other = id ∧ (wakes (taken p rest) id run = true ∨
          (taken p rest).inputs.get? id = none)) := by
        rintro ⟨rfl, hw | hnone⟩
        · exact hfresh ⟨rfl, hw⟩
        · rw [show (taken p rest).inputs.get? other = some input from hinput] at hnone
          cases hnone
      rw [settle_inputs, if_neg hstale]
      exact hinput
    · rw [settle_outputs, if_neg hfresh]
      exact hrun.output_eq
    · rw [settle_values, hrun.own n hn]
      by_cases hid : other = id
      · have hw : wakes (taken p rest) id run = false :=
          Bool.eq_false_iff.2 fun hw => hfresh ⟨hid, hw⟩
        exact (runNodes_get?_of_unchanged hr.run_eq (wakes_eq_false.1 hw).1 n).symm
      · exact (hr.get?_of_heldOnlyBy hn fun he => hid he.symm).symm

/-- A run of the block taken off the worklist keeps the invariant. -/
theorem Settled.ran (hg : g.Mirrored) (h : Settled engine g config initial p)
    (hp : p.worklist = id :: rest)
    (hr : Runs engine g config initial (taken p rest) id block joined run) :
    Settled engine g config initial
      (settle (taken p rest) id block (widenedInput config (taken p rest) id joined) run) := by
  have hreach : g.Reachable id := h.waiting id (hp ▸ List.mem_cons_self)
  constructor
  case recorded_eq =>
    intro n
    rw [settle_visits, settle_values]
    exact hr.recorded h.recorded_eq n
  case waiting =>
    intro other hother
    rcases mem_settle_worklist.1 hother with hrest | ⟨_, hsucc⟩
    · exact h.waiting other (hp ▸ List.mem_cons_of_mem _ hrest)
    · rw [← Graph.successors_of_block? hr.block_eq] at hsucc
      exact hreach.step hsucc
  case reached =>
    intro other hother
    rw [settle_outputs] at hother
    split at hother
    · next hid => exact hid.1 ▸ hreach
    · exact h.reached other hother
  case fed => exact fun other hother => h.fed_ran hr _ hother
  case lastRun =>
    exact fun other source hwaiting hout hsource =>
      h.lastRun_ran hg hp hr hwaiting hout hsource
  case reported => exact fun other hout => h.reported_ran hr hout

end Run

theorem Settled.turn (hg : g.Mirrored) {p' : Progress} (hp : p.worklist = id :: rest)
    (h : Settled engine g config initial p)
    (hstep : engine.step g config initial (taken p rest) id = .ok p') :
    Settled engine g config initial p' := by
  rcases step_cases hstep with ⟨rfl, hidle⟩ | ⟨block, joined, run, hr, rfl⟩
  · exact h.idle hp hidle
  · exact h.ran hg hp hr

/-- When the loop has emptied its worklist, every computed block is settled. -/
theorem settled_of_converged (hg : g.Mirrored) {limit : Nat} {p : Progress}
    (h : engine.iterate g config initial limit (start g log) = .ok (p, true)) :
    Settled engine g config initial p ∧ p.worklist = [] :=
  iterate_converged (Settled engine g config initial)
    (fun _ _ _ _ hp hinv hstep => hinv.turn hg hp hstep) (settled_start log) h

theorem settled_of_solve (hg : g.Mirrored) {sol : Solution}
    (h : engine.solve g config = .ok sol) (hc : sol.converged = true) :
    ∃ initial log p, engine.entryStore g.code g.parameters = .ok (initial, log) ∧
      Settled engine g config initial p ∧ p.worklist = [] ∧ sol.inputs = p.inputs ∧
      sol.outputs = p.outputs ∧ sol.values = p.values ∧ sol.visits = p.visits := by
  obtain ⟨initial, log, p, hentry, hiter, hsol⟩ := solve_converged h hc
  obtain ⟨hsettled, hnil⟩ := settled_of_converged hg hiter
  exact ⟨initial, log, p, hentry, hsettled, hnil, hsol⟩

end Invariant

end Engine

end FlowTyping
