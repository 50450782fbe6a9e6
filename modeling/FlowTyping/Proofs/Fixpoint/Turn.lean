import FlowTyping.Proofs.Fixpoint.Run

/-!
# Turns of the worklist

What one turn of the loop does to the progress made so far, and how an invariant of the turns
carries over to a run that empties its worklist.
-/

namespace FlowTyping

namespace Engine

variable {engine : Engine} {g : Graph} {config : Config} {initial : Store}

theorem mem_newcomers {worklist successors : List BlockId} {id : BlockId} :
    id ∈ worklist ++ newcomers worklist successors ↔ id ∈ worklist ∨ id ∈ successors := by
  suffices h : ∀ fresh : List BlockId,
      id ∈ worklist ++ successors.foldl
        (fun fresh s => if s ∈ worklist ++ fresh then fresh else fresh ++ [s]) fresh ↔
      (id ∈ worklist ∨ id ∈ fresh) ∨ id ∈ successors by
    simpa [newcomers] using h []
  induction successors with
  | nil => simp
  | cons s successors ih =>
    intro fresh
    rw [List.foldl_cons, ih]
    split
    · next hs =>
      have hmem : s ∈ worklist ∨ s ∈ fresh := List.mem_append.1 hs
      refine ⟨fun h => h.imp_right (List.mem_cons_of_mem _), fun h => ?_⟩
      rcases h with h | h
      · exact Or.inl h
      · rcases List.mem_cons.1 h with rfl | h
        · exact Or.inl hmem
        · exact Or.inr h
    · simp only [List.mem_append, List.mem_cons]
      tauto

/-- Whether a run of a block changes what later blocks see. -/
def wakes (p : Progress) (id : BlockId) (run : BlockRun) : Bool :=
  run.changed || !match p.outputs.get? id with
    | some old => old.agrees run.stores
    | none => false

section Settle

variable {p : Progress} {id : BlockId} {block : Block} {input : Store} {run : BlockRun}

theorem wakes_eq_false : wakes p id run = false ↔
    run.changed = false ∧ ∃ old, p.outputs.get? id = some old ∧ old.agrees run.stores = true := by
  rw [wakes]
  cases p.outputs.get? id <;> simp

/-- The parts of the progress that every run of a block extends. -/
def counted (p : Progress) (id : BlockId) (run : BlockRun) : Progress :=
  { p with
    values := run.values
    runs := p.runs.insert id ((p.runs.get? id).getD 0 + 1)
    log := p.log ++ run.log
    visits := p.visits ++ run.visits }

theorem settle_of_wakes (h : wakes p id run = true) :
    settle p id block input run =
      { counted p id run with
        inputs := p.inputs.insert id input
        outputs := p.outputs.insert id run.stores
        worklist := p.worklist ++ newcomers p.worklist block.successors } :=
  if_pos h

theorem settle_of_not_wakes (h : ¬wakes p id run = true) :
    settle p id block input run =
      if p.inputs.contains id then counted p id run
      else { counted p id run with inputs := p.inputs.insert id input } :=
  if_neg h

@[simp] theorem settle_values : (settle p id block input run).values = run.values := by
  by_cases hw : wakes p id run = true
  · rw [settle_of_wakes hw, counted]
  · rw [settle_of_not_wakes hw]
    split <;> rfl

@[simp] theorem settle_visits :
    (settle p id block input run).visits = p.visits ++ run.visits := by
  by_cases hw : wakes p id run = true
  · rw [settle_of_wakes hw, counted]
  · rw [settle_of_not_wakes hw]
    split <;> rfl

@[simp] theorem settle_log : (settle p id block input run).log = p.log ++ run.log := by
  by_cases hw : wakes p id run = true
  · rw [settle_of_wakes hw, counted]
  · rw [settle_of_not_wakes hw]
    split <;> rfl

theorem settle_runs (other : BlockId) :
    (settle p id block input run).runs.get? other =
      if other = id then some ((p.runs.get? id).getD 0 + 1) else p.runs.get? other := by
  by_cases hw : wakes p id run = true
  · rw [settle_of_wakes hw, counted, FinMap.get?_insert]
  · rw [settle_of_not_wakes hw]
    split <;> rw [counted, FinMap.get?_insert]

theorem settle_worklist_of_not_wakes (h : ¬wakes p id run = true) :
    (settle p id block input run).worklist = p.worklist := by
  rw [settle_of_not_wakes h]
  split <;> rfl

theorem settle_outputs (other : BlockId) :
    (settle p id block input run).outputs.get? other =
      if other = id ∧ wakes p id run = true then some run.stores else p.outputs.get? other := by
  by_cases hw : wakes p id run = true
  · simp [settle_of_wakes hw, hw]
  · have hno : ¬(other = id ∧ wakes p id run = true) := fun h => hw h.2
    rw [settle_of_not_wakes hw, if_neg hno]
    split <;> rfl

theorem isSome_settle_outputs_iff {other : BlockId} :
    ((settle p id block input run).outputs.get? other).isSome ↔
      other = id ∨ (p.outputs.get? other).isSome := by
  rw [settle_outputs]
  by_cases hid : other = id
  · subst hid
    by_cases hw : wakes p other run = true
    · simp [hw]
    · obtain ⟨old, hold, -⟩ := (wakes_eq_false.1 (Bool.eq_false_iff.2 hw)).2
      simp [hw, hold]
  · simp [hid]

theorem settle_inputs (other : BlockId) :
    (settle p id block input run).inputs.get? other =
      if other = id ∧ (wakes p id run = true ∨ p.inputs.get? id = none) then some input
      else p.inputs.get? other := by
  by_cases hw : wakes p id run = true
  · simp [settle_of_wakes hw, hw]
  · rw [settle_of_not_wakes hw, FinMap.contains]
    cases hi : p.inputs.get? id <;> simp [hw, counted]

theorem mem_settle_worklist {other : BlockId} :
    other ∈ (settle p id block input run).worklist ↔
      other ∈ p.worklist ∨ wakes p id run = true ∧ other ∈ block.successors := by
  by_cases hw : wakes p id run = true
  · rw [settle_of_wakes hw, mem_newcomers]
    simp [hw]
  · rw [settle_of_not_wakes hw]
    split <;> simp [hw, counted]

end Settle

/-- The block exists, something flows into it, and `run` is what running it gives. -/
structure Runs (engine : Engine) (g : Graph) (config : Config) (initial : Store) (p : Progress)
    (id : BlockId) (block : Block) (joined : Store) (run : BlockRun) : Prop where
  block_eq : g.block? id = some block
  joined_eq : g.joinPredecessors p.outputs initial block = some joined
  run_eq : engine.runBlock g p.values block.nodes (widenedInput config p id joined) = .ok run

/-- A turn finds nothing to do at a block, or it runs the block. -/
theorem step_cases {p p' : Progress} {id : BlockId}
    (h : engine.step g config initial p id = .ok p') :
    (p' = p ∧ ∀ block, g.block? id = some block →
      g.joinPredecessors p.outputs initial block = none) ∨
    ∃ block joined run, Runs engine g config initial p id block joined run ∧
      p' = settle p id block (widenedInput config p id joined) run := by
  rw [step] at h
  cases hb : g.block? id with
  | none =>
    simp only [hb, Except.ok.injEq] at h
    exact Or.inl ⟨h.symm, fun block hblock => by cases hblock⟩
  | some block =>
    cases hj : g.joinPredecessors p.outputs initial block with
    | none =>
      simp only [hb, hj, Except.ok.injEq] at h
      refine Or.inl ⟨h.symm, fun block' hblock => ?_⟩
      cases hblock
      exact hj
    | some joined =>
      cases hr : engine.runBlock g p.values block.nodes (widenedInput config p id joined) with
      | error e => simp [hb, hj, hr] at h
      | ok run =>
        simp only [hb, hj, hr, Except.ok.injEq] at h
        exact Or.inr ⟨block, joined, run, ⟨hb, hj, hr⟩, h.symm⟩

/-- The progress after `id` has been taken off the worklist, which leaves `rest`. -/
def taken (p : Progress) (rest : List BlockId) : Progress :=
  { p with worklist := rest, iterations := p.iterations + 1 }

/-- What every turn preserves holds when the worklist is empty. -/
theorem iterate_converged (Inv : Progress → Prop)
    (hturn : ∀ p id rest p', p.worklist = id :: rest → Inv p →
      engine.step g config initial (taken p rest) id = .ok p' → Inv p')
    {limit : Nat} {p p' : Progress} (hp : Inv p)
    (h : engine.iterate g config initial limit p = .ok (p', true)) :
    Inv p' ∧ p'.worklist = [] := by
  induction limit generalizing p with
  | zero =>
    rw [iterate] at h
    split at h
    · next hnil =>
      cases h
      exact ⟨hp, hnil⟩
    · simp at h
  | succ limit ih =>
    rw [iterate] at h
    split at h
    · next hnil =>
      cases h
      exact ⟨hp, hnil⟩
    · next id rest hcons =>
      dsimp only at h
      split at h
      · cases h
      · next mid hstep => exact ih (hturn p id rest mid hcons hp hstep) h

/-- What every turn preserves, and dropping a waiting block too, holds when the run ends, whether
or not it converges. -/
theorem iterate_preserves (Inv : Progress → Prop)
    (hturn : ∀ p id rest p', p.worklist = id :: rest → Inv p →
      engine.step g config initial (taken p rest) id = .ok p' → Inv p')
    (hstop : ∀ p rest, Inv p → Inv { p with worklist := rest })
    {limit : Nat} {p p' : Progress} {converged : Bool} (hp : Inv p)
    (h : engine.iterate g config initial limit p = .ok (p', converged)) : Inv p' := by
  induction limit generalizing p with
  | zero =>
    rw [iterate] at h
    split at h
    · cases h
      exact hp
    · cases h
      exact hstop p _ hp
  | succ limit ih =>
    rw [iterate] at h
    split at h
    · cases h
      exact hp
    · next id rest hcons =>
      dsimp only at h
      split at h
      · cases h
      · next mid hstep => exact ih (hturn p id rest mid hcons hp hstep) h

/-- A solution is what the loop leaves. -/
theorem solve_eq_ok {sol : Solution} (h : engine.solve g config = .ok sol) :
    ∃ initial log p converged, engine.entryStore g.code g.parameters = .ok (initial, log) ∧
      engine.iterate g config initial config.maxIterations (start g log) = .ok (p, converged) ∧
      sol = ⟨p.inputs, p.outputs, p.values, p.iterations, converged, p.log, p.visits⟩ := by
  rw [solve] at h
  cases hcheck : g.check with
  | error e => simp [hcheck, bind, Except.bind] at h
  | ok _ =>
    cases hentry : engine.entryStore g.code g.parameters with
    | error e => simp [hcheck, hentry, bind, Except.bind] at h
    | ok seed =>
      obtain ⟨initial, log⟩ := seed
      cases hiter : engine.iterate g config initial config.maxIterations (start g log) with
      | error e => simp [hcheck, hentry, hiter, bind, Except.bind] at h
      | ok result =>
        obtain ⟨p, converged⟩ := result
        simp only [hcheck, hentry, hiter, bind, Except.bind, pure, Except.pure,
          Except.ok.injEq] at h
        exact ⟨initial, log, p, converged, rfl, hiter, h.symm⟩

theorem solve_converged {sol : Solution} (h : engine.solve g config = .ok sol)
    (hc : sol.converged = true) :
    ∃ initial log p, engine.entryStore g.code g.parameters = .ok (initial, log) ∧
      engine.iterate g config initial config.maxIterations (start g log) = .ok (p, true) ∧
      sol.inputs = p.inputs ∧ sol.outputs = p.outputs ∧ sol.values = p.values ∧
      sol.visits = p.visits := by
  obtain ⟨initial, log, p, converged, hentry, hiter, rfl⟩ := solve_eq_ok h
  obtain rfl : converged = true := hc
  exact ⟨initial, log, p, hentry, hiter, rfl, rfl, rfl, rfl⟩

end Engine

end FlowTyping
