import FlowTyping.Proofs.Fixpoint.Termination

/-!
# Runs and their logs

Nothing that a run looks at depends on its log. So an engine that leaves some sightings out of its
logs runs as before, and the solution it finds leaves out the same sightings.
-/

namespace FlowTyping

namespace Log

def retain (keep : Sighting → Bool) (log : Log) : Log :=
  { log with sightings := log.sightings.filter keep }

variable {keep : Sighting → Bool}

@[simp] theorem retain_append (a b : Log) :
    (a ++ b).retain keep = a.retain keep ++ b.retain keep :=
  congrArg (Log.mk _) (List.filter_append _ _)

@[simp] theorem retain_empty : empty.retain keep = empty := rfl

@[simp] theorem retain_ofDiagnostics (ds : List Diagnostic) :
    (ofDiagnostics ds).retain keep = ofDiagnostics ds := rfl

end Log

def BlockRun.retain (keep : Sighting → Bool) (run : BlockRun) : BlockRun :=
  { run with log := run.log.retain keep }

def Progress.retain (keep : Sighting → Bool) (p : Progress) : Progress :=
  { p with log := p.log.retain keep }

def Solution.retain (keep : Sighting → Bool) (sol : Solution) : Solution :=
  { sol with log := sol.log.retain keep }

def Solution.unobserved (sol : Solution) : Solution :=
  { sol with log := .ofDiagnostics sol.log.diagnostics }

namespace Engine

/-- The engine whose logs leave out the sightings that fail a test. -/
def retain (keep : Sighting → Bool) (engine : Engine) : Engine where
  entryStore code parameters :=
    (engine.entryStore code parameters).map fun seed => (seed.1, seed.2.retain keep)
  visit g values node stores :=
    ((engine.visit g values node stores).1, (engine.visit g values node stores).2.retain keep)

variable {engine : Engine} {g : Graph} {config : Config} {initial : Store} {keep : Sighting → Bool}

@[simp] theorem visit_retain (values : NodeValues) (node : Node) (stores : Stores) :
    (engine.retain keep).visit g values node stores =
      ((engine.visit g values node stores).1, (engine.visit g values node stores).2.retain keep) :=
  rfl

theorem runNode_retain (run : BlockRun) (id : NodeId) :
    (engine.retain keep).runNode g (run.retain keep) id =
      (engine.runNode g run id).map (·.retain keep) := by
  unfold runNode
  cases g.node? id with
  | none => rfl
  | some node =>
    simp only [visit_retain, BlockRun.retain, Except.map, Log.retain_append]
    rfl

theorem runNodes_retain (ids : List NodeId) (run : BlockRun) :
    (engine.retain keep).runNodes g (run.retain keep) ids =
      (engine.runNodes g run ids).map (·.retain keep) := by
  induction ids generalizing run with
  | nil => rfl
  | cons id ids ih =>
    rw [runNodes, runNodes, List.foldlM_cons, List.foldlM_cons, runNode_retain]
    cases engine.runNode g run id with
    | error e => rfl
    | ok run' => exact ih run'

theorem runBlock_retain (values : NodeValues) (ids : List NodeId) (input : Store) :
    (engine.retain keep).runBlock g values ids input =
      (engine.runBlock g values ids input).map (·.retain keep) :=
  runNodes_retain ids ⟨.regular input, values, false, .empty, []⟩

theorem settle_retain (p : Progress) (id : BlockId) (block : Block) (input : Store)
    (run : BlockRun) :
    settle (p.retain keep) id block input (run.retain keep) =
      (settle p id block input run).retain keep := by
  have hsame : wakes (p.retain keep) id (run.retain keep) = wakes p id run := rfl
  by_cases hw : wakes p id run = true
  · rw [settle_of_wakes hw, settle_of_wakes (hsame.trans hw)]
    simp only [counted, Progress.retain, BlockRun.retain, Log.retain_append]
  · rw [settle_of_not_wakes hw, settle_of_not_wakes (hsame ▸ hw)]
    rw [show (p.retain keep).inputs = p.inputs from rfl]
    split <;> simp only [counted, Progress.retain, BlockRun.retain, Log.retain_append]

theorem step_retain (p : Progress) (id : BlockId) :
    (engine.retain keep).step g config initial (p.retain keep) id =
      (engine.step g config initial p id).map (·.retain keep) := by
  unfold step
  cases g.block? id with
  | none => rfl
  | some block =>
    have hjoined : g.joinPredecessors (p.retain keep).outputs initial block =
      g.joinPredecessors p.outputs initial block := rfl
    simp only [hjoined]
    cases g.joinPredecessors p.outputs initial block with
    | none => rfl
    | some joined =>
      have hrun : (engine.retain keep).runBlock g (p.retain keep).values block.nodes
          (widenedInput config (p.retain keep) id joined) = _ :=
        runBlock_retain p.values block.nodes (widenedInput config p id joined)
      simp only [hrun]
      cases engine.runBlock g p.values block.nodes (widenedInput config p id joined) with
      | error e => rfl
      | ok run => exact congrArg Except.ok (settle_retain p id block _ run)

theorem iterate_succ {limit : Nat} {p : Progress} {id : BlockId} {rest : List BlockId}
    (hlist : p.worklist = id :: rest) :
    engine.iterate g config initial (limit + 1) p =
      (engine.step g config initial (taken p rest) id).bind
        (engine.iterate g config initial limit) := by
  rw [iterate]
  simp only [hlist, taken]
  cases engine.step g config initial _ id <;> rfl

theorem iterate_retain (limit : Nat) (p : Progress) :
    (engine.retain keep).iterate g config initial limit (p.retain keep) =
      (engine.iterate g config initial limit p).map fun result =>
        (result.1.retain keep, result.2) := by
  induction limit generalizing p with
  | zero =>
    rw [iterate, iterate, show (p.retain keep).worklist = p.worklist from rfl]
    cases p.worklist <;> rfl
  | succ limit ih =>
    cases hlist : p.worklist with
    | nil =>
      rw [iterate, iterate, show (p.retain keep).worklist = p.worklist from rfl, hlist]
      rfl
    | cons id rest =>
      have hlist' : (p.retain keep).worklist = id :: rest := hlist
      rw [iterate_succ hlist, iterate_succ hlist',
        show taken (p.retain keep) rest = (taken p rest).retain keep from rfl, step_retain]
      cases engine.step g config initial (taken p rest) id with
      | error e => rfl
      | ok p' => exact ih p'

/-- Nothing that a run looks at depends on what is observed. -/
theorem solve_retain :
    (engine.retain keep).solve g config = (engine.solve g config).map (·.retain keep) := by
  have hseed : (engine.retain keep).entryStore g.code g.parameters =
    (engine.entryStore g.code g.parameters).map fun seed => (seed.1, seed.2.retain keep) := rfl
  unfold solve
  rw [hseed]
  cases g.check with
  | error e => rfl
  | ok _ =>
    cases engine.entryStore g.code g.parameters with
    | error e => rfl
    | ok seed =>
      have hiter : (engine.retain keep).iterate g config seed.1 config.maxIterations
          (start g (seed.2.retain keep)) = _ := iterate_retain _ (start g seed.2)
      simp only [bind, Except.bind, Except.map, hiter]
      cases engine.iterate g config seed.1 config.maxIterations (start g seed.2) <;> rfl

theorem solve_congr {config' : Config} (hwiden : config.widenAfter = config'.widenAfter)
    (hlimit : config.maxIterations = config'.maxIterations) :
    engine.solve g config = engine.solve g config' := by
  unfold solve
  rw [hlimit]
  simp only [iterate_congr hwiden]

theorem iterate_total (hcheck : g.check = .ok ()) (limit : Nat) (p : Progress) :
    ∃ result, engine.iterate g config initial limit p = .ok result := by
  induction limit generalizing p with
  | zero =>
    rw [iterate]
    cases p.worklist with
    | nil => exact ⟨_, rfl⟩
    | cons id rest => exact ⟨_, rfl⟩
  | succ limit ih =>
    cases hlist : p.worklist with
    | nil => exact ⟨(p, true), by rw [iterate]; simp only [hlist]⟩
    | cons id rest =>
      obtain ⟨p', hstep⟩ :
          ∃ p', engine.step g config initial (taken p rest) id = .ok p' :=
        step_total hcheck (taken p rest) id
      rw [iterate_cons hlist hstep]
      exact ih p'

/-- A run that fails does so before it visits a node. -/
theorem solve_eq_error {e : FlowError} (h : engine.solve g config = .error e) :
    g.check = .error e ∨ engine.entryStore g.code g.parameters = .error e := by
  rw [solve] at h
  cases hcheck : g.check with
  | error e' => exact Or.inl (by simpa [hcheck, bind, Except.bind] using h)
  | ok _ =>
    cases hentry : engine.entryStore g.code g.parameters with
    | error e' => exact Or.inr (by simpa [hcheck, hentry, bind, Except.bind] using h)
    | ok seed =>
      obtain ⟨result, hresult⟩ :
          ∃ result, engine.iterate g config seed.1 config.maxIterations (start g seed.2) =
            .ok result := iterate_total hcheck _ _
      simp [hcheck, hentry, hresult, bind, Except.bind, pure, Except.pure] at h

end Engine

end FlowTyping
