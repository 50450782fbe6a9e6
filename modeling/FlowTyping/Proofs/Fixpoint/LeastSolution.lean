import FlowTyping.Proofs.Fixpoint.Settled
import FlowTyping.Proofs.Store.Assignment

/-!
# Least solutions

When the runs of each block amount to a monotone function of its entry store, a converged run
solves the equations that give each output from the join of what flows into its block. Without
widening its outputs are the least solution: they stay at most any other solution during the
whole run.
-/

namespace FlowTyping

namespace Graph

/-- Each reachable block has as output what `T` makes of the join of what flows into it. -/
def SatisfiesEquations (g : Graph) (T : BlockId → Store → Stores) (initial : Store)
    (outputs : FinMap BlockId Stores) : Prop :=
  ∀ id block, g.Reachable id → g.block? id = some block →
    match g.joinPredecessors outputs initial block with
    | none => outputs.get? id = none
    | some joined => ∃ out, outputs.get? id = some out ∧ out.agrees (T id joined) = true

/-- A family of outputs, all of one semantics, that satisfies the equations of a graph. -/
structure Solves (g : Graph) (T : BlockId → Store → Stores) (initial : Store)
    (outputs : FinMap BlockId Stores) : Prop where
  equation : g.SatisfiesEquations T initial outputs
  uniform : ∃ flag, OutputsHaveFlag outputs flag

end Graph

/-- The runs of each block amount to a function of the entry store that keeps the semantics and
is monotone, whatever node values they find. -/
structure Engine.HasTransfer (engine : Engine) (g : Graph) (T : BlockId → Store → Stores) :
    Prop where
  run : ∀ id block, g.block? id = some block → ∀ values s run,
    engine.runBlock g values block.nodes s = .ok run → run.stores.agrees (T id s) = true
  congr : ∀ id s t, s.agrees t = true → (T id s).agrees (T id t) = true
  flag : ∀ id s, (T id s).HasFlag s.sequential
  mono : ∀ id s t, s.Below t → (T id s).Below (T id t)

namespace Engine

variable {engine : Engine} {g : Graph} {config : Config} {initial : Store}
  {T : BlockId → Store → Stores}

theorem HasTransfer.atMost (hT : engine.HasTransfer g T) (id : BlockId) {s t : Store}
    (h : s.AtMost t) : (T id s).AtMost (T id t) :=
  h.imp (hT.congr id s t) (hT.mono id s t)

/-- The semantics of a solution is that of the initial store, which flows into the entry. -/
theorem HasTransfer.solution_hasFlag (hT : engine.HasTransfer g T) (hn : g.Numbered)
    {outputs : FinMap BlockId Stores} (h : g.Solves T initial outputs)
    (hentry : (g.block? g.entry).isSome) :
    Graph.OutputsHaveFlag outputs initial.sequential := by
  obtain ⟨flag, hflag⟩ := h.uniform
  obtain ⟨block, hblock⟩ := Option.isSome_iff_exists.1 hentry
  have heq := h.equation g.entry block .entry hblock
  rw [Graph.joinPredecessors, if_pos (hn g.entry block hblock)] at heq
  obtain ⟨out, hout, hagree⟩ := heq
  have hthen := ((hT.flag g.entry _).of_agrees hagree).1
  rw [Graph.sequential_foldl_lub] at hthen
  rw [← hthen, (hflag g.entry out hout).1]
  exact hflag

/-- Every block into which something flows has been computed or is waiting. -/
def Answered (g : Graph) (initial : Store) (p : Progress) : Prop :=
  ∀ id block, id ∉ p.worklist → g.block? id = some block →
    (g.joinPredecessors p.outputs initial block).isSome → (p.outputs.get? id).isSome

theorem answered_start (hn : g.Numbered) (log : Log) : Answered g initial (start g log) := by
  intro id block hid hblock hjoin
  rw [Graph.isSome_joinPredecessors] at hjoin
  rcases hjoin with hentry | ⟨q, -, hout, -⟩
  · have heq : id = g.entry := (hn id block hblock).symm.trans hentry
    exact absurd (heq ▸ g.entry_mem_reversePostorder) hid
  · simp [start] at hout

theorem Answered.turn (hg : g.Mirrored) {p p' : Progress} {id : BlockId} {rest : List BlockId}
    (hp : p.worklist = id :: rest) (h : Answered g initial p)
    (hstep : engine.step g config initial (taken p rest) id = .ok p') :
    Answered g initial p' := by
  have hwaiting : ∀ other, other ≠ id → other ∉ rest → other ∉ p.worklist := by
    intro other hne hrest
    rw [hp]
    exact fun hmem => (List.mem_cons.1 hmem).elim hne hrest
  rcases step_cases hstep with ⟨rfl, hidle⟩ | ⟨block, joined, run, hr, rfl⟩
  · intro other source hother hsource hjoin
    by_cases hid : other = id
    · subst hid
      rw [hidle source hsource] at hjoin
      cases hjoin
    · exact h other source (hwaiting other hid hother) hsource hjoin
  · intro other source hother hsource hjoin
    rw [mem_settle_worklist, not_or] at hother
    by_cases hid : other = id
    · subst hid
      by_cases hw : wakes (taken p rest) other run = true
      · rw [settle_outputs, if_pos ⟨rfl, hw⟩]
        rfl
      · obtain ⟨old, hold, -⟩ := (wakes_eq_false.1 (Bool.eq_false_iff.2 hw)).2
        exact isSome_settle_outputs (by rw [hold]; rfl)
    · have hquiet : wakes (taken p rest) id run = true → id ∉ source.predecessors := by
        intro hw hmem
        rw [← Graph.predecessors_of_block? hsource] at hmem
        refine hother.2 ⟨hw, ?_⟩
        rw [← Graph.successors_of_block? hr.block_eq]
        exact (hg id other).2 hmem
      rw [joinPredecessors_settle hquiet] at hjoin
      exact isSome_settle_outputs (h other source (hwaiting other hid hother.1) hsource hjoin)

/-- When nothing waits, every reachable block has been computed. -/
theorem Answered.isSome_outputs (hg : g.Mirrored) (hn : g.Numbered) {p : Progress}
    (h : Answered g initial p) (hnil : p.worklist = []) {id : BlockId} (hid : g.Reachable id)
    (hblock : (g.block? id).isSome) : (p.outputs.get? id).isSome := by
  have hoff : ∀ id, id ∉ p.worklist := by simp [hnil]
  revert hblock
  refine hid.induct (P := fun id => (g.block? id).isSome → (p.outputs.get? id).isSome) ?_ ?_
  · intro hentry
    obtain ⟨block, hblock⟩ := Option.isSome_iff_exists.1 hentry
    refine h g.entry block (hoff _) hblock ?_
    rw [Graph.isSome_joinPredecessors]
    exact Or.inl (hn g.entry block hblock)
  · intro u v _ hu hv hsome
    obtain ⟨block, hblock⟩ := Option.isSome_iff_exists.1 hsome
    have hsource := Graph.isSome_block?_of_successors hv
    refine h v block (hoff _) hblock ?_
    rw [Graph.isSome_joinPredecessors]
    refine Or.inr ⟨u, ?_, hu hsource, hsource⟩
    rw [← Graph.predecessors_of_block? hblock]
    exact (hg u v).1 hv

theorem HasTransfer.hasFlag_turn (hT : engine.HasTransfer g T) {p p' : Progress} {id : BlockId}
    (h : Graph.OutputsHaveFlag p.outputs initial.sequential)
    (hstep : engine.step g config initial p id = .ok p') :
    Graph.OutputsHaveFlag p'.outputs initial.sequential := by
  rcases step_cases hstep with ⟨rfl, -⟩ | ⟨block, joined, run, hr, rfl⟩
  · exact h
  · intro other out hout
    rw [settle_outputs] at hout
    split at hout
    · cases hout
      have hjoined : joined.sequential = initial.sequential :=
        Graph.sequential_joinPredecessors rfl h hr.joined_eq
      have hinput : (widenedInput config p id joined).sequential = initial.sequential := by
        rcases widenedInput_eq config p id joined with heq | ⟨-, previous, heq⟩
        · rw [heq, hjoined]
        · rw [heq, ← hjoined]
          rfl
      have hagree := hT.run id block hr.block_eq _ _ _ hr.run_eq
      have hrunFlag := (hT.flag id (widenedInput config p id joined)).of_agrees hagree
      rw [hinput] at hrunFlag
      exact hrunFlag
    · exact h other out hout

/-- Without widening, a turn keeps the outputs at most a given solution. -/
theorem HasTransfer.atMost_turn (hT : engine.HasTransfer g T) (hn : g.Numbered)
    (hw : config.widenAfter = none) {solution : FinMap BlockId Stores}
    (hs : g.Solves T initial solution) {p p' : Progress} {id : BlockId} (hid : g.Reachable id)
    (h : Graph.OutputsAtMost p.outputs solution)
    (hstep : engine.step g config initial p id = .ok p') :
    Graph.OutputsAtMost p'.outputs solution := by
  rcases step_cases hstep with ⟨rfl, -⟩ | ⟨block, joined, run, hr, rfl⟩
  · exact h
  · intro other out hout
    rw [settle_outputs] at hout
    split at hout
    · next heq =>
      cases hout
      obtain ⟨rfl, -⟩ := heq
      have hentry := hid.isSome_entry (by rw [hr.block_eq]; rfl)
      obtain ⟨joined', hjoined', hle⟩ := Graph.joinPredecessors_atMost rfl
        (hT.solution_hasFlag hn hs hentry) h hr.joined_eq
      have hequation := hs.equation other block hid hr.block_eq
      rw [hjoined'] at hequation
      obtain ⟨out', hout', hagree'⟩ := hequation
      have hinput : widenedInput config p other joined = joined :=
        (widenedInput_eq config p other joined).resolve_right fun hwide => hwide.1 hw
      have hagree := hT.run other block hr.block_eq _ _ _ hr.run_eq
      rw [hinput] at hagree
      exact ⟨out', hout', (hT.atMost other hle).of_agrees hagree (Stores.agrees_symm hagree')⟩
    · exact h other out hout

/-- The output of a block that does not wait is what the block makes of the join of what flows in,
which may have been widened. -/
theorem HasTransfer.output_eq (hT : engine.HasTransfer g T) {p : Progress}
    (hs : Settled engine g config initial p) {id : BlockId} {block : Block} {out : Stores}
    (hoff : id ∉ p.worklist) (hblock : g.block? id = some block)
    (hout : p.outputs.get? id = some out) :
    ∃ joined s, g.joinPredecessors p.outputs initial block = some joined ∧
      (s = joined ∨ config.widenAfter ≠ none ∧ ∃ previous, s = joined.widen previous) ∧
      out.agrees (T id s) = true := by
  obtain ⟨values, joined, input, run, hlast⟩ :=
    hs.lastRun id block hoff (by simp [hout]) hblock
  obtain ⟨out', hout', hagree⟩ := hlast.output_eq
  obtain rfl : out = out' := Option.some.inj (hout.symm.trans hout')
  have hrun := hT.run id block hblock values input run hlast.run_eq
  exact ⟨joined, input, hlast.joined_eq, hlast.input_eq, Stores.agrees_trans hagree hrun⟩

theorem Settled.reachable_of_isSome {p : Progress} (hs : Settled engine g config initial p)
    {id : BlockId} (h : (p.outputs.get? id).isSome) :
    g.Reachable id ∧ (g.block? id).isSome := by
  obtain ⟨block, hblock, -⟩ := hs.fed id h
  exact ⟨hs.reached id h, by simp [hblock]⟩

/-- If the runs of each block amount to a monotone function of its entry store, a converged run
has an output exactly at the blocks that are reachable, each output is what its block makes of a
store at or above the join of what flows in, and without widening the outputs are the least
solution. -/
theorem solve_least (hg : g.Mirrored) (hn : g.Numbered) (hT : engine.HasTransfer g T)
    {sol : Solution} (h : engine.solve g config = .ok sol) (hc : sol.converged = true) :
    ∃ initial log, engine.entryStore g.code g.parameters = .ok (initial, log) ∧
      (∀ id, (sol.outputs.get? id).isSome ↔ g.Reachable id ∧ (g.block? id).isSome) ∧
      (∀ id block out, g.block? id = some block → sol.outputs.get? id = some out →
        ∃ joined s, g.joinPredecessors sol.outputs initial block = some joined ∧
          joined.AtMost s ∧ out.agrees (T id s) = true) ∧
      (config.widenAfter = none → g.Solves T initial sol.outputs ∧
        ∀ other, g.Solves T initial other → Graph.OutputsAtMost sol.outputs other) := by
  obtain ⟨initial, log, p, hentry, hiter, -, hout, -, -⟩ := solve_converged h hc
  obtain ⟨hs, hnil⟩ := settled_of_converged hg hiter
  have hanswered : Answered g initial p :=
    (iterate_converged (Answered g initial)
      (fun _ _ _ _ hp hinv hstep => hinv.turn hg hp hstep) (answered_start hn log) hiter).1
  have hflags : Graph.OutputsHaveFlag p.outputs initial.sequential :=
    (iterate_converged (fun p => Graph.OutputsHaveFlag p.outputs initial.sequential)
      (fun p _ rest _ _ hinv hstep => hT.hasFlag_turn (p := taken p rest) hinv hstep)
      (fun _ _ hstart => by simp [start] at hstart) hiter).1
  have hoff : ∀ id, id ∉ p.worklist := by simp [hnil]
  have hcomputed : ∀ id, (p.outputs.get? id).isSome ↔ g.Reachable id ∧ (g.block? id).isSome :=
    fun _ => ⟨hs.reachable_of_isSome, fun hid => hanswered.isSome_outputs hg hn hnil hid.1 hid.2⟩
  rw [hout]
  refine ⟨initial, log, hentry, hcomputed, ?_, fun hw => ⟨⟨?_, _, hflags⟩, ?_⟩⟩
  · intro id block out hblock hidout
    obtain ⟨joined, s, hjoined, hinput, hagree⟩ := hT.output_eq hs (hoff id) hblock hidout
    refine ⟨joined, s, hjoined, ?_, hagree⟩
    rcases hinput with rfl | ⟨-, previous, rfl⟩
    · exact Or.inl (Store.agrees_refl _)
    · exact Or.inr (Store.below_lub_left joined previous)
  · intro id block hid hblock
    have hsome := (hcomputed id).2 ⟨hid, by simp [hblock]⟩
    obtain ⟨out, hidout⟩ := Option.isSome_iff_exists.1 hsome
    obtain ⟨joined, s, hjoined, hinput, hagree⟩ := hT.output_eq hs (hoff id) hblock hidout
    obtain rfl : s = joined := hinput.resolve_right fun hwide => hwide.1 hw
    rw [hjoined]
    exact ⟨out, hidout, hagree⟩
  · intro other hother
    exact (iterate_converged
      (fun p => Settled engine g config initial p ∧ Graph.OutputsAtMost p.outputs other)
      (fun p id rest _ hp hinv hstep => ⟨hinv.1.turn hg hp hstep,
        hT.atMost_turn (p := taken p rest) hn hw hother
          (hinv.1.waiting id (hp ▸ List.mem_cons_self)) hinv.2 hstep⟩)
      ⟨settled_start log, fun _ _ hstart => by simp [start] at hstart⟩ hiter).1.2

end Engine

namespace LeastSolution

private def leaf : Ty := .declared "Leaf"

private def slot : Variable := ⟨⟨10⟩, "x", .localVariable, leaf, none⟩

private def nonNull : Value := .of leaf [.nonNull]

private def nullable : Value := .of leaf [.nullable]

/-- `x = 1; while (…) { x = null; }`, where the entry block carries the given id and the head of the
loop lists its predecessors in the given order. -/
def loopWith (entryId : BlockId) (predecessors : List BlockId) : Graph where
  code := .fragment ⟨0⟩
  parameters := []
  nodes := [
    ⟨⟨0⟩, leaf, none, true, .localVariable slot⟩,
    ⟨⟨1⟩, leaf, some ⟨1⟩, true, .literal (.integer 1)⟩,
    ⟨⟨2⟩, leaf, none, true, .assignment ⟨0⟩ ⟨1⟩⟩,
    ⟨⟨3⟩, leaf, none, true, .localVariable slot⟩,
    ⟨⟨4⟩, leaf, some ⟨2⟩, true, .literal .null⟩,
    ⟨⟨5⟩, leaf, none, true, .assignment ⟨3⟩ ⟨4⟩⟩]
  blocks := [
    ⟨entryId, [⟨0⟩, ⟨1⟩, ⟨2⟩], some (.goto ⟨2⟩), [], [⟨2⟩]⟩,
    ⟨⟨1⟩, [], none, [⟨2⟩], []⟩,
    ⟨⟨2⟩, [], some (.branch ⟨3⟩ ⟨1⟩), predecessors, [⟨3⟩, ⟨1⟩]⟩,
    ⟨⟨3⟩, [⟨3⟩, ⟨4⟩, ⟨5⟩], some (.goto ⟨2⟩), [⟨2⟩], [⟨2⟩]⟩]
  entry := ⟨0⟩
  exit := ⟨1⟩

def rewriteLoop : Graph := loopWith ⟨0⟩ [⟨0⟩, ⟨3⟩]

/-- The entry block carries the id of no block. -/
def strayEntry : Graph := loopWith ⟨9⟩ [⟨0⟩, ⟨3⟩]

/-- The way back into the loop is listed before the way in. -/
def backEdgeFirst : Graph := loopWith ⟨0⟩ [⟨3⟩, ⟨0⟩]

private theorem numbered_loopWith (predecessors : List BlockId) :
    (loopWith ⟨0⟩ predecessors).Numbered := by
  rintro ⟨n⟩ block hblock
  rcases n with _ | _ | _ | _ | n <;> cases hblock <;> rfl

private theorem reversePostorder_loopWith (entryId : BlockId) (predecessors : List BlockId) :
    (loopWith entryId predecessors).reversePostorder = [⟨0⟩, ⟨2⟩, ⟨1⟩, ⟨3⟩] := by cbv

private def record (v : Value) (s : Store) : Store :=
  s.assign Setting.plain.tables.oracle (.localVariable slot) (some v)

def transfer (id : BlockId) (s : Store) : Stores :=
  if id = ⟨0⟩ then .regular (record nonNull s)
  else if id = ⟨3⟩ then .regular (record nullable s)
  else .regular s

private theorem agrees_record {v : Value} {s t : Store} (h : s.agrees t = true) :
    (record v s).agrees (record v t) = true := by
  rw [Store.agrees_iff] at h ⊢
  refine ⟨h.1, h.2.1, fun r => ?_⟩
  simp only [record, Store.assign, Store.put, Store.retain, FinMap.get?_set, FinMap.get?_retain,
    h.2.2 r]

private theorem below_record {v : Value} (hv : v.Below v) {s t : Store} (h : s.Below t) :
    (record v s).Below (record v t) := by
  refine ⟨h.sequential_eq, fun r w hw => ?_⟩
  rw [record, Store.value?_assign_local] at hw ⊢
  by_cases hr : r = .localVariable slot
  · rw [if_pos hr, Option.some.injEq] at hw
    rw [if_pos hr]
    exact ⟨v, rfl, hw ▸ hv⟩
  · rw [if_neg hr] at hw ⊢
    split at hw
    · cases hw
    · next hfree =>
      rw [if_neg hfree]
      exact h.value r w hw

theorem loopWith_hasTransfer (entryId : BlockId) (predecessors : List BlockId) :
    (Setting.plain.engine none).HasTransfer (loopWith entryId predecessors) transfer where
  run := by
    rintro ⟨n⟩ block hblock values s run hrun
    rcases n with _ | _ | _ | _ | n <;> cases hblock <;> cases hrun <;>
      exact Stores.agrees_refl _
  congr id s t h := by
    rw [transfer, transfer]
    split
    · exact agrees_record h
    · split
      · exact agrees_record h
      · exact h
  flag id s := by
    rw [transfer]
    split
    · exact ⟨rfl, rfl⟩
    · split <;> exact ⟨rfl, rfl⟩
  mono id s t h := by
    rw [transfer, transfer]
    split
    · exact ⟨below_record (by decide) h, below_record (by decide) h⟩
    · split
      · exact ⟨below_record (by decide) h, below_record (by decide) h⟩
      · exact ⟨h, h⟩

/-- The loop runs twice, with different stores on entry. -/
theorem rewriteLoop_least :
    rewriteLoop.Mirrored ∧ rewriteLoop.Numbered ∧
    ∃ sol initial log, (Setting.plain.engine none).solve rewriteLoop .default = .ok sol ∧
      sol.converged = true ∧
      (Setting.plain.engine none).entryStore rewriteLoop.code rewriteLoop.parameters =
        .ok (initial, log) ∧
      (∀ id, (sol.outputs.get? id).isSome ↔
        rewriteLoop.Reachable id ∧ (rewriteLoop.block? id).isSome) ∧
      rewriteLoop.Solves transfer initial sol.outputs ∧
      ∀ other, rewriteLoop.Solves transfer initial other →
        Graph.OutputsAtMost sol.outputs other := by
  have hg : rewriteLoop.Mirrored := by decide
  have hn : rewriteLoop.Numbered := numbered_loopWith _
  have horder : rewriteLoop.reversePostorder = [⟨0⟩, ⟨2⟩, ⟨1⟩, ⟨3⟩] :=
    reversePostorder_loopWith _ _
  have hrun : ((Setting.plain.engine none).solve rewriteLoop .default).toOption.any
      (fun sol => sol.converged) = true := by
    simp only [Engine.solve, Engine.start, horder]
    decide
  obtain ⟨sol, hsol, hc⟩ := Solution.exists_of_any hrun
  obtain ⟨initial, log, hentry, hcomputed, -, hleast⟩ :=
    Engine.solve_least hg hn (loopWith_hasTransfer _ _) hsol hc
  obtain ⟨hsolves, hbelow⟩ := hleast rfl
  exact ⟨hg, hn, sol, initial, log, hsol, hc, hentry, hcomputed, hsolves, hbelow⟩

/-- Outputs for `backEdgeFirst` that are sequential before the loop and concurrent from there on:
a join takes the semantics of what is listed first, so the loop keeps its own. -/
def mixed : FinMap BlockId Stores :=
  let concurrent := transfer ⟨3⟩ (.empty false)
  (((FinMap.empty.insert ⟨0⟩ (transfer ⟨0⟩ (.empty true))).insert ⟨1⟩ concurrent).insert
    ⟨2⟩ concurrent).insert ⟨3⟩ concurrent

theorem mixed_satisfiesEquations :
    backEdgeFirst.SatisfiesEquations transfer (.empty true) mixed := by
  rintro ⟨n⟩ block - hblock
  rcases n with _ | _ | _ | _ | n <;> cases hblock <;> exact ⟨_, rfl, by decide⟩

/-- Both conditions are needed. An entry block that carries another id is never seen to be the
entry, so that the run ends with no output at all. And outputs of mixed semantics that satisfy
the equations need not lie above those of the run. -/
theorem variants_not_least :
    (strayEntry.check = .ok () ∧ strayEntry.Mirrored ∧ strayEntry.FollowsTerminators ∧
      (Setting.plain.engine none).HasTransfer strayEntry transfer ∧
      strayEntry.Reachable strayEntry.entry ∧ (strayEntry.block? strayEntry.entry).isSome ∧
      ∃ sol, (Setting.plain.engine none).solve strayEntry .default = .ok sol ∧
        sol.converged = true ∧ sol.outputs.get? strayEntry.entry = none) ∧
    (backEdgeFirst.check = .ok () ∧ backEdgeFirst.Mirrored ∧ backEdgeFirst.FollowsTerminators ∧
      backEdgeFirst.Numbered ∧ (Setting.plain.engine none).HasTransfer backEdgeFirst transfer ∧
      Config.default.widenAfter = none ∧
      (Setting.plain.engine none).entryStore backEdgeFirst.code backEdgeFirst.parameters =
        .ok (.empty true, .empty) ∧
      backEdgeFirst.SatisfiesEquations transfer (.empty true) mixed ∧
      ∃ sol, (Setting.plain.engine none).solve backEdgeFirst .default = .ok sol ∧
        sol.converged = true ∧ ¬Graph.OutputsAtMost sol.outputs mixed) := by
  constructor
  · have horder : strayEntry.reversePostorder = [⟨0⟩, ⟨2⟩, ⟨1⟩, ⟨3⟩] :=
      reversePostorder_loopWith _ _
    have hrun : ((Setting.plain.engine none).solve strayEntry .default).toOption.any
        (fun sol => sol.converged && (sol.outputs.get? strayEntry.entry).isNone) = true := by
      simp only [Engine.solve, Engine.start, horder]
      decide
    obtain ⟨sol, hsol, hsilent⟩ := Solution.exists_of_any hrun
    rw [Bool.and_eq_true, Option.isNone_iff_eq_none] at hsilent
    exact ⟨by decide, by decide, by decide, loopWith_hasTransfer _ _, .entry, rfl, sol, hsol,
      hsilent⟩
  · have horder : backEdgeFirst.reversePostorder = [⟨0⟩, ⟨2⟩, ⟨1⟩, ⟨3⟩] :=
      reversePostorder_loopWith _ _
    have hrun : ((Setting.plain.engine none).solve backEdgeFirst .default).toOption.any
        (fun sol => sol.converged &&
          (sol.outputs.get? ⟨2⟩).any fun out => out.thenStore.sequential) = true := by
      simp only [Engine.solve, Engine.start, horder]
      decide
    obtain ⟨sol, hsol, hloop⟩ := Solution.exists_of_any hrun
    rw [Bool.and_eq_true, Option.any_eq_true] at hloop
    obtain ⟨hc, out, hout, hsequential⟩ := hloop
    refine ⟨by decide, by decide, by decide, numbered_loopWith _, loopWith_hasTransfer _ _, rfl,
      rfl, mixed_satisfiesEquations, sol, hsol, hc, fun hle => ?_⟩
    obtain ⟨out', hout', hat⟩ := hle ⟨2⟩ out hout
    have hsame : out.thenStore.sequential = out'.thenStore.sequential :=
      Store.AtMost.sequential_eq hat.thenStore
    rw [hsequential] at hsame
    cases hout'
    cases hsame

end LeastSolution

end FlowTyping
