import FlowTyping.Proofs.Fixpoint.Settled
import FlowTyping.Proofs.Fixpoint.Termination

/-!
# Widening makes every run end

With widening, the store recorded on entry to a block is from some visit on joined with the one
recorded before, so it only loses precision. A visit that records the same store again finds the
same output and the same values of the block's own nodes, and wakes nothing. Nothing is asked of
the blocks but that their runs depend on the entry store only. Nodes have to be distinct: one that
stands in two places keeps changing its value when the two places give it different ones.
-/

namespace FlowTyping

namespace Engine

/-- What a run of a block makes of stores and of the values of its nodes depends on the store on
entry only, and it keeps the semantics of that store. -/
structure BlockLocal (engine : Engine) (g : Graph) : Prop where
  run : ∀ id block, g.block? id = some block → ∀ values values' s s' run run',
    s.agrees s' = true → engine.runBlock g values block.nodes s = .ok run →
    engine.runBlock g values' block.nodes s' = .ok run' →
    run.stores.agrees run'.stores = true ∧
      ∀ n ∈ block.nodes, run.values.get? n = run'.values.get? n
  flag : ∀ id block, g.block? id = some block → ∀ values s run,
    engine.runBlock g values block.nodes s = .ok run → run.stores.HasFlag s.sequential

variable {engine : Engine} {g : Graph} {config : Config} {initial : Store} {p p' : Progress}
  {id : BlockId} {rest : List BlockId} {block : Block} {joined : Store} {run : BlockRun}

theorem widenedInput_of_lt {k : Nat} (hk : config.widenAfter = some k) {previous : Store}
    (hprevious : p.inputs.get? id = some previous) (hruns : k < (p.runs.get? id).getD 0) :
    widenedInput config p id joined = joined.lub previous := by
  have hlt : k < (p.runs.get? id).getD 0 + 1 := by omega
  rw [widenedInput, hk, hprevious]
  exact if_pos hlt

/-! ### The measure -/

/-- How often the blocks can still be run before all their entry stores are widened. -/
def unwidened (g : Graph) (k : Nat) (p : Progress) : Nat :=
  ∑ i ∈ Finset.range g.blocks.length, (k + 1 - (p.runs.get? ⟨i⟩).getD 0)

/-- What falls with every turn, the first part that changes being decisive. -/
def wideningMeasure (g : Graph) (k : Nat) (p : Progress) : Nat × Nat × Nat :=
  (unwidened g k p, p.inputs.weight Store.depth, p.worklist.length)

private theorem unwidened_taken (k : Nat) (p : Progress) (rest : List BlockId) :
    unwidened g k (taken p rest) = unwidened g k p := by
  simp only [unwidened, taken]

private theorem unwidened_term (k : Nat) (input : Store) (other : BlockId) :
    k + 1 - ((settle p id block input run).runs.get? other).getD 0 ≤
      k + 1 - (p.runs.get? other).getD 0 := by
  rw [settle_runs]
  split
  · next h =>
    subst h
    rw [Option.getD_some]
    omega
  · exact Nat.le_refl _

theorem unwidened_settle_le (k : Nat) (input : Store) :
    unwidened g k (settle p id block input run) ≤ unwidened g k p :=
  Finset.sum_le_sum fun i _ => unwidened_term k input ⟨i⟩

theorem unwidened_settle_lt {k : Nat} (hblock : g.block? id = some block)
    (hruns : (p.runs.get? id).getD 0 ≤ k) (input : Store) :
    unwidened g k (settle p id block input run) < unwidened g k p := by
  have hmem : id.index ∈ Finset.range g.blocks.length := by
    rw [Finset.mem_range]
    exact (List.getElem?_eq_some_iff.1 hblock).1
  refine Finset.sum_lt_sum (fun i _ => unwidened_term k input ⟨i⟩) ⟨id.index, hmem, ?_⟩
  have hid : BlockId.mk id.index = id := rfl
  rw [hid, settle_runs, if_pos rfl, Option.getD_some]
  omega

/-! ### The invariant -/

/-- What holds between any two turns: the loop is settled, all stores have the semantics of the
initial one, and only blocks with an output have been run. -/
structure Widened (engine : Engine) (g : Graph) (config : Config) (initial : Store)
    (p : Progress) : Prop where
  settled : Settled engine g config initial p
  outputs : Graph.OutputsHaveFlag p.outputs initial.sequential
  inputs : ∀ id s, p.inputs.get? id = some s → s.sequential = initial.sequential
  computed : ∀ id, 0 < (p.runs.get? id).getD 0 → (p.outputs.get? id).isSome

theorem widened_start (log : Log) : Widened engine g config initial (start g log) where
  settled := settled_start log
  outputs _ _ h := nomatch h
  inputs _ _ h := nomatch h
  computed _ h := by simp [start] at h

theorem sequential_widenedInput (config : Config) (p : Progress) (id : BlockId)
    (joined : Store) : (widenedInput config p id joined).sequential = joined.sequential := by
  rcases widenedInput_eq config p id joined with h | ⟨-, previous, h⟩
  · rw [h]
  · rw [h]
    rfl

theorem Widened.turn (hg : g.Mirrored) (hlocal : engine.BlockLocal g)
    (hp : p.worklist = id :: rest) (h : Widened engine g config initial p)
    (hstep : engine.step g config initial (taken p rest) id = .ok p') :
    Widened engine g config initial p' := by
  have hsettled := h.settled.turn hg hp hstep
  rcases step_cases hstep with ⟨rfl, -⟩ | ⟨block, joined, run, hr, rfl⟩
  · exact ⟨hsettled, h.outputs, h.inputs, h.computed⟩
  · have hjoined : joined.sequential = initial.sequential :=
      Graph.sequential_joinPredecessors rfl h.outputs hr.joined_eq
    have hinput : (widenedInput config (taken p rest) id joined).sequential =
        initial.sequential := by
      rw [sequential_widenedInput, hjoined]
    have hrun : run.stores.HasFlag initial.sequential :=
      hinput ▸ hlocal.flag id block hr.block_eq _ _ _ hr.run_eq
    refine ⟨hsettled, fun other out hout => ?_, fun other s hs => ?_, fun other hother => ?_⟩
    · rw [settle_outputs] at hout
      split at hout
      · cases hout
        exact hrun
      · exact h.outputs other out hout
    · rw [settle_inputs] at hs
      split at hs
      · cases hs
        exact hinput
      · exact h.inputs other s hs
    · by_cases hid : other = id
      · subst hid
        rw [settle_outputs]
        split
        · rfl
        · next hquiet =>
          have hw : wakes (taken p rest) other run = false :=
            Bool.eq_false_iff.2 fun hw => hquiet ⟨rfl, hw⟩
          obtain ⟨-, old, hold, -⟩ := wakes_eq_false.1 hw
          rw [hold]
          rfl
      · rw [settle_runs, if_neg hid] at hother
        exact isSome_settle_outputs (h.computed other hother)

theorem Widened.not_wakes (hd : g.DistinctNodes) (hlocal : engine.BlockLocal g)
    (h : Widened engine g config initial p) (hout : (p.outputs.get? id).isSome)
    {previous input : Store} (hprevious : p.inputs.get? id = some previous)
    (hagree : previous.agrees input = true) (hblock : g.block? id = some block)
    (hrun : engine.runBlock g p.values block.nodes input = .ok run) :
    wakes p id run = false := by
  obtain ⟨recorded, source, values, run', hrecorded, hreported⟩ := h.settled.reported id hout
  obtain rfl : previous = recorded := Option.some.inj (hprevious.symm.trans hrecorded)
  obtain rfl : block = source := Option.some.inj (hblock.symm.trans hreported.block_eq)
  obtain ⟨hstores, hvalues⟩ :=
    hlocal.run id block hblock _ _ _ _ _ _ hagree hreported.run_eq hrun
  refine wakes_eq_false.2 ⟨?_, run'.stores, hreported.output_eq, hstores⟩
  refine runNodes_changed (hd.nodup hblock) hrun fun n hn => ?_
  rw [← hvalues n hn]
  exact hreported.own n (hd.heldOnlyBy hblock hn)

theorem Widened.measure_lt (hd : g.DistinctNodes) (hlocal : engine.BlockLocal g) {k : Nat}
    (hk : config.widenAfter = some k) (hp : p.worklist = id :: rest)
    (h : Widened engine g config initial p)
    (hstep : engine.step g config initial (taken p rest) id = .ok p') :
    WellFoundedRelation.rel (wideningMeasure g k p') (wideningMeasure g k p) := by
  have hlength : rest.length < p.worklist.length := by rw [hp]; exact Nat.lt_succ_self _
  rcases step_cases hstep with ⟨rfl, -⟩ | ⟨block, joined, run, hr, rfl⟩
  · simp only [wideningMeasure, unwidened, taken]
    exact Prod.Lex.right _ (Prod.Lex.right _ hlength)
  · rw [wideningMeasure, wideningMeasure]
    by_cases hruns : (p.runs.get? id).getD 0 ≤ k
    · have hfewer : unwidened g k (settle (taken p rest) id block
          (widenedInput config (taken p rest) id joined) run) < unwidened g k p := by
        rw [← unwidened_taken k p rest]
        exact unwidened_settle_lt (p := taken p rest) hr.block_eq hruns _
      exact Prod.Lex.left _ _ hfewer
    · have hout : (p.outputs.get? id).isSome := h.computed id (by omega)
      obtain ⟨previous, -, -, -, hprevious, -⟩ := h.settled.reported id hout
      have hinput : widenedInput config (taken p rest) id joined = joined.lub previous :=
        widenedInput_of_lt hk hprevious (Nat.lt_of_not_le hruns)
      have hfewer : unwidened g k (settle (taken p rest) id block
          (widenedInput config (taken p rest) id joined) run) ≤ unwidened g k p := by
        rw [← unwidened_taken k p rest]
        exact unwidened_settle_le k _
      refine lex_of_le hfewer ?_
      by_cases hw : wakes (taken p rest) id run = true
      · -- The block is woken, so the store on entry has changed, and it has been weakened.
        have hjoined : joined.sequential = initial.sequential :=
          Graph.sequential_joinPredecessors rfl h.outputs hr.joined_eq
        have hflag : previous.sequential = (joined.lub previous).sequential := by
          rw [h.inputs id previous hprevious, Store.sequential_lub, hjoined]
        have hweaker : ∀ slot, Value.KnownBelow (previous.known slot)
            ((joined.lub previous).known slot) := by
          intro slot
          rw [Store.known_lub, Value.lub?_comm]
          exact Value.knownBelow_lub? _ _
        rcases Store.agrees_or_depth_lt hflag hweaker with hagree | hdepth
        · have hquiet := h.not_wakes hd hlocal hout hprevious (hinput ▸ hagree) hr.block_eq
            hr.run_eq
          rw [show wakes (taken p rest) id run = wakes p id run from rfl, hquiet] at hw
          cases hw
        · refine Prod.Lex.left _ _ (FinMap.weight_lt_of_replaced hprevious hdepth fun other => ?_)
          rw [settle_inputs, hinput]
          simp only [hw, true_or, and_true]
          rfl
      · have hinputs : (settle (taken p rest) id block
            (widenedInput config (taken p rest) id joined) run).inputs.weight Store.depth ≤
            p.inputs.weight Store.depth := by
          refine FinMap.weight_le fun other => Nat.le_of_eq ?_
          have hstale : ¬(other = id ∧ (wakes (taken p rest) id run = true ∨
              (taken p rest).inputs.get? id = none)) := by
            rintro ⟨-, hw' | hnone⟩
            · exact hw hw'
            · rw [show (taken p rest).inputs.get? id = some previous from hprevious] at hnone
              cases hnone
          rw [settle_inputs, if_neg hstale]
          rfl
        refine lex_of_le_of_lt hinputs ?_
        rw [settle_worklist_of_not_wakes hw]
        exact hlength

/-- With widening, every engine whose blocks depend on their entry stores only converges on every
accepted graph with distinct nodes, however often the blocks are visited before they widen. -/
theorem solve_converges_of_widening (hcheck : g.check = .ok ()) (hg : g.Mirrored)
    (hd : g.DistinctNodes) (hlocal : engine.BlockLocal g) {log : Log}
    (hentry : engine.entryStore g.code g.parameters = .ok (initial, log)) (k : Nat) :
    ∃ bound, ∀ config : Config, config.widenAfter = some k → bound ≤ config.maxIterations →
      ∃ sol, engine.solve g config = .ok sol ∧ sol.converged = true := by
  let widening : Config := { Config.default with widenAfter := some k }
  have hturn : ∀ p id rest p', p.worklist = id :: rest →
      Widened engine g widening initial p →
      engine.step g widening initial (taken p rest) id = .ok p' →
      Widened engine g widening initial p' ∧
        WellFoundedRelation.rel (wideningMeasure g k p') (wideningMeasure g k p) :=
    fun p id rest p' hp h hstep =>
      ⟨h.turn hg hlocal hp hstep, h.measure_lt hd hlocal rfl hp hstep⟩
  obtain ⟨bound, hbound⟩ := solve_terminates hcheck _ _ hturn hentry (widened_start log)
  exact ⟨bound, fun config hk => hbound config hk⟩

end Engine

namespace WidenedLoop

private def leaf : Ty := .declared "Leaf"

private def declared : Variable := ⟨⟨10⟩, "x", .localVariable, leaf, none⟩

private def notNull : Option Value := some (.of leaf [.nonNull])

/-- Forgets what is known of `x`, and takes it to be non-null where nothing is known. -/
private def flip (s : Store) : Store :=
  s.put (.localVariable declared)
    (if (s.value? (.localVariable declared)).isSome then none else notNull)

/-- Every visit flips what is known of `x`. -/
private def flipEngine : Engine where
  entryStore _ _ := .ok ((Store.empty true).put (.localVariable declared) notNull, .empty)
  visit _ _ _ stores := (⟨none, .regular (flip stores.merged)⟩, .empty)

private def loop : Graph where
  code := .fragment ⟨0⟩
  parameters := []
  nodes := [⟨⟨0⟩, leaf, none, true, .literal .null⟩]
  blocks := [
    ⟨⟨0⟩, [⟨0⟩], some (.branch ⟨0⟩ ⟨1⟩), [⟨0⟩], [⟨0⟩, ⟨1⟩]⟩, ⟨⟨1⟩, [], none, [⟨0⟩], []⟩]
  entry := ⟨0⟩
  exit := ⟨1⟩

private theorem agrees_flip {s t : Store} (h : s.agrees t = true) :
    (flip s).agrees (flip t) = true := by
  rw [Store.agrees_iff_known] at h ⊢
  refine ⟨by simpa [flip] using h.1, fun slot => ?_⟩
  rw [flip, flip, Store.known_put, Store.known_put, Store.value?_eq_known, Store.value?_eq_known,
    h.2, h.2]

private theorem flipEngine_blockLocal : flipEngine.BlockLocal loop where
  run := by
    rintro ⟨n⟩ block hblock values values' s s' run run' h hrun hrun'
    rcases n with _ | _ | n <;> cases hblock <;> cases hrun <;> cases hrun'
    · refine ⟨agrees_flip h, fun n hn => ?_⟩
      obtain rfl := List.mem_singleton.1 hn
      have hnone : ∀ vs : NodeValues, (vs.erase ⟨0⟩).get? ⟨0⟩ = none := by simp
      exact (hnone values).trans (hnone values').symm
    · exact ⟨h, fun n hn => by cases hn⟩
  flag := by
    rintro ⟨n⟩ block hblock values s run hrun
    rcases n with _ | _ | n <;> cases hblock <;> cases hrun
    · have hflip : (flip s).sequential = s.sequential := Store.sequential_put _ _ _
      exact ⟨hflip, hflip⟩
    · exact ⟨rfl, rfl⟩

/-- The transfer is not monotone, and yet the run ends. -/
theorem flip_converges :
    loop.check = .ok () ∧ loop.Mirrored ∧ loop.DistinctNodes ∧ flipEngine.BlockLocal loop ∧
    ∃ bound, ∀ config : Config, config.widenAfter = some 1 → bound ≤ config.maxIterations →
      ∃ sol, flipEngine.solve loop config = .ok sol ∧ sol.converged = true :=
  ⟨by decide, by decide, by decide, flipEngine_blockLocal,
    Engine.solve_converges_of_widening (by decide) (by decide) (by decide) flipEngine_blockLocal
      rfl 1⟩

/-- `while (…) { x; x = 1; x; }`, where both reads are the same node. -/
private def repeated : Graph where
  code := .fragment ⟨0⟩
  parameters := []
  nodes := [
    ⟨⟨0⟩, leaf, none, true, .localVariable declared⟩,
    ⟨⟨1⟩, leaf, none, true, .localVariable declared⟩,
    ⟨⟨2⟩, leaf, some ⟨1⟩, true, .literal (.integer 1)⟩,
    ⟨⟨3⟩, leaf, none, true, .assignment ⟨1⟩ ⟨2⟩⟩]
  blocks := [
    ⟨⟨0⟩, [⟨0⟩, ⟨1⟩, ⟨2⟩, ⟨3⟩, ⟨0⟩], some (.branch ⟨0⟩ ⟨1⟩), [⟨0⟩], [⟨0⟩, ⟨1⟩]⟩,
    ⟨⟨1⟩, [], none, [⟨0⟩], []⟩]
  entry := ⟨0⟩
  exit := ⟨1⟩

private def plainEngine : Engine := (Setting.ofTables .empty .empty .default).engine none

private def written (s : Store) : Store :=
  s.assign Tables.empty.oracle (.localVariable declared) notNull

private def readValues (values : NodeValues) (s : Store) : NodeValues :=
  let known := s.value? (.localVariable declared)
  ((((values.set ⟨0⟩ known).set ⟨1⟩ known).set ⟨2⟩ notNull).set ⟨3⟩ notNull).set ⟨0⟩ notNull

private theorem value?_written (s : Store) :
    (written s).value? (.localVariable declared) = notNull := by
  rw [written, Store.value?_assign_local, if_pos rfl]

private theorem runBlock_repeated {block : Block} (hblock : repeated.block? ⟨0⟩ = some block)
    {values : NodeValues} {s : Store} {run : BlockRun}
    (h : plainEngine.runBlock repeated values block.nodes s = .ok run) :
    run.stores = .regular (written s) ∧ run.values = readValues values s ∧
      (s.value? (.localVariable declared) = none → run.changed = true) := by
  cases hblock
  cases h
  refine ⟨rfl, rfl, fun hs => ?_⟩
  -- The last visit finds the value that the first one has recorded.
  have hread : ((((values.set ⟨0⟩ (s.value? (.localVariable declared))).set ⟨1⟩
      (s.value? (.localVariable declared))).set ⟨2⟩ notNull).set ⟨3⟩ notNull).get? ⟨0⟩ ≠
        notNull := by
    simp [hs, notNull]
  exact Bool.or_eq_true_iff.2 (Or.inr (decide_eq_true hread))

private theorem agrees_written {s t : Store} (h : s.agrees t = true) :
    (written s).agrees (written t) = true := by
  rw [Store.agrees_iff_known] at h ⊢
  refine ⟨h.1, fun slot => ?_⟩
  rw [written, written, Store.assign, Store.assign, Store.known_put, Store.known_put,
    Store.known_retain, Store.known_retain, h.2]

private theorem plainEngine_blockLocal : plainEngine.BlockLocal repeated where
  run := by
    rintro ⟨n⟩ block hblock values values' s s' run run' h hrun hrun'
    rcases n with _ | _ | n
    · obtain ⟨hstores, hvalues, -⟩ := runBlock_repeated hblock hrun
      obtain ⟨hstores', hvalues', -⟩ := runBlock_repeated hblock hrun'
      rw [hstores, hstores', hvalues, hvalues']
      refine ⟨agrees_written h, fun n hn => ?_⟩
      cases hblock
      simp only [readValues, FinMap.get?_set, Store.value?_eq_of_agrees h]
      simp only [List.mem_cons, List.not_mem_nil, or_false] at hn
      rcases hn with rfl | rfl | rfl | rfl | rfl <;> rfl
    · cases hblock
      cases hrun
      cases hrun'
      exact ⟨h, fun n hn => by cases hn⟩
    · cases hblock
  flag := by
    rintro ⟨n⟩ block hblock values s run hrun
    rcases n with _ | _ | n
    · obtain ⟨hstores, -, -⟩ := runBlock_repeated hblock hrun
      have hflag : (written s).sequential = s.sequential := Store.sequential_assign _ _ _ _
      rw [hstores]
      exact ⟨hflag, hflag⟩
    · cases hblock
      cases hrun
      exact ⟨rfl, rfl⟩
    · cases hblock

private theorem value?_input {config : Config} {p : Progress} {block : Block} {joined : Store}
    (hblock : repeated.block? ⟨0⟩ = some block)
    (hjoined : repeated.joinPredecessors p.outputs (.empty true) block = some joined) :
    (Engine.widenedInput config p ⟨0⟩ joined).value? (.localVariable declared) = none := by
  have hlub : ∀ s t : Store, s.value? (.localVariable declared) = none →
      (s.lub t).value? (.localVariable declared) = none := by
    intro s t hs
    rw [Store.value?_lub, hs]
    rfl
  have hunknown : joined.value? (.localVariable declared) = none := by
    have hentry : block.id = repeated.entry := by
      cases hblock
      rfl
    rw [Graph.joinPredecessors, if_pos hentry, Option.some.injEq] at hjoined
    rw [← hjoined]
    exact List.foldlRecOn _ Store.lub (Store.value?_empty _ _) fun s hs t _ => hlub s t hs
  rcases Engine.widenedInput_eq config p ⟨0⟩ joined with h | ⟨-, previous, h⟩
  · rw [h]
    exact hunknown
  · rw [h]
    exact hlub joined previous hunknown

/-- The body of the loop depends on its entry store only, and no run of it ends: each visit of it
finds `x` unknown first and non-null later, and gives the one node both values. -/
theorem repeated_diverges :
    repeated.check = .ok () ∧ repeated.Mirrored ∧ repeated.FollowsTerminators ∧
    plainEngine.BlockLocal repeated ∧
    plainEngine.entryStore repeated.code repeated.parameters = .ok (.empty true, .empty) ∧
    ¬∃ bound, ∀ config : Config, config.widenAfter = some 1 → bound ≤ config.maxIterations →
      ∃ sol, plainEngine.solve repeated config = .ok sol ∧ sol.converged = true := by
  refine ⟨by decide, by decide, by decide, plainEngine_blockLocal, rfl, ?_⟩
  rintro ⟨bound, hbound⟩
  obtain ⟨sol, hsol, hc⟩ :=
    hbound { Config.default with widenAfter := some 1, maxIterations := bound } rfl (Nat.le_refl _)
  obtain ⟨initial, log, p, hentry, hiter, -⟩ := Engine.solve_converged hsol hc
  cases hentry
  -- The loop is always waiting.
  have hwaiting := Engine.iterate_converged (fun p => BlockId.mk 0 ∈ p.worklist)
    (fun p id rest p' hp hwaiting hstep => ?_) repeated.entry_mem_reversePostorder hiter
  · rw [hwaiting.2] at hwaiting
    exact absurd hwaiting.1 List.not_mem_nil
  · rw [hp] at hwaiting
    rcases Engine.step_cases hstep with ⟨rfl, hidle⟩ | ⟨block, joined, run, hr, rfl⟩
    · rcases List.mem_cons.1 hwaiting with rfl | hrest
      · have hidle := hidle _ rfl
        cases hidle
      · exact hrest
    · rw [Engine.mem_settle_worklist]
      rcases List.mem_cons.1 hwaiting with rfl | hrest
      · obtain ⟨-, -, hchanged⟩ := runBlock_repeated hr.block_eq hr.run_eq
        have hw : Engine.wakes (Engine.taken p rest) ⟨0⟩ run = true := by
          rw [Engine.wakes, hchanged (value?_input hr.block_eq hr.joined_eq)]
          rfl
        refine Or.inr ⟨hw, ?_⟩
        rw [← Graph.successors_of_block? hr.block_eq]
        decide
      · exact Or.inl hrest

end WidenedLoop

end FlowTyping
