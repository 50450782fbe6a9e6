import FlowTyping.Proofs.Fixpoint.SoundStores

/-!
# Runs that lose precision

The loop recomputes the store on entry to a block at every visit, so nothing but the transfer
function makes it end. Where that is monotone, a block that is run again starts from stores and
values that say less than at its last run, since all outputs and values only ever lose precision,
and so it hands on less. The first run of a block is different: it gives values to nodes that had
none. No computed block reads them, because the operands of its nodes were computed on some path
to it.
-/

namespace FlowTyping

open Value (KnownBelow)

/-- A node of another block that a node of the block reads. -/
def Graph.ReadsOutside (g : Graph) (block : Block) (o : NodeId) : Prop :=
  o ∉ block.nodes ∧ ∃ n ∈ block.nodes, ∃ node, g.node? n = some node ∧ o ∈ g.reads node

namespace Engine

/-- All outputs are stores of a monotone run. -/
def SoundOutputs (st : Setting) (initial : Store) (outputs : FinMap BlockId Stores) : Prop :=
  ∀ id out, outputs.get? id = some out → out.Both (Store.Sound st.tables initial.sequential)

/-- A run that gave the present output of a block and the present values of its nodes. It started
from no less than what would flow in now, and read no less than what it would read now. -/
structure EarlierRun (st : Setting) (fixed : Option Store) (g : Graph) (initial : Store)
    (outputs : FinMap BlockId Stores) (values : NodeValues) (id : BlockId) (block : Block)
    (found : NodeValues) (input : Store) (run : BlockRun) : Prop where
  block_eq : g.block? id = some block
  run_eq : (st.engine fixed).runBlock g found block.nodes input = .ok run
  output_eq : outputs.get? id = some run.stores
  own : ∀ n ∈ block.nodes, run.values.get? n = values.get? n
  input_below : ∃ joined, g.joinPredecessors outputs initial block = some joined ∧
    input.Below joined
  reads_below : ∀ o, g.ReadsOutside block o → KnownBelow (found.get? o) (values.get? o)

/-- What holds of the outputs and values between any two turns of the loop over a monotone
body. -/
structure Rising (st : Setting) (fixed : Option Store) (g : Graph) (initial : Store)
    (outputs : FinMap BlockId Stores) (values : NodeValues) : Prop where
  sound : SoundOutputs st initial outputs
  normalized : ∀ n v, values.get? n = some v → v.Normalized
  /-- Some path to a computed block has been computed all along. -/
  traversed : ∀ id, (outputs.get? id).isSome →
    ∃ passed, g.Path passed id ∧ ∀ q ∈ passed, (outputs.get? q).isSome
  earlier : ∀ id, (outputs.get? id).isSome →
    ∃ block found input run, EarlierRun st fixed g initial outputs values id block found input run

/-- What is asked of the graph, and of the store on entry. -/
structure Monotone (st : Setting) (g : Graph) (initial : Store) : Prop where
  mirrored : g.Mirrored
  numbered : g.Numbered
  distinct : g.DistinctNodes
  operandsFirst : g.OperandsFirst
  tame : st.Tame g
  initial : initial.Sound st.tables initial.sequential

variable {st : Setting} {fixed : Option Store} {g : Graph} {config : Config} {initial : Store}
  {outputs outputs' : FinMap BlockId Stores} {values values' : NodeValues} {p p' : Progress}
  {id : BlockId} {rest : List BlockId} {block : Block} {joined : Store} {run : BlockRun}

theorem rising_start (log : Log) :
    Rising st fixed g initial (start g log).outputs (start g log).values where
  sound _ _ h := nomatch h
  normalized _ _ h := nomatch h
  traversed _ h := nomatch h
  earlier _ h := nomatch h

theorem Rising.congr (h : Rising st fixed g initial outputs values)
    (houtputs : ∀ id, outputs'.get? id = outputs.get? id)
    (hvalues : ∀ n, values'.get? n = values.get? n) :
    Rising st fixed g initial outputs' values' := by
  refine ⟨fun id out hout => h.sound id out (houtputs id ▸ hout),
    fun n v hv => h.normalized n v (hvalues n ▸ hv), fun id hid => ?_, fun id hid => ?_⟩
  · simp only [houtputs] at hid ⊢
    exact h.traversed id hid
  · rw [houtputs] at hid
    obtain ⟨block, found, input, run, he⟩ := h.earlier id hid
    have hjoin : g.joinPredecessors outputs' initial block =
        g.joinPredecessors outputs initial block :=
      Graph.joinPredecessors_congr fun q _ => houtputs q
    refine ⟨block, found, input, run, he.block_eq, he.run_eq, ?_, ?_, ?_, ?_⟩
    · rw [houtputs]
      exact he.output_eq
    · simpa only [hvalues] using he.own
    · rw [hjoin]
      exact he.input_below
    · simpa only [hvalues] using he.reads_below

section Monotone

variable (hm : Monotone st g initial)

include hm

theorem sound_joined (h : SoundOutputs st initial outputs)
    (hj : g.joinPredecessors outputs initial block = some joined) :
    joined.Sound st.tables initial.sequential :=
  Graph.joinPredecessors_induct hm.initial h (fun _ _ hs ht => hs.lub ht) hj

theorem joined_below (h : SoundOutputs st initial outputs')
    (hle : Graph.OutputsAtMost outputs outputs')
    (hj : g.joinPredecessors outputs initial block = some joined) :
    ∃ joined', g.joinPredecessors outputs' initial block = some joined' ∧
      joined.Below joined' := by
  have hflag : Graph.OutputsHaveFlag outputs' initial.sequential := fun id out hout =>
    ⟨(h id out hout).1.wellFormed.semantics, (h id out hout).2.wellFormed.semantics⟩
  obtain ⟨joined', hj', hatMost⟩ := Graph.joinPredecessors_atMost rfl hflag hle hj
  exact ⟨joined', hj', hatMost.trans_below (sound_joined hm h hj').below⟩

theorem run_sound (hvalues : ∀ n v, values.get? n = some v → v.Normalized)
    {input : Store} (hinput : input.Sound st.tables initial.sequential)
    (hblock : g.block? id = some block)
    (hrun : (st.engine fixed).runBlock g values block.nodes input = .ok run) :
    run.stores.Both (Store.Sound st.tables initial.sequential) ∧
      ∀ n v, run.values.get? n = some v → v.Normalized := by
  have hnodes := hm.tame.nodes block (List.mem_of_getElem? hblock)
  have hstart : RunBelow st (fun _ => True) ⟨.regular input, values, false, .empty, []⟩
      ⟨.regular input, values, false, .empty, []⟩ :=
    ⟨.regular hinput.below, rfl, ⟨hinput.finals, hinput.finals⟩,
      fun o _ => Value.knownBelow_self fun v hv => hvalues o v hv⟩
  have hend := hstart.runNodes hm.tame hnodes (fun _ _ _ _ _ _ _ _ => Or.inl trivial) hrun hrun
  have hwell : run.stores.Both fun s => s.WellFormed st.tables initial.sequential := by
    have hregular : (Stores.regular input).Both fun s =>
        s.WellFormed st.tables initial.sequential := ⟨hinput.wellFormed, hinput.wellFormed⟩
    refine runNodes_preserves
      (P := fun r => r.stores.Both fun s => s.WellFormed st.tables initial.sequential)
      (fun r n _ node _ hstores => ?_) hregular hrun
    exact Setting.visit_preserves (Store.closed_wellFormed st.tables initial.sequential) hstores g
      r.values node
  exact ⟨⟨⟨hwell.1, hend.stores.1, hend.finals.1⟩, ⟨hwell.2, hend.stores.2, hend.finals.2⟩⟩,
    fun n v hv => (hend.values n (Or.inl trivial)).normalized v hv⟩

/-- What a computed block reads of other blocks belongs to computed blocks. -/
theorem Rising.computed_of_readsOutside (h : Rising st fixed g initial outputs values)
    (hout : (outputs.get? id).isSome) (hblock : g.block? id = some block) {o : NodeId}
    (ho : g.ReadsOutside block o) :
    ∃ q source, (outputs.get? q).isSome ∧ g.block? q = some source ∧ o ∈ source.nodes := by
  obtain ⟨hown, n, hn, node, hnode, hread⟩ := ho
  obtain ⟨passed, hpath, hpassed⟩ := h.traversed id hout
  obtain ⟨before, after, hsplit⟩ := List.append_of_mem hn
  rcases hm.operandsFirst.visited_reads hpath hblock hsplit hnode o hread with
    hbefore | ⟨q, hq, source, hsource, hmem⟩
  · refine absurd ?_ hown
    rw [hsplit]
    exact List.mem_append_left _ hbefore
  · exact ⟨q, source, hpassed q hq, hsource, hmem⟩

/-- Running a computed block again, its stores and values lose precision. -/
theorem Rising.rerun (h : Rising st fixed g initial outputs values) {out : Stores}
    (hout : outputs.get? id = some out) (hblock : g.block? id = some block)
    (hj : g.joinPredecessors outputs initial block = some joined)
    (hrun : (st.engine fixed).runBlock g values block.nodes joined = .ok run) :
    out.Below run.stores ∧ out.isConditional = run.stores.isConditional ∧
      ∀ n ∈ block.nodes, KnownBelow (values.get? n) (run.values.get? n) := by
  have hcomputed : (outputs.get? id).isSome := by rw [hout]; rfl
  obtain ⟨source, found, input, run', he⟩ := h.earlier id hcomputed
  obtain rfl : block = source := Option.some.inj (hblock.symm.trans he.block_eq)
  obtain rfl : out = run'.stores := Option.some.inj (hout.symm.trans he.output_eq)
  obtain ⟨joined', hj', hinput⟩ := he.input_below
  obtain rfl : joined = joined' := Option.some.inj (hj.symm.trans hj')
  obtain ⟨passed, hpath, -⟩ := h.traversed id hcomputed
  have hnodes := hm.tame.nodes block (List.mem_of_getElem? hblock)
  have hfinals := (sound_joined hm h.sound hj).finals
  have hstart : RunBelow st (g.ReadsOutside block) ⟨.regular input, found, false, .empty, []⟩
      ⟨.regular joined, values, false, .empty, []⟩ :=
    ⟨.regular hinput, rfl, ⟨hfinals, hfinals⟩, he.reads_below⟩
  have hend := hstart.runNodes hm.tame hnodes ?_ he.run_eq hrun
  · refine ⟨hend.stores, hend.shape, fun n hn => ?_⟩
    rw [← he.own n hn]
    exact hend.values n (Or.inr hn)
  · intro before n after node hsplit hnode o ho
    have hn : n ∈ block.nodes := by rw [hsplit]; exact List.mem_append_right _ List.mem_cons_self
    by_cases hown : o ∈ block.nodes
    · exact Or.inr (hm.operandsFirst.mem_before hm.distinct ⟨passed, hpath⟩ hblock hsplit hnode ho
        hown)
    · exact Or.inl ⟨hown, n, hn, node, hnode, ho⟩

theorem Rising.values_below (h : Rising st fixed g initial outputs values)
    (hblock : g.block? id = some block)
    (hj : g.joinPredecessors outputs initial block = some joined)
    (hrun : (st.engine fixed).runBlock g values block.nodes joined = .ok run) {n : NodeId}
    (hn : n ∈ block.nodes → (outputs.get? id).isSome) :
    KnownBelow (values.get? n) (run.values.get? n) := by
  by_cases hown : n ∈ block.nodes
  · obtain ⟨out, hout⟩ := Option.isSome_iff_exists.1 (hn hown)
    exact (h.rerun hm hout hblock hj hrun).2.2 n hown
  · rw [runNodes_get?_of_notMem hrun hown]
    exact Value.knownBelow_self fun v hv => h.normalized n v hv

theorem Rising.outputsAtMost (h : Rising st fixed g initial p.outputs p.values)
    (hblock : g.block? id = some block)
    (hj : g.joinPredecessors p.outputs initial block = some joined)
    (hrun : (st.engine fixed).runBlock g p.values block.nodes joined = .ok run) :
    Graph.OutputsAtMost p.outputs (settle p id block joined run).outputs := by
  intro other out hout
  rw [settle_outputs]
  split
  · next hself =>
    obtain ⟨rfl, -⟩ := hself
    exact ⟨run.stores, rfl, Or.inr (h.rerun hm hout hblock hj hrun).1⟩
  · exact ⟨out, hout, Or.inl out.agrees_refl⟩

theorem Rising.exists_path (h : Rising st fixed g initial outputs values)
    (hblock : g.block? id = some block)
    (hj : g.joinPredecessors outputs initial block = some joined) :
    ∃ passed, g.Path passed id ∧ ∀ q ∈ passed, (outputs.get? q).isSome := by
  have hsome : (g.joinPredecessors outputs initial block).isSome := by rw [hj]; rfl
  rcases Graph.isSome_joinPredecessors.1 hsome with hentry | ⟨q, hq, hcomputed, -⟩
  · obtain rfl : id = g.entry := (hm.numbered id block hblock).symm.trans hentry
    exact ⟨[], .entry, fun q hq => absurd hq List.not_mem_nil⟩
  · obtain ⟨passed, hpath, hpassed⟩ := h.traversed q hcomputed
    have hedge : id ∈ g.successors q := by
      rw [hm.mirrored, Graph.predecessors_of_block? hblock]
      exact hq
    refine ⟨passed ++ [q], hpath.step hedge, fun q' hq' => ?_⟩
    rcases List.mem_append.1 hq' with hq' | hq'
    · exact hpassed q' hq'
    · rw [List.mem_singleton.1 hq']
      exact hcomputed

/-- The earlier run of a computed block stays one when another block is run. -/
theorem Rising.earlier_settle (h : Rising st fixed g initial p.outputs p.values)
    (hblock : g.block? id = some block)
    (hj : g.joinPredecessors p.outputs initial block = some joined)
    (hrun : (st.engine fixed).runBlock g p.values block.nodes joined = .ok run)
    (hsound : SoundOutputs st initial (settle p id block joined run).outputs) {other : BlockId}
    (hne : other ≠ id) (hother : (p.outputs.get? other).isSome) :
    ∃ source found input run', EarlierRun st fixed g initial
      (settle p id block joined run).outputs run.values other source found input run' := by
  have hle := h.outputsAtMost hm hblock hj hrun
  obtain ⟨source, found, input, run', he⟩ := h.earlier other hother
  obtain ⟨before, hbefore, hinput⟩ := he.input_below
  obtain ⟨after, hafter, hlower⟩ := joined_below hm hsound hle hbefore
  refine ⟨source, found, input, run', he.block_eq, he.run_eq, ?_, fun n hn => ?_,
    ⟨after, hafter, hinput.trans hlower⟩, fun o ho => (he.reads_below o ho).trans ?_⟩
  · rw [settle_outputs, if_neg fun hself => hne hself.1]
    exact he.output_eq
  · have hnot : n ∉ block.nodes := fun hmem =>
      hne (hm.distinct.heldOnlyBy hblock hmem other source he.block_eq hn)
    rw [runNodes_get?_of_notMem hrun hnot]
    exact he.own n hn
  · -- A computed block holds what is read, so no block that is run for the first time does.
    obtain ⟨q, held, hcomputed, hheld, hmem⟩ :=
      h.computed_of_readsOutside hm hother he.block_eq ho
    refine h.values_below hm hblock hj hrun fun hown => ?_
    rw [← hm.distinct.heldOnlyBy hblock hown q held hheld hmem]
    exact hcomputed

/-- A run that wakes the successors of its block keeps the invariant. -/
theorem Rising.settle (h : Rising st fixed g initial p.outputs p.values)
    (hblock : g.block? id = some block)
    (hj : g.joinPredecessors p.outputs initial block = some joined)
    (hrun : (st.engine fixed).runBlock g p.values block.nodes joined = .ok run)
    (hw : wakes p id run = true) :
    Rising st fixed g initial (settle p id block joined run).outputs run.values := by
  obtain ⟨hstores, hnormalized⟩ :=
    run_sound hm h.normalized (sound_joined hm h.sound hj) hblock hrun
  have hsound : SoundOutputs st initial (Engine.settle p id block joined run).outputs := by
    intro other out hout
    rw [settle_outputs] at hout
    split at hout
    · cases hout
      exact hstores
    · exact h.sound other out hout
  refine ⟨hsound, hnormalized, fun other hother => ?_, fun other hother => ?_⟩
  · have hpath : ∃ passed, g.Path passed other ∧ ∀ q ∈ passed, (p.outputs.get? q).isSome := by
      rw [settle_outputs] at hother
      split at hother
      · next hself => exact hself.1 ▸ h.exists_path hm hblock hj
      · exact h.traversed other hother
    obtain ⟨passed, hpath, hpassed⟩ := hpath
    exact ⟨passed, hpath, fun q hq => isSome_settle_outputs (hpassed q hq)⟩
  · by_cases hid : other = id
    · subst hid
      refine ⟨block, p.values, joined, run, hblock, hrun, ?_, fun _ _ => rfl,
        joined_below hm hsound (h.outputsAtMost hm hblock hj hrun) hj, fun o ho => ?_⟩
      · rw [settle_outputs, if_pos ⟨rfl, hw⟩]
      · exact h.values_below hm hblock hj hrun fun hown => absurd hown ho.1
    · rw [settle_outputs, if_neg fun hself => hid hself.1] at hother
      exact h.earlier_settle hm hblock hj hrun hsound hid hother

theorem Rising.turn (hc : config.widenAfter = none)
    (h : Rising st fixed g initial p.outputs p.values)
    (hstep : (st.engine fixed).step g config initial (taken p rest) id = .ok p') :
    Rising st fixed g initial p'.outputs p'.values := by
  rcases step_cases hstep with ⟨rfl, -⟩ | ⟨block, joined, run, hr, rfl⟩
  · exact h
  · have hinput : widenedInput config (taken p rest) id joined = joined := by
      rw [widenedInput, hc]
    have hrun := hr.run_eq
    rw [hinput] at hrun ⊢
    rw [settle_values]
    have hnow : Rising st fixed g initial (taken p rest).outputs (taken p rest).values := h
    by_cases hw : wakes (taken p rest) id run = true
    · exact hnow.settle hm hr.block_eq hr.joined_eq hrun hw
    · have hquiet := (wakes_eq_false.1 (Bool.eq_false_iff.2 hw)).1
      refine hnow.congr (fun other => ?_) (runNodes_get?_of_unchanged hrun hquiet)
      rw [settle_outputs, if_neg fun he => hw he.2]

end Monotone

end Engine

end FlowTyping
