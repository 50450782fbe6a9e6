import FlowTyping.Graph.Builder
import FlowTyping.Graph.Order
import Mathlib.Data.List.Nodup

/-!
# Paths through a graph

A path starts at the entry and follows successors. A block is reachable when a path ends in it,
and then some path meets it only at its end. The conditions on a graph that results about runs
ask for stand here: edges recorded at both ends, nodes that stand in one place only, and operands
that come before the nodes that use them.
-/

namespace FlowTyping.Graph

def predecessors (g : Graph) (id : BlockId) : List BlockId :=
  match g.block? id with
  | some block => block.predecessors
  | none => []

def nodesOf (g : Graph) (id : BlockId) : List NodeId :=
  match g.block? id with
  | some block => block.nodes
  | none => []

/-- Blocks stand at their own position, so the positions that edges list are the ids of blocks. -/
def Numbered (g : Graph) : Prop := ∀ id block, g.block? id = some block → block.id = id

/-- Every edge is recorded at both of its ends. -/
def Mirrored (g : Graph) : Prop :=
  ∀ u v, v ∈ g.successors u ↔ u ∈ g.predecessors v

/-- Control leaves a block towards the targets of its terminator and nowhere else. -/
def FollowsTerminators (g : Graph) : Prop :=
  ∀ block ∈ g.blocks, ∀ v,
    v ∈ block.successors ↔ ∃ t, block.terminator = some t ∧ v ∈ g.targets t

/-- No node stands twice in the blocks. -/
def DistinctNodes (g : Graph) : Prop := (g.blocks.flatMap (·.nodes)).Nodup

def HeldOnlyBy (g : Graph) (id : BlockId) (n : NodeId) : Prop :=
  ∀ other block, g.block? other = some block → n ∈ block.nodes → other = id

/-- A path from the entry: the blocks passed on the way, and the block where it ends. -/
inductive Path (g : Graph) : List BlockId → BlockId → Prop where
  | entry : Path g [] g.entry
  | step {passed u v} : Path g passed u → v ∈ g.successors u → Path g (passed ++ [u]) v

/-- Some path from the entry ends in the block. -/
def Reachable (g : Graph) (id : BlockId) : Prop := ∃ passed, g.Path passed id

/-- The node is among the nodes of the blocks passed or among those listed. -/
def Visited (g : Graph) (passed : List BlockId) (before : List NodeId) (n : NodeId) : Prop :=
  n ∈ before ∨ ∃ id ∈ passed, ∃ block, g.block? id = some block ∧ n ∈ block.nodes

/-- On every path from the entry, the operands of a node come before it. -/
def OperandsFirst (g : Graph) : Prop :=
  ∀ passed id block before n after node, g.Path passed id → g.block? id = some block →
    block.nodes = before ++ n :: after → g.node? n = some node →
    ∀ o ∈ node.kind.operands, g.Visited passed before o

variable {g : Graph}

theorem successors_of_block? {id : BlockId} {block : Block} (h : g.block? id = some block) :
    g.successors id = block.successors := by
  simp [successors, h]

theorem predecessors_of_block? {id : BlockId} {block : Block} (h : g.block? id = some block) :
    g.predecessors id = block.predecessors := by
  simp [predecessors, h]

theorem isSome_block?_of_successors {u v : BlockId} (h : v ∈ g.successors u) :
    (g.block? u).isSome := by
  cases hb : g.block? u with
  | none => simp [successors, hb] at h
  | some _ => rfl

theorem mem_nodesOf {id : BlockId} {n : NodeId} :
    n ∈ g.nodesOf id ↔ ∃ block, g.block? id = some block ∧ n ∈ block.nodes := by
  cases hb : g.block? id <;> simp [nodesOf, hb]

theorem Reachable.entry : g.Reachable g.entry := ⟨[], .entry⟩

theorem Reachable.step {u v : BlockId} (h : g.Reachable u) (hv : v ∈ g.successors u) :
    g.Reachable v := by
  obtain ⟨passed, hp⟩ := h
  exact ⟨passed ++ [u], hp.step hv⟩

/-- What holds of the entry and is handed on along edges holds of every reachable block. -/
theorem Reachable.induct {P : BlockId → Prop} (hentry : P g.entry)
    (hstep : ∀ u v, g.Reachable u → P u → v ∈ g.successors u → P v) {id : BlockId}
    (h : g.Reachable id) : P id := by
  obtain ⟨passed, hp⟩ := h
  induction hp with
  | entry => exact hentry
  | step hp hv ih => exact hstep _ _ ⟨_, hp⟩ ih hv

theorem Reachable.isSome_entry {id : BlockId} (h : g.Reachable id) (hb : (g.block? id).isSome) :
    (g.block? g.entry).isSome := by
  have hor : id = g.entry ∨ (g.block? g.entry).isSome := by
    refine h.induct (P := fun id => id = g.entry ∨ (g.block? g.entry).isSome) (Or.inl rfl)
      fun u v _ hu hv => Or.inr ?_
    rcases hu with rfl | hu
    · cases hentry : g.block? g.entry with
      | none => simp [successors, hentry] at hv
      | some _ => rfl
    · exact hu
  rcases hor with rfl | hor
  · exact hb
  · exact hor

theorem Path.stop {passed : List BlockId} {id u : BlockId} (h : g.Path passed id)
    (hu : u ∈ passed) : ∃ front back, passed = front ++ u :: back ∧ g.Path front u := by
  induction h with
  | entry => simp at hu
  | @step passed w v hp hv ih =>
    rcases List.mem_append.1 hu with hu | hu
    · obtain ⟨front, back, rfl, hf⟩ := ih hu
      exact ⟨front, back ++ [w], by simp, hf⟩
    · obtain rfl := List.mem_singleton.1 hu
      exact ⟨passed, [], rfl, hp⟩

theorem Reachable.exists_first {id : BlockId} (h : g.Reachable id) :
    ∃ passed, g.Path passed id ∧ id ∉ passed := by
  obtain ⟨passed, hp⟩ := h
  induction hn : passed.length using Nat.strongRecOn generalizing passed with
  | ind n ih =>
    by_cases hmem : id ∈ passed
    · obtain ⟨front, back, rfl, hf⟩ := hp.stop hmem
      refine ih front.length ?_ front hf rfl
      rw [← hn, List.length_append, List.length_cons]
      omega
    · exact ⟨passed, hp, hmem⟩

theorem Visited.mono {passed passed' : List BlockId} {before before' : List NodeId} {n : NodeId}
    (hp : passed ⊆ passed') (hb : before ⊆ before') (h : g.Visited passed before n) :
    g.Visited passed' before' n := by
  rcases h with h | ⟨id, hid, hrest⟩
  · exact Or.inl (hb h)
  · exact Or.inr ⟨id, hp hid, hrest⟩

theorem DistinctNodes.nodup (hg : g.DistinctNodes) {id : BlockId} {block : Block}
    (h : g.block? id = some block) : block.nodes.Nodup :=
  (List.nodup_flatMap.1 hg).1 block (List.mem_of_getElem? h)

theorem DistinctNodes.heldOnlyBy (hg : g.DistinctNodes) {id : BlockId} {block : Block}
    (h : g.block? id = some block) {n : NodeId} (hn : n ∈ block.nodes) : g.HeldOnlyBy id n := by
  intro other block' h' hn'
  have hpair := List.pairwise_iff_getElem.1 (List.nodup_flatMap.1 hg).2
  obtain ⟨hi, hbi⟩ := List.getElem?_eq_some_iff.1 h
  obtain ⟨hj, hbj⟩ := List.getElem?_eq_some_iff.1 h'
  rcases Nat.lt_trichotomy other.index id.index with hlt | heq | hgt
  · have hdis := hpair _ _ hj hi hlt
    rw [hbi, hbj] at hdis
    exact absurd hn (hdis hn')
  · cases other
    cases id
    exact congrArg BlockId.mk heq
  · have hdis := hpair _ _ hi hj hgt
    rw [hbi, hbj] at hdis
    exact absurd hn' (hdis hn)

section Deciding

def blockIds (g : Graph) : List BlockId := (List.range g.blocks.length).map .mk

private theorem mem_blockIds {id : BlockId} (h : (g.block? id).isSome) : id ∈ g.blockIds := by
  have hlt : id.index < g.blocks.length := by simpa [block?] using h
  exact List.mem_map.2 ⟨id.index, List.mem_range.2 hlt, rfl⟩

private theorem mem_blockIds_of_successors {u v : BlockId} (h : v ∈ g.successors u) :
    u ∈ g.blockIds :=
  mem_blockIds (isSome_block?_of_successors h)

private theorem mem_blockIds_of_predecessors {u v : BlockId} (h : u ∈ g.predecessors v) :
    v ∈ g.blockIds := by
  refine mem_blockIds ?_
  cases hb : g.block? v with
  | none => simp [predecessors, hb] at h
  | some _ => rfl

private theorem mirrored_iff : g.Mirrored ↔
    ∀ id ∈ g.blockIds, (∀ v ∈ g.successors id, id ∈ g.predecessors v) ∧
      ∀ u ∈ g.predecessors id, id ∈ g.successors u := by
  constructor
  · exact fun h id _ => ⟨fun v hv => (h id v).1 hv, fun u hu => (h u id).2 hu⟩
  · intro h u v
    exact ⟨fun hv => (h u (mem_blockIds_of_successors hv)).1 v hv,
      fun hu => (h v (mem_blockIds_of_predecessors hu)).2 u hu⟩

instance (g : Graph) : Decidable g.Mirrored := decidable_of_iff _ mirrored_iff.symm

private theorem followsTerminators_iff : g.FollowsTerminators ↔
    ∀ block ∈ g.blocks, (∀ v ∈ block.successors, v ∈ (block.terminator.map g.targets).getD []) ∧
      ∀ v ∈ (block.terminator.map g.targets).getD [], v ∈ block.successors := by
  refine forall_congr' fun block => forall_congr' fun _ => ?_
  cases block.terminator with
  | none => simp [iff_def]
  | some t => simp [iff_def, forall_and]

instance (g : Graph) : Decidable g.FollowsTerminators :=
  decidable_of_iff _ followsTerminators_iff.symm

instance (g : Graph) : Decidable g.DistinctNodes := by
  unfold DistinctNodes
  infer_instance

/-- The nodes listed as available are computed on every way into a block, and with the earlier
nodes of the block they suffice for the operands of each node. -/
def Covers (g : Graph) (available : BlockId → List NodeId) : Prop :=
  available g.entry = [] ∧
    (∀ id ∈ g.blockIds, ∀ v ∈ g.successors id, available v ⊆ available id ++ g.nodesOf id) ∧
    ∀ id ∈ g.blockIds, ∀ i < (g.nodesOf id).length, ∀ n ∈ (g.nodesOf id)[i]?,
      ∀ node ∈ g.node? n, node.kind.operands ⊆ available id ++ (g.nodesOf id).take i

instance (g : Graph) (available : BlockId → List NodeId) : Decidable (g.Covers available) := by
  unfold Covers
  infer_instance

private theorem Covers.visited {available : BlockId → List NodeId} (h : g.Covers available)
    {passed : List BlockId} {id : BlockId} (hp : g.Path passed id) :
    ∀ n ∈ available id, g.Visited passed [] n := by
  induction hp with
  | entry =>
    intro n hn
    rw [h.1] at hn
    exact absurd hn List.not_mem_nil
  | @step passed u v hp hv ih =>
    intro n hn
    rcases List.mem_append.1 (h.2.1 u (mem_blockIds_of_successors hv) v hv hn) with hn | hn
    · exact (ih n hn).mono (List.subset_append_left _ _) (fun _ h => h)
    · exact Or.inr ⟨u, by simp, mem_nodesOf.1 hn⟩

theorem Covers.operandsFirst {available : BlockId → List NodeId} (h : g.Covers available) :
    g.OperandsFirst := by
  intro passed id block before n after node hp hb hn hnode o ho
  have hid : id ∈ g.blockIds := mem_blockIds (by simp [hb])
  have hnodes : g.nodesOf id = before ++ n :: after := by simp [nodesOf, hb, hn]
  have hmem := h.2.2 id hid before.length (by simp [hnodes]) n (by simp [hnodes]) node hnode ho
  rcases List.mem_append.1 hmem with hmem | hmem
  · exact (h.visited hp o hmem).mono (fun _ h => h) (List.nil_subset _)
  · refine Or.inl ?_
    simpa [hnodes] using hmem

end Deciding

end FlowTyping.Graph
