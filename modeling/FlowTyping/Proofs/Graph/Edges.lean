import FlowTyping.Proofs.Graph.Building

/-!
# The edges of a graph that is built step by step

Changes of a graph add edges and never take one away: those that were added by themselves stay, and
so do those of a terminator that has been replaced. The edges of a built graph are therefore
exactly those that its changes bring (`mem_successors_build`).
-/

namespace FlowTyping.Graph

variable {g : Graph} {source u v : BlockId} {targets : List BlockId} {c : Change}
  {changes : List Change}

/-- The edges that a change brings, as pairs of a source and a target. -/
def broughtBy (g : Graph) : Change → List (BlockId × BlockId)
  | .addEdge source target => [(source, target)]
  | .setTerminator block t => (g.targets t).map (block, ·)
  | _ => []

section Exit

theorem exit_change (g : Graph) (c : Change) : (g.change c).exit = g.exit := by
  cases c with
  | setTerminator block t => exact exit_addEdges g block (g.targets t)
  | _ => rfl

theorem broughtBy_change (g : Graph) (c c' : Change) :
    (g.change c).broughtBy c' = g.broughtBy c' := by
  cases c' with
  | setTerminator block t => rw [broughtBy, targets_congr (exit_change g c), broughtBy]
  | _ => rfl

theorem broughtBy_build (g : Graph) (changes : List Change) (c : Change) :
    (g.build changes).broughtBy c = g.broughtBy c := by
  induction changes generalizing g with
  | nil => rfl
  | cons c' changes ih => exact (ih (g.change c')).trans (broughtBy_change g c' c)

end Exit

section Successors

theorem isSome_block?_addEdges (g : Graph) (source : BlockId) (targets : List BlockId)
    (u : BlockId) : ((g.addEdges source targets).block? u).isSome = (g.block? u).isSome :=
  read_addEdges (fun g => (g.block? u).isSome)
    (fun g target => isSome_block?_addEdge g source target u) g targets

theorem mem_successors_addEdges (hsource : (g.block? source).isSome) :
    v ∈ (g.addEdges source targets).successors u ↔
      v ∈ g.successors u ∨ u = source ∧ v ∈ targets := by
  induction targets generalizing g with
  | nil => simp [addEdges]
  | cons target targets ih =>
    have hstep : v ∈ ((g.addEdge source target).addEdges source targets).successors u ↔
        v ∈ (g.addEdge source target).successors u ∨ u = source ∧ v ∈ targets :=
      ih ((isSome_block?_addEdge g source target source).trans hsource)
    rw [mem_successors_addEdge hsource] at hstep
    refine hstep.trans ?_
    rw [List.mem_cons]
    tauto

/-- A change that names only blocks of the graph adds the edges that it brings, and no others. -/
theorem mem_successors_change (hc : ∀ id ∈ c.blocks, (g.block? id).isSome) :
    v ∈ (g.change c).successors u ↔ v ∈ g.successors u ∨ (u, v) ∈ g.broughtBy c := by
  cases c with
  | addBlock =>
    rw [show (g.change .addBlock).successors u = g.successors u from successors_addBlock g u]
    simp [broughtBy]
  | addNode kind ty tree => exact (or_iff_left List.not_mem_nil).symm
  | setAnnotatable id annotatable => exact (or_iff_left List.not_mem_nil).symm
  | pushNode block node =>
    have hsame : (g.pushNode block node).successors u = g.successors u := by
      rw [pushNode, successors_modifyBlock]
      exact fun _ => rfl
    rw [change, hsame]
    exact (or_iff_left List.not_mem_nil).symm
  | addEdge source target =>
    rw [broughtBy, List.mem_singleton, Prod.mk.injEq]
    exact mem_successors_addEdge (hc source (by simp [Change.blocks]))
  | setTerminator block t =>
    have hblock : (g.block? block).isSome := hc block (by cases t <;> simp [Change.blocks])
    have hsame : (g.setTerminator block t).successors u =
        (g.addEdges block (g.targets t)).successors u := by
      rw [setTerminator, successors_modifyBlock]
      · rfl
      · exact fun _ => rfl
    rw [change, hsame, mem_successors_addEdges hblock, broughtBy]
    simp [eq_comm, and_comm]

/-- The edges of a built graph are those with which it started and those that the changes bring. -/
theorem mem_successors_build (hchanges : g.Allows changes) :
    v ∈ (g.build changes).successors u ↔
      v ∈ g.successors u ∨ ∃ c ∈ changes, (u, v) ∈ g.broughtBy c := by
  induction changes generalizing g with
  | nil => simp [build]
  | cons c changes ih =>
    have hrest : v ∈ (g.build (c :: changes)).successors u ↔
        v ∈ (g.change c).successors u ∨ ∃ c' ∈ changes, (u, v) ∈ (g.change c).broughtBy c' :=
      ih hchanges.2
    simp only [broughtBy_change, mem_successors_change hchanges.1] at hrest
    rw [hrest, or_assoc]
    simp

theorem allows_append {earlier later : List Change} :
    g.Allows (earlier ++ later) ↔ g.Allows earlier ∧ (g.build earlier).Allows later := by
  induction earlier generalizing g with
  | nil => exact (iff_of_eq (true_and _)).symm
  | cons c earlier ih => exact (and_congr_right fun _ => ih).trans and_assoc.symm

theorem successors_build_append {earlier later : List Change}
    (hchanges : g.Allows (earlier ++ later)) (u : BlockId) :
    (g.build earlier).successors u ⊆ (g.build (earlier ++ later)).successors u := by
  intro v hv
  rw [build, List.foldl_append]
  exact (mem_successors_build (allows_append.1 hchanges).2).2 (Or.inl hv)

theorem successors_new (code : Code) (parameters : List Variable) (u : BlockId) :
    (new code parameters).successors u = [] := by
  obtain ⟨_ | _ | n⟩ := u <;> rfl

end Successors

section Terminators

theorem terminator?_addEdges (g : Graph) (source : BlockId) (targets : List BlockId)
    (u : BlockId) : (g.addEdges source targets).terminator? u = g.terminator? u :=
  read_addEdges (fun g => g.terminator? u)
    (fun g target => terminator?_addEdge g source target u) g targets

theorem terminator?_change (g : Graph) (hc : ∀ t, c ≠ .setTerminator u t) :
    (g.change c).terminator? u = g.terminator? u := by
  cases c with
  | addBlock => exact terminator?_addBlock g u
  | addNode kind ty tree => rfl
  | setAnnotatable id annotatable => rfl
  | pushNode block node =>
    rw [change, pushNode, terminator?_modifyBlock]
    exact fun _ => rfl
  | addEdge source target => exact terminator?_addEdge g source target u
  | setTerminator block t =>
    have hne : u ≠ block := fun h => hc t (h ▸ rfl)
    rw [change, setTerminator, terminator?, block?_modifyBlock, if_neg hne]
    exact terminator?_addEdges g block (g.targets t) u

theorem terminator?_build (g : Graph) (hchanges : ∀ t, .setTerminator u t ∉ changes) :
    (g.build changes).terminator? u = g.terminator? u := by
  induction changes generalizing g with
  | nil => rfl
  | cons c changes ih =>
    have hfirst : ∀ t, c ≠ .setTerminator u t := fun t h => hchanges t (h ▸ List.mem_cons_self)
    have hrest : ∀ t, .setTerminator u t ∉ changes := fun t h =>
      hchanges t (List.mem_cons_of_mem _ h)
    exact (ih (g.change c) hrest).trans (terminator?_change g hfirst)

theorem terminator?_setTerminator (hu : (g.block? u).isSome) (t : Terminator) :
    (g.setTerminator u t).terminator? u = some t := by
  have hexists : ((g.addEdges u (g.targets t)).block? u).isSome := by
    rwa [isSome_block?_addEdges]
  obtain ⟨block, hblock⟩ := Option.isSome_iff_exists.1 hexists
  rw [setTerminator, terminator?, block?_modifyBlock, if_pos rfl]
  change Option.bind (Option.map _ ((g.addEdges u (g.targets t)).block? u)) _ = _
  rw [hblock]
  rfl

theorem terminator?_build_last {earlier later : List Change} {t : Terminator}
    (hchanges : g.Allows (earlier ++ .setTerminator u t :: later))
    (hlater : ∀ t', .setTerminator u t' ∉ later) :
    (g.build (earlier ++ .setTerminator u t :: later)).terminator? u = some t := by
  have hu : ((g.build earlier).block? u).isSome :=
    (allows_append.1 hchanges).2.1 u (by cases t <;> simp [Change.blocks])
  have hsplit : g.build (earlier ++ .setTerminator u t :: later) =
      ((g.build earlier).setTerminator u t).build later := by
    rw [build, List.foldl_append]
    rfl
  rw [hsplit, terminator?_build _ hlater, terminator?_setTerminator hu]

end Terminators

section Nodes

def NodesNumbered (g : Graph) : Prop := ∀ id node, g.node? id = some node → node.id = id

theorem NodesNumbered.congr (h : g.NodesNumbered) {g' : Graph} (hnodes : g'.nodes = g.nodes) :
    g'.NodesNumbered := by
  intro id node hid
  rw [node?, hnodes] at hid
  exact h id node hid

theorem nodes_addEdges (g : Graph) (source : BlockId) (targets : List BlockId) :
    (g.addEdges source targets).nodes = g.nodes :=
  read_addEdges nodes (fun _ _ => rfl) g targets

theorem NodesNumbered.change (h : g.NodesNumbered) (c : Change) : (g.change c).NodesNumbered := by
  cases c with
  | addNode kind ty tree =>
    intro id node hid
    change (g.nodes ++ [_])[id.index]? = some node at hid
    rw [List.getElem?_append] at hid
    split at hid
    · exact h id node hid
    · next hge =>
      rw [List.getElem?_singleton] at hid
      split at hid
      · next hfirst =>
        have hlength : id.index = g.nodes.length := by omega
        cases hid
        exact congrArg NodeId.mk hlength.symm
      · cases hid
  | setAnnotatable n annotatable =>
    intro id node hid
    change (g.nodes.modify n.index _)[id.index]? = some node at hid
    rw [List.getElem?_modify] at hid
    obtain ⟨old, hold, rfl⟩ := Option.map_eq_some_iff.1 hid
    split <;> exact h id old hold
  | setTerminator block t => exact h.congr (nodes_addEdges g block (g.targets t))
  | _ => exact h.congr rfl

theorem nodesNumbered_new (code : Code) (parameters : List Variable) :
    (new code parameters).NodesNumbered := by
  intro id node hid
  cases hid

theorem NodesNumbered.build (h : g.NodesNumbered) (changes : List Change) :
    (g.build changes).NodesNumbered := by
  induction changes generalizing g with
  | nil => exact h
  | cons c changes ih => exact ih (h.change c)

end Nodes

/-- In a graph that is built by changes that name only blocks that exist by then, blocks and nodes
stand at their own position, both ends of an edge list it, once each, the edges are exactly those
that the changes bring, none of them gets lost on the way, and the terminator of a block is the one
that was set last and leads along edges only. -/
theorem edges_of_build {code : Code} {parameters : List Variable}
    (hchanges : (new code parameters).Allows changes) :
    let g := (new code parameters).build changes
    (∀ id block, g.block? id = some block → block.id = id) ∧
    (∀ id node, g.node? id = some node → node.id = id) ∧
    (∀ u v, v ∈ g.successors u ↔ u ∈ g.predecessors v) ∧
    (∀ u, (g.successors u).Nodup ∧ (g.predecessors u).Nodup) ∧
    (∀ u v, v ∈ g.successors u ↔ ∃ c ∈ changes, (u, v) ∈ g.broughtBy c) ∧
    (∀ earlier later, changes = earlier ++ later →
      ∀ u, ((new code parameters).build earlier).successors u ⊆ g.successors u) ∧
    (∀ earlier u t later, changes = earlier ++ .setTerminator u t :: later →
      (∀ t', .setTerminator u t' ∉ later) → g.terminator? u = some t) ∧
    ∀ u t, g.terminator? u = some t → g.targets t ⊆ g.successors u := by
  intro g
  have hlinked : g.Linked := (linked_new code parameters).build hchanges
  refine ⟨hlinked.numbered, (nodesNumbered_new code parameters).build changes, hlinked.mirrored,
    fun u => ⟨hlinked.nodup_successors u, hlinked.nodup_predecessors u⟩, fun u v => ?_, ?_,
    ?_, hlinked.targets_subset⟩
  · rw [mem_successors_build hchanges, successors_new]
    simp only [List.not_mem_nil, false_or, g, broughtBy_build]
  · rintro earlier later rfl u
    exact successors_build_append hchanges u
  · rintro earlier u t later rfl hlater
    exact terminator?_build_last hchanges hlater

end FlowTyping.Graph

namespace FlowTyping.RetryLoop

/-- The body of a loop that first jumps back to itself on failure and in the end always leaves; the
edge from the entry is added twice. -/
private def changes : List Graph.Change :=
  [.addBlock, .addNode (.literal (.boolean true)) (.primitive .boolean) none,
    .setTerminator ⟨0⟩ (.goto ⟨2⟩), .pushNode ⟨2⟩ ⟨0⟩, .setTerminator ⟨2⟩ (.branch ⟨1⟩ ⟨2⟩),
    .addEdge ⟨0⟩ ⟨2⟩, .setAnnotatable ⟨0⟩ false, .setTerminator ⟨2⟩ .leave]

private def body : Graph := (Graph.new (.fragment ⟨0⟩) []).build changes

/-- The edge of the body to itself outlives its terminator, and both of its ends know of it. -/
theorem body_edges :
    (Graph.new (.fragment ⟨0⟩) []).Allows changes ∧ body.terminator? ⟨2⟩ = some .leave ∧
    ⟨2⟩ ∈ body.successors ⟨2⟩ ∧ ⟨2⟩ ∈ body.predecessors ⟨2⟩ ∧
    (body.successors ⟨0⟩).Nodup ∧ (body.predecessors ⟨2⟩).Nodup ∧
    body.targets .leave ⊆ body.successors ⟨2⟩ := by
  have hchanges : (Graph.new (.fragment ⟨0⟩) []).Allows changes := by decide
  obtain ⟨-, -, hmirrored, hnodup, hedges, -, hlast, htargets⟩ := Graph.edges_of_build hchanges
  have hterminator : body.terminator? ⟨2⟩ = some .leave :=
    hlast (changes.take 7) ⟨2⟩ .leave [] rfl fun _ => List.not_mem_nil
  have hloop : ⟨2⟩ ∈ body.successors ⟨2⟩ :=
    (hedges ⟨2⟩ ⟨2⟩).2 ⟨.setTerminator ⟨2⟩ (.branch ⟨1⟩ ⟨2⟩), by simp [changes], by decide⟩
  exact ⟨hchanges, hterminator, hloop, (hmirrored ⟨2⟩ ⟨2⟩).1 hloop, (hnodup ⟨0⟩).1, (hnodup ⟨2⟩).2,
    htargets ⟨2⟩ .leave hterminator⟩

end FlowTyping.RetryLoop
