import FlowTyping.Proofs.Graph.Paths

/-!
# Graphs built step by step

A graph is built from the one with only an entry and an exit by a sequence of changes. As long as
each change names only blocks that exist by then, the two ends of every edge stay in step: blocks
stand at their own position, an edge is listed once at its source and once at its target, and each
target of a terminator is a successor. Edges may also come from elsewhere: those that were added by
themselves, and those of an earlier terminator.
-/

namespace FlowTyping.Graph

inductive Change where
  | addBlock
  | addNode (kind : NodeKind) (ty : Ty) (tree : Option TreeId)
  | setAnnotatable (id : NodeId) (annotatable : Bool)
  | pushNode (block : BlockId) (node : NodeId)
  | addEdge (source target : BlockId)
  | setTerminator (block : BlockId) (terminator : Terminator)

def Change.blocks : Change → List BlockId
  | addBlock => []
  | addNode _ _ _ => []
  | setAnnotatable _ _ => []
  | pushNode block _ => [block]
  | addEdge source target => [source, target]
  | setTerminator block (.goto target) => [block, target]
  | setTerminator block (.branch thenBlock elseBlock) => [block, thenBlock, elseBlock]
  | setTerminator block .leave => [block]
  | setTerminator block .unreachable => [block]

def change (g : Graph) : Change → Graph
  | .addBlock => g.addBlock.2
  | .addNode kind ty tree => (g.addNode kind ty tree).2
  | .setAnnotatable id annotatable => g.setAnnotatable id annotatable
  | .pushNode block node => g.pushNode block node
  | .addEdge source target => g.addEdge source target
  | .setTerminator block terminator => g.setTerminator block terminator

def build (g : Graph) (changes : List Change) : Graph := changes.foldl change g

/-- Each of the changes names only blocks that exist when it is made. -/
def Allows : Graph → List Change → Prop
  | _, [] => True
  | g, c :: changes => (∀ id ∈ c.blocks, (g.block? id).isSome) ∧ (g.change c).Allows changes

instance decidableAllows : ∀ (g : Graph) (changes : List Change), Decidable (g.Allows changes)
  | _, [] => .isTrue trivial
  | g, c :: changes =>
    have := decidableAllows (g.change c) changes
    inferInstanceAs (Decidable ((∀ id ∈ c.blocks, _) ∧ _))

def terminator? (g : Graph) (id : BlockId) : Option Terminator :=
  (g.block? id).bind Block.terminator

/-- What building a graph preserves: blocks stand at their own position, edges are recorded once at
both ends, and they cover the ways out that the terminators name. -/
structure Linked (g : Graph) : Prop where
  exit : (g.block? g.exit).isSome
  numbered : g.Numbered
  mirrored : g.Mirrored
  nodup_successors : ∀ u, (g.successors u).Nodup
  nodup_predecessors : ∀ v, (g.predecessors v).Nodup
  targets_subset : ∀ u t, g.terminator? u = some t → g.targets t ⊆ g.successors u

variable {g : Graph} {source target u v : BlockId} {f : Block → Block}

section AppendNew

variable {α : Type} [DecidableEq α] {xs : List α} {x y : α}

@[simp] theorem mem_appendNew : y ∈ appendNew xs x ↔ y ∈ xs ∨ y = x := by
  rw [appendNew]
  split
  · next hx =>
    constructor
    · exact Or.inl
    · rintro (hy | rfl)
      · exact hy
      · exact hx
  · simp

theorem nodup_appendNew (h : xs.Nodup) : (appendNew xs x).Nodup := by
  rw [appendNew]
  split
  · exact h
  · next hx =>
    rw [← List.concat_eq_append]
    exact h.concat hx

end AppendNew

section ModifyBlock

theorem block?_modifyBlock (g : Graph) (id : BlockId) (f : Block → Block) (u : BlockId) :
    (g.modifyBlock id f).block? u = if u = id then (g.block? u).map f else g.block? u := by
  have hindex : id.index = u.index ↔ u = id := by
    rw [eq_comm, BlockId.mk.injEq]
  simp only [block?, modifyBlock, List.getElem?_modify, hindex]
  split <;> simp

@[simp] theorem isSome_block?_modifyBlock (g : Graph) (id : BlockId) (f : Block → Block)
    (u : BlockId) : ((g.modifyBlock id f).block? u).isSome = (g.block? u).isSome := by
  rw [block?_modifyBlock]
  split
  · exact Option.isSome_map
  · rfl

theorem Numbered.modifyBlock (h : g.Numbered) (id : BlockId) (hf : ∀ b, (f b).id = b.id) :
    (g.modifyBlock id f).Numbered := by
  intro u block hblock
  rw [block?_modifyBlock] at hblock
  split at hblock
  · obtain ⟨old, hold, rfl⟩ := Option.map_eq_some_iff.1 hblock
    rw [hf, h u old hold]
  · exact h u block hblock

theorem map_block?_modifyBlock {α : Type} (g : Graph) (id : BlockId) {read : Block → α}
    (hf : ∀ b, read (f b) = read b) (u : BlockId) :
    ((g.modifyBlock id f).block? u).map read = (g.block? u).map read := by
  rw [block?_modifyBlock]
  split
  · rw [Option.map_map]
    exact congrArg (Option.map · _) (funext hf)
  · rfl

theorem successors_eq (g : Graph) (u : BlockId) :
    g.successors u = ((g.block? u).map Block.successors).getD [] := by
  rw [successors]
  cases g.block? u <;> rfl

theorem predecessors_eq (g : Graph) (v : BlockId) :
    g.predecessors v = ((g.block? v).map Block.predecessors).getD [] := by
  rw [predecessors]
  cases g.block? v <;> rfl

theorem terminator?_eq (g : Graph) (u : BlockId) :
    g.terminator? u = ((g.block? u).map Block.terminator).getD none := by
  rw [terminator?]
  cases g.block? u <;> rfl

theorem successors_modifyBlock (g : Graph) (id : BlockId)
    (hf : ∀ b, (f b).successors = b.successors) (u : BlockId) :
    (g.modifyBlock id f).successors u = g.successors u := by
  rw [successors_eq, successors_eq, map_block?_modifyBlock g id hf]

theorem predecessors_modifyBlock (g : Graph) (id : BlockId)
    (hf : ∀ b, (f b).predecessors = b.predecessors) (v : BlockId) :
    (g.modifyBlock id f).predecessors v = g.predecessors v := by
  rw [predecessors_eq, predecessors_eq, map_block?_modifyBlock g id hf]

theorem terminator?_modifyBlock (g : Graph) (id : BlockId)
    (hf : ∀ b, (f b).terminator = b.terminator) (u : BlockId) :
    (g.modifyBlock id f).terminator? u = g.terminator? u := by
  rw [terminator?_eq, terminator?_eq, map_block?_modifyBlock g id hf]

end ModifyBlock

section Edges

private theorem getD_map_block?_modifyBlock {α : Type} {read : Block → α} (step : α → α)
    (hf : ∀ b, read (f b) = step (read b)) (hu : (g.block? u).isSome) (default : α) :
    (((g.modifyBlock u f).block? u).map read).getD default =
      step (((g.block? u).map read).getD default) := by
  obtain ⟨block, hblock⟩ := Option.isSome_iff_exists.1 hu
  rw [block?_modifyBlock, if_pos rfl, hblock]
  exact hf block

@[simp] theorem isSome_block?_addEdge (g : Graph) (source target u : BlockId) :
    ((g.addEdge source target).block? u).isSome = (g.block? u).isSome := by
  simp [addEdge]

theorem numbered_addEdge (h : g.Numbered) (source target : BlockId) :
    (g.addEdge source target).Numbered := by
  refine Numbered.modifyBlock (Numbered.modifyBlock h _ ?_) _ ?_
  · exact fun _ => rfl
  · exact fun _ => rfl

theorem successors_addEdge (hsource : (g.block? source).isSome) (target u : BlockId) :
    (g.addEdge source target).successors u =
      if u = source then appendNew (g.successors u) target else g.successors u := by
  rw [addEdge, successors_modifyBlock]
  · split
    · next hu =>
      subst hu
      rw [successors_eq, successors_eq]
      exact getD_map_block?_modifyBlock (appendNew · target) (fun _ => rfl) hsource []
    · next hu => rw [successors, block?_modifyBlock, if_neg hu, successors]
  · exact fun _ => rfl

theorem predecessors_addEdge (htarget : (g.block? target).isSome) (source v : BlockId) :
    (g.addEdge source target).predecessors v =
      if v = target then appendNew (g.predecessors v) source else g.predecessors v := by
  rw [addEdge]
  split
  · next hv =>
    subst hv
    rw [predecessors_eq, getD_map_block?_modifyBlock (appendNew · source) (fun _ => rfl),
      ← predecessors_eq, predecessors_modifyBlock]
    · exact fun _ => rfl
    · simpa using htarget
  · next hv =>
    rw [predecessors, block?_modifyBlock, if_neg hv, ← predecessors, predecessors_modifyBlock]
    exact fun _ => rfl

theorem mem_successors_addEdge (hsource : (g.block? source).isSome) :
    v ∈ (g.addEdge source target).successors u ↔
      v ∈ g.successors u ∨ u = source ∧ v = target := by
  rw [successors_addEdge hsource]
  split <;> simp [*]

theorem mem_predecessors_addEdge (htarget : (g.block? target).isSome) :
    u ∈ (g.addEdge source target).predecessors v ↔
      u ∈ g.predecessors v ∨ u = source ∧ v = target := by
  rw [predecessors_addEdge htarget]
  split <;> simp [*]

theorem terminator?_addEdge (g : Graph) (source target u : BlockId) :
    (g.addEdge source target).terminator? u = g.terminator? u := by
  rw [addEdge, terminator?_modifyBlock, terminator?_modifyBlock]
  · exact fun _ => rfl
  · exact fun _ => rfl

theorem Linked.addEdge (h : g.Linked) (hsource : (g.block? source).isSome)
    (htarget : (g.block? target).isSome) : (g.addEdge source target).Linked where
  exit := (isSome_block?_addEdge g source target g.exit).trans h.exit
  numbered := numbered_addEdge h.numbered source target
  mirrored u v := by
    rw [mem_successors_addEdge hsource, mem_predecessors_addEdge htarget, h.mirrored]
  nodup_successors u := by
    rw [successors_addEdge hsource]
    split
    · exact nodup_appendNew (h.nodup_successors u)
    · exact h.nodup_successors u
  nodup_predecessors v := by
    rw [predecessors_addEdge htarget]
    split
    · exact nodup_appendNew (h.nodup_predecessors v)
    · exact h.nodup_predecessors v
  targets_subset u t ht v hv := by
    rw [terminator?_addEdge] at ht
    exact (mem_successors_addEdge hsource).2 (Or.inl (h.targets_subset u t ht hv))

def addEdges (g : Graph) (source : BlockId) (targets : List BlockId) : Graph :=
  targets.foldl (fun g target => g.addEdge source target) g

theorem read_addEdges {α : Type} (read : Graph → α)
    (hread : ∀ g target, read (g.addEdge source target) = read g) (g : Graph)
    (targets : List BlockId) : read (g.addEdges source targets) = read g := by
  induction targets generalizing g with
  | nil => rfl
  | cons target targets ih => exact (ih (g.addEdge source target)).trans (hread g target)

theorem exit_addEdges (g : Graph) (source : BlockId) (targets : List BlockId) :
    (g.addEdges source targets).exit = g.exit :=
  read_addEdges exit (fun _ _ => rfl) g targets

/-- Edges between blocks that exist are added, and no edge gets lost on the way. -/
theorem Linked.addEdges (h : g.Linked) (hsource : (g.block? source).isSome) {targets : List BlockId}
    (htargets : ∀ target ∈ targets, (g.block? target).isSome) :
    (g.addEdges source targets).Linked ∧ targets ⊆ (g.addEdges source targets).successors source ∧
      g.successors source ⊆ (g.addEdges source targets).successors source := by
  induction targets generalizing g with
  | nil => exact ⟨h, List.nil_subset _, List.Subset.refl _⟩
  | cons target targets ih =>
    have htarget := htargets target List.mem_cons_self
    have hexists : ∀ u, ((g.addEdge source target).block? u).isSome = (g.block? u).isSome :=
      isSome_block?_addEdge g source target
    obtain ⟨hlinked, hadded, hold⟩ := ih (h.addEdge hsource htarget)
      ((hexists source).trans hsource)
      fun other hother => (hexists other).trans (htargets other (List.mem_cons_of_mem _ hother))
    have hfirst : target ∈ (g.addEdge source target).successors source :=
      (mem_successors_addEdge hsource).2 (Or.inr ⟨rfl, rfl⟩)
    exact ⟨hlinked, List.cons_subset.2 ⟨hold hfirst, hadded⟩,
      fun v hv => hold ((mem_successors_addEdge hsource).2 (Or.inl hv))⟩

end Edges

section Changes

theorem targets_congr {g' : Graph} (h : g'.exit = g.exit) (t : Terminator) :
    g'.targets t = g.targets t := by
  cases t <;> simp [targets, h]

theorem block?_addBlock (g : Graph) (u : BlockId) :
    g.addBlock.2.block? u = if u = ⟨g.blocks.length⟩ then some (.new u) else g.block? u := by
  simp only [addBlock, block?]
  split
  · next hu =>
    subst hu
    simp
  · next hu =>
    have hindex : u.index ≠ g.blocks.length := fun he => hu (congrArg BlockId.mk he)
    rcases Nat.lt_or_gt_of_ne hindex with hlt | hgt
    · rw [List.getElem?_append_left hlt]
    · have hlength : (g.blocks ++ [Block.new ⟨g.blocks.length⟩]).length ≤ u.index := by
        rw [List.length_append]
        exact hgt
      rw [List.getElem?_eq_none hlength, List.getElem?_eq_none (Nat.le_of_lt hgt)]

private theorem getD_map_block?_addBlock {α : Type} (g : Graph) (u : BlockId) {read : Block → α}
    {default : α} (hnew : ∀ id, read (.new id) = default) :
    ((g.addBlock.2.block? u).map read).getD default = ((g.block? u).map read).getD default := by
  rw [block?_addBlock]
  split
  · next hu =>
    have hnone : g.block? u = none := by
      subst hu
      simp [block?]
    rw [hnone]
    exact hnew u
  · rfl

theorem successors_addBlock (g : Graph) (u : BlockId) :
    g.addBlock.2.successors u = g.successors u := by
  rw [successors_eq, successors_eq]
  exact getD_map_block?_addBlock g u fun _ => rfl

theorem terminator?_addBlock (g : Graph) (u : BlockId) :
    g.addBlock.2.terminator? u = g.terminator? u := by
  rw [terminator?_eq, terminator?_eq]
  exact getD_map_block?_addBlock g u fun _ => rfl

private theorem Linked.of_sameEdges (h : g.Linked) {g' : Graph} (hexit : g'.exit = g.exit)
    (hexists : (g'.block? g.exit).isSome) (hnumbered : g'.Numbered)
    (hsuccessors : ∀ u, g'.successors u = g.successors u)
    (hpredecessors : ∀ v, g'.predecessors v = g.predecessors v)
    (htargets : ∀ u t, g'.terminator? u = some t → g.targets t ⊆ g.successors u) : g'.Linked where
  exit := hexit ▸ hexists
  numbered := hnumbered
  mirrored u v := by
    rw [hsuccessors, hpredecessors]
    exact h.mirrored u v
  nodup_successors u := hsuccessors u ▸ h.nodup_successors u
  nodup_predecessors v := hpredecessors v ▸ h.nodup_predecessors v
  targets_subset u t ht := by
    rw [hsuccessors, targets_congr hexit]
    exact htargets u t ht

private theorem Linked.modifyBlock (h : g.Linked) (hid : ∀ b, (f b).id = b.id)
    (hsuccessors : ∀ b, (f b).successors = b.successors)
    (hpredecessors : ∀ b, (f b).predecessors = b.predecessors)
    (htargets : ∀ b t, (f b).terminator = some t →
      b.terminator = some t ∨ g.targets t ⊆ g.successors u) : (g.modifyBlock u f).Linked := by
  refine h.of_sameEdges rfl ((isSome_block?_modifyBlock ..).trans h.exit)
    (h.numbered.modifyBlock u hid) (successors_modifyBlock g u hsuccessors)
    (predecessors_modifyBlock g u hpredecessors) fun v t ht => ?_
  rw [terminator?, block?_modifyBlock] at ht
  split at ht
  · next hv =>
    subst hv
    obtain ⟨_, hblock, hset⟩ := Option.bind_eq_some_iff.1 ht
    obtain ⟨old, hold, rfl⟩ := Option.map_eq_some_iff.1 hblock
    refine (htargets old t hset).elim (fun hsame => h.targets_subset v t ?_) id
    rw [terminator?, hold]
    exact hsame
  · exact h.targets_subset v t ht

private theorem getD_map_block?_new {α : Type} (code : Code) (parameters : List Variable)
    (u : BlockId) {read : Block → α} {default : α} (hnew : ∀ id, read (.new id) = default) :
    (((new code parameters).block? u).map read).getD default = default := by
  obtain ⟨_ | _ | n⟩ := u
  · exact hnew _
  · exact hnew _
  · rfl

theorem linked_new (code : Code) (parameters : List Variable) : (new code parameters).Linked := by
  have hsuccessors : ∀ u, (new code parameters).successors u = [] := fun u =>
    (successors_eq ..).trans (getD_map_block?_new code parameters u fun _ => rfl)
  have hpredecessors : ∀ v, (new code parameters).predecessors v = [] := fun v =>
    (predecessors_eq ..).trans (getD_map_block?_new code parameters v fun _ => rfl)
  refine ⟨rfl, ?_, fun u v => ?_, fun u => ?_, fun v => ?_, fun u t ht => ?_⟩
  · rintro ⟨_ | _ | n⟩ block hblock
    · cases hblock
      rfl
    · cases hblock
      rfl
    · cases hblock
  · simp [hsuccessors, hpredecessors]
  · simp [hsuccessors]
  · simp [hpredecessors]
  · rw [terminator?_eq, getD_map_block?_new code parameters u fun _ => rfl] at ht
    cases ht

/-- A change that names only blocks of the graph keeps it linked. -/
theorem Linked.change (h : g.Linked) {c : Change} (hc : ∀ id ∈ c.blocks, (g.block? id).isSome) :
    (g.change c).Linked := by
  cases c with
  | addBlock =>
    refine h.of_sameEdges rfl ?_ (fun u block hu => ?_) (successors_addBlock g) (fun v => ?_)
      fun u t ht => ?_
    · show (g.addBlock.2.block? g.exit).isSome
      rw [block?_addBlock]
      split
      · rfl
      · exact h.exit
    · change g.addBlock.2.block? u = some block at hu
      rw [block?_addBlock] at hu
      split at hu
      · cases hu
        rfl
      · exact h.numbered u block hu
    · rw [predecessors_eq, predecessors_eq]
      exact getD_map_block?_addBlock g v fun _ => rfl
    · exact h.targets_subset u t ((terminator?_addBlock g u).symm.trans ht)
  | addNode kind ty tree =>
    exact h.of_sameEdges rfl h.exit h.numbered (fun _ => rfl) (fun _ => rfl) h.targets_subset
  | setAnnotatable id annotatable =>
    exact h.of_sameEdges rfl h.exit h.numbered (fun _ => rfl) (fun _ => rfl) h.targets_subset
  | pushNode block node =>
    refine h.modifyBlock ?_ ?_ ?_ fun _ _ ht => Or.inl ht
    all_goals exact fun _ => rfl
  | addEdge source target =>
    exact h.addEdge (hc source (by simp [Change.blocks])) (hc target (by simp [Change.blocks]))
  | setTerminator block t =>
    have hblock : (g.block? block).isSome := hc block (by cases t <;> simp [Change.blocks])
    have htargets : ∀ target ∈ g.targets t, (g.block? target).isSome := by
      cases t with
      | leave => simpa [targets] using h.exit
      | unreachable => simp [targets]
      | _ => exact fun target htarget => hc target (List.mem_cons_of_mem _ htarget)
    obtain ⟨hlinked, hadded, -⟩ := h.addEdges hblock htargets
    refine hlinked.modifyBlock ?_ ?_ ?_ fun _ t' ht' => Or.inr ?_
    · exact fun _ => rfl
    · exact fun _ => rfl
    · exact fun _ => rfl
    · obtain rfl : t = t' := Option.some.inj ht'
      rwa [targets_congr (exit_addEdges g block _)]

/-- Graphs built by changes that each name only blocks that exist by then are linked. -/
theorem Linked.build (h : g.Linked) {changes : List Change} (hchanges : g.Allows changes) :
    (g.build changes).Linked := by
  induction changes generalizing g with
  | nil => exact h
  | cons c changes ih => exact ih (h.change hchanges.1) hchanges.2

end Changes

end FlowTyping.Graph
