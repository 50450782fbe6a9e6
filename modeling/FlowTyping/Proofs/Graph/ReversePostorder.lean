import FlowTyping.Proofs.Graph.Paths
import FlowTyping.Proofs.Loop
import Mathlib.Logic.Relation

/-!
# Blocks in reverse postorder

The depth-first walk reaches the blocks to which a path leads from the entry and finishes each of
them once. While it runs, the blocks on the stack lead from one to the next, so a successor of the
block that is being finished is finished already or leads back to it. Hence the order in which the
blocks were finished, read backwards, goes along every edge from which there is no way back.

The walk is also given as a loop that counts the successors it has looked at (`walkTurn`); the loop
stops with the same order (`ends_reversePostorder`).
-/

namespace FlowTyping.Graph

variable {g : Graph} {seen : List BlockId} {stack : List (Frame g)} {order : List BlockId}

def Leads (g : Graph) (u v : BlockId) : Prop :=
  Relation.ReflTransGen (fun a b => b ∈ g.successors a) u v

theorem reachable_iff_leads {id : BlockId} : g.Reachable id ↔ g.Leads g.entry id := by
  constructor
  · exact fun h => h.induct .refl fun u v _ hu hv => hu.tail hv
  · intro h
    induction h with
    | refl => exact .entry
    | tail _ hstep ih => exact ih.step hstep

/-- Each block of a list comes before its successors, unless these lead back to it. -/
def Forward (g : Graph) (order : List BlockId) : Prop :=
  ∀ front u back, order = front ++ u :: back → ∀ v ∈ g.successors u, v ∈ back ∨ g.Leads v u

theorem Forward.cons (h : g.Forward order) {u : BlockId}
    (hu : ∀ v ∈ g.successors u, v ∈ order ∨ g.Leads v u) : g.Forward (u :: order) := by
  rintro (_ | ⟨w, front⟩) u' back hsplit
  · obtain ⟨rfl, rfl⟩ := List.cons.inj hsplit
    exact hu
  · exact h front u' back (List.cons.inj hsplit).2

theorem Forward.idxOf_lt (h : g.Forward order) (hnodup : order.Nodup) {u v : BlockId}
    (hu : u ∈ order) (hv : v ∈ g.successors u) (hback : ¬g.Leads v u) :
    order.idxOf u < order.idxOf v := by
  obtain ⟨front, back, rfl⟩ := List.append_of_mem hu
  have hlater : v ∈ back := (h front u back rfl v hv).resolve_right hback
  have hdisjoint := List.disjoint_of_nodup_append hnodup
  have hfront : v ∉ front := fun hmem => hdisjoint hmem (List.mem_cons_of_mem _ hlater)
  have hne : u ≠ v := fun he =>
    (List.nodup_cons.1 (List.nodup_append.1 hnodup).2.1).1 (he ▸ hlater)
  have hufront : u ∉ front := fun hmem => hdisjoint hmem List.mem_cons_self
  rw [List.idxOf_append_of_notMem hufront, List.idxOf_append_of_notMem hfront,
    List.idxOf_cons_self, List.idxOf_cons_ne _ hne]
  omega

/-- The blocks reached so far: those on the stack, from the bottom up, and the finished ones. -/
def reached (stack : List (Frame g)) (order : List BlockId) : List BlockId :=
  (stack.map (·.block)).reverse ++ order

theorem reached_cons (f : Frame g) (stack : List (Frame g)) (order : List BlockId) :
    reached (f :: stack) order = reached stack (f.block :: order) := by
  simp [reached]

/-- What the walk preserves. -/
structure WalkInvariant (g : Graph) (seen : List BlockId) (stack : List (Frame g))
    (order : List BlockId) : Prop where
  first : (reached stack order).head? = some g.entry
  nodup : (reached stack order).Nodup
  mem_seen : ∀ id, id ∈ seen ↔ id ∈ reached stack order
  leads : ∀ id ∈ seen, g.Leads g.entry id
  /-- What is still to be looked at are successors, and the other ones were seen. -/
  pending : ∀ f ∈ stack, ∀ s, s ∈ f.pending → s ∈ g.successors f.block
  looked : ∀ f ∈ stack, ∀ s ∈ g.successors f.block, s ∈ f.pending ∨ s ∈ seen
  nested : stack.Pairwise fun upper lower => g.Leads lower.block upper.block
  closed : ∀ u ∈ order, ∀ v ∈ g.successors u, v ∈ seen
  forward : g.Forward order

theorem walkInvariant_start (g : Graph) :
    WalkInvariant g [g.entry] [Frame.enter g g.entry] [] where
  first := rfl
  nodup := List.nodup_singleton _
  mem_seen _ := Iff.rfl
  leads id hid := by
    obtain rfl := List.mem_singleton.1 hid
    exact .refl
  pending f hf s hs := by
    obtain rfl := List.mem_singleton.1 hf
    exact hs
  looked f hf s hs := by
    obtain rfl := List.mem_singleton.1 hf
    exact Or.inl hs
  nested := List.pairwise_singleton _ _
  closed _ hu := absurd hu List.not_mem_nil
  forward front u back hsplit := by simp at hsplit

/-- A block is finished when nothing of it is left to look at. -/
theorem WalkInvariant.finish {f : Frame g} (h : WalkInvariant g seen (f :: stack) order)
    (hdone : f.pending = []) : WalkInvariant g seen stack (f.block :: order) := by
  have hseen : ∀ v ∈ g.successors f.block, v ∈ seen := by
    intro v hv
    have hlooked := h.looked f List.mem_cons_self v hv
    rwa [hdone, or_iff_right List.not_mem_nil] at hlooked
  obtain ⟨hnested, hrest⟩ := List.pairwise_cons.1 h.nested
  refine ⟨reached_cons f stack order ▸ h.first, reached_cons f stack order ▸ h.nodup,
    reached_cons f stack order ▸ h.mem_seen, h.leads,
    fun f' hf' => h.pending f' (List.mem_cons_of_mem _ hf'),
    fun f' hf' => h.looked f' (List.mem_cons_of_mem _ hf'), hrest,
    List.forall_mem_cons.2 ⟨hseen, h.closed⟩, h.forward.cons fun v hv => ?_⟩
  have hreached := (h.mem_seen v).1 (hseen v hv)
  rw [reached_cons, reached, List.mem_append, List.mem_reverse, List.mem_cons] at hreached
  rcases hreached with hstack | rfl | hfinished
  · obtain ⟨lower, hlower, rfl⟩ := List.mem_map.1 hstack
    exact Or.inr (hnested lower hlower)
  · exact Or.inr .refl
  · exact Or.inl hfinished

section Look

variable {block s : BlockId} {pending : List BlockId}
  {hids : ∀ x ∈ s :: pending, x ∈ g.successorIds} {hids' : ∀ x ∈ pending, x ∈ g.successorIds}

/-- What is looked at next is the only successor that may be neither seen nor left for later. -/
theorem WalkInvariant.looked_at
    (h : WalkInvariant g seen (⟨block, s :: pending, hids⟩ :: stack) order) :
    ∀ x ∈ g.successors block, x = s ∨ x ∈ pending ∨ x ∈ seen := by
  intro x hx
  rw [← or_assoc, ← List.mem_cons]
  exact h.looked _ List.mem_cons_self x hx

/-- A successor that was seen before is passed over. -/
theorem WalkInvariant.skip (h : WalkInvariant g seen (⟨block, s :: pending, hids⟩ :: stack) order)
    (hs : s ∈ seen) : WalkInvariant g seen (⟨block, pending, hids'⟩ :: stack) order where
  first := h.first
  nodup := h.nodup
  mem_seen := h.mem_seen
  leads := h.leads
  pending := by
    refine List.forall_mem_cons.2 ⟨fun x hx => ?_, fun f hf => ?_⟩
    · exact h.pending _ List.mem_cons_self x (List.mem_cons_of_mem _ hx)
    · exact h.pending f (List.mem_cons_of_mem _ hf)
  looked := by
    refine List.forall_mem_cons.2 ⟨fun x hx => ?_, fun f hf => ?_⟩
    · rcases h.looked_at x hx with rfl | hpending | hx
      · exact Or.inr hs
      · exact Or.inl hpending
      · exact Or.inr hx
    · exact h.looked f (List.mem_cons_of_mem _ hf)
  nested := List.pairwise_cons.2 (List.pairwise_cons.1 h.nested)
  closed := h.closed
  forward := h.forward

/-- A block that was not seen before is entered from the block on top of the stack. -/
theorem WalkInvariant.enter (h : WalkInvariant g seen (⟨block, s :: pending, hids⟩ :: stack) order)
    (hs : s ∉ seen) : WalkInvariant g (s :: seen)
      (Frame.enter g s :: ⟨block, pending, hids'⟩ :: stack) order := by
  have hperm : (reached (Frame.enter g s :: ⟨block, pending, hids'⟩ :: stack) order).Perm
      (s :: reached (⟨block, s :: pending, hids⟩ :: stack) order) := by
    have hmiddle : (((stack.map (·.block)).reverse ++ [block]) ++ s :: order).Perm
        (s :: (((stack.map (·.block)).reverse ++ [block]) ++ order)) := List.perm_middle
    simpa [reached, Frame.enter] using hmiddle
  have hedge : s ∈ g.successors block := h.pending _ List.mem_cons_self s List.mem_cons_self
  have hblock : block ∈ seen := (h.mem_seen block).2 (by simp [reached])
  obtain ⟨hnested, hrest⟩ := List.pairwise_cons.1 h.nested
  constructor
  case first =>
    have hfirst := h.first
    rw [reached_cons, reached, List.head?_append, List.head?_cons] at hfirst
    rw [reached_cons, reached_cons, reached, List.head?_append, List.head?_cons]
    exact hfirst
  case nodup =>
    exact hperm.nodup_iff.2 (List.nodup_cons.2 ⟨fun hmem => hs ((h.mem_seen s).2 hmem), h.nodup⟩)
  case mem_seen =>
    intro id
    rw [hperm.mem_iff, List.mem_cons, List.mem_cons, h.mem_seen]
  case leads =>
    exact List.forall_mem_cons.2 ⟨(h.leads block hblock).tail hedge, h.leads⟩
  case pending =>
    refine List.forall_mem_cons.2 ⟨fun _ hx => hx, List.forall_mem_cons.2 ⟨fun x hx => ?_, ?_⟩⟩
    · exact h.pending _ List.mem_cons_self x (List.mem_cons_of_mem _ hx)
    · exact fun f hf => h.pending f (List.mem_cons_of_mem _ hf)
  case looked =>
    refine List.forall_mem_cons.2 ⟨fun _ hx => Or.inl hx,
      List.forall_mem_cons.2 ⟨fun x hx => ?_, fun f hf x hx => ?_⟩⟩
    · rcases h.looked_at x hx with rfl | hpending | hx
      · exact Or.inr List.mem_cons_self
      · exact Or.inl hpending
      · exact Or.inr (List.mem_cons_of_mem _ hx)
    · exact (h.looked f (List.mem_cons_of_mem _ hf) x hx).imp_right (List.mem_cons_of_mem _)
  case nested =>
    -- Whatever leads to the block on top leads on to the one entered from it.
    refine List.pairwise_cons.2 ⟨List.forall_mem_cons.2 ⟨.single hedge, fun lower hlower => ?_⟩,
      List.pairwise_cons.2 ⟨hnested, hrest⟩⟩
    exact (hnested lower hlower).tail hedge
  case closed =>
    exact fun u hu v hv => List.mem_cons_of_mem _ (h.closed u hu v hv)
  case forward => exact h.forward

end Look

/-- The whole walk preserves what its turns preserve. -/
theorem WalkInvariant.walk (h : WalkInvariant g seen stack order) :
    ∃ seen', WalkInvariant g seen' [] (walk g seen stack order) := by
  fun_induction Graph.walk g seen stack order with
  | case1 seen order => exact ⟨seen, h⟩
  | case2 seen block _ stack order ih => exact ih (h.finish rfl)
  | case3 seen block s pending hids stack order rest hs ih => exact ih (h.skip hs)
  | case4 seen block s pending hids stack order rest hs ih => exact ih (h.enter hs)

/-- What the walk preserves, at its end. -/
theorem exists_walkInvariant (g : Graph) : ∃ seen, WalkInvariant g seen [] g.reversePostorder :=
  (walkInvariant_start g).walk

theorem mem_reversePostorder_iff {id : BlockId} :
    id ∈ g.reversePostorder ↔ g.Leads g.entry id := by
  obtain ⟨seen, h⟩ := exists_walkInvariant g
  constructor
  · exact fun hid => h.leads id ((h.mem_seen id).2 hid)
  · intro hid
    induction hid with
    | refl => exact List.mem_of_head? h.first
    | tail _ hstep ih => exact (h.mem_seen _).1 (h.closed _ ih _ hstep)

theorem entry_mem_reversePostorder (g : Graph) : g.entry ∈ g.reversePostorder :=
  mem_reversePostorder_iff.2 .refl

theorem reachable_of_mem_reversePostorder {id : BlockId} (h : id ∈ g.reversePostorder) :
    g.Reachable id :=
  reachable_iff_leads.2 (mem_reversePostorder_iff.1 h)

/-! ### The walk as a loop -/

/-- The state of a depth-first walk that counts, for each block on its stack, the successors that it
has looked at. -/
structure WalkState where
  visited : List BlockId
  stack : List (BlockId × Nat)
  postorder : List BlockId

/-- One turn of the walk: it looks at the next successor of the block on top of the stack, or takes
the block off when none is left. -/
def walkTurn (g : Graph) (w : WalkState) : WalkState ⊕ List BlockId :=
  match w.stack with
  | [] => .inr w.postorder.reverse
  | (block, next) :: below =>
    match (g.successors block)[next]? with
    | none => .inl ⟨w.visited, below, w.postorder ++ [block]⟩
    | some s =>
      if s ∈ w.visited then .inl ⟨w.visited, (block, next + 1) :: below, w.postorder⟩
      else .inl ⟨s :: w.visited, (s, 0) :: (block, next + 1) :: below, w.postorder⟩

/-- The frame looks at the successors of its block from the counted one on. -/
def Frame.At (f : Frame g) (counted : BlockId × Nat) : Prop :=
  f.block = counted.1 ∧ f.pending = (g.successors counted.1).drop counted.2

private theorem getElem?_of_drop {α : Type} {xs rest : List α} {n : Nat} {x : α}
    (h : x :: rest = xs.drop n) : xs[n]? = some x ∧ rest = xs.drop (n + 1) := by
  constructor
  · rw [← List.head?_drop, ← h, List.head?_cons]
  · rw [← List.tail_drop, ← h, List.tail_cons]

/-- Counting the successors that were looked at leads through the same walk. -/
theorem ends_walk (seen : List BlockId) (stack : List (Frame g)) (order : List BlockId) :
    ∀ counted, List.Forall₂ Frame.At stack counted →
      Ends g.walkTurn ⟨seen, counted, order.reverse⟩ (walk g seen stack order) := by
  fun_induction walk g seen stack order with
  | case1 seen order =>
    intro counted hstack
    cases hstack
    exact .stop (congrArg Sum.inr order.reverse_reverse)
  | case2 seen block _ stack order ih =>
    intro counted hstack
    obtain ⟨⟨_, next⟩, below, ⟨rfl, hpending⟩, hbelow, rfl⟩ := List.forall₂_cons_left_iff.1 hstack
    have hnext : (g.successors block)[next]? = none :=
      List.getElem?_eq_none (List.drop_eq_nil_iff.1 hpending.symm)
    have hturn : g.walkTurn ⟨seen, (block, next) :: below, order.reverse⟩ =
        .inl ⟨seen, below, (block :: order).reverse⟩ := by
      simp [walkTurn, hnext]
    exact .more hturn (ih below hbelow)
  | case3 seen block s pending hids stack order rest hs ih =>
    intro counted hstack
    obtain ⟨⟨_, next⟩, below, ⟨rfl, hpending⟩, hbelow, rfl⟩ := List.forall₂_cons_left_iff.1 hstack
    obtain ⟨hnext, hrest⟩ := getElem?_of_drop hpending
    have hturn : g.walkTurn ⟨seen, (block, next) :: below, order.reverse⟩ =
        .inl ⟨seen, (block, next + 1) :: below, order.reverse⟩ := by
      simp [walkTurn, hnext, hs]
    exact .more hturn (ih _ (.cons ⟨rfl, hrest⟩ hbelow))
  | case4 seen block s pending hids stack order rest hs ih =>
    intro counted hstack
    obtain ⟨⟨_, next⟩, below, ⟨rfl, hpending⟩, hbelow, rfl⟩ := List.forall₂_cons_left_iff.1 hstack
    obtain ⟨hnext, hrest⟩ := getElem?_of_drop hpending
    have hturn : g.walkTurn ⟨seen, (block, next) :: below, order.reverse⟩ =
        .inl ⟨s :: seen, (s, 0) :: (block, next + 1) :: below, order.reverse⟩ := by
      simp [walkTurn, hnext, hs]
    exact .more hturn (ih _ (.cons ⟨rfl, rfl⟩ (.cons ⟨rfl, hrest⟩ hbelow)))

/-- The walk stops, and the order in which it finished the blocks is the reverse of the result. -/
theorem ends_reversePostorder (g : Graph) :
    Ends g.walkTurn ⟨[g.entry], [(g.entry, 0)], []⟩ g.reversePostorder :=
  ends_walk [g.entry] [Frame.enter g g.entry] [] _ (.cons ⟨rfl, rfl⟩ .nil)

/-- The walk stops, also where the graph has loops or lists successors that do not exist. Its order
lists exactly the blocks to which following successors leads from the entry, each once, the entry
first, and a block comes before each of its successors from which there is no way back. -/
theorem reversePostorder_complete (g : Graph) :
    Ends g.walkTurn ⟨[g.entry], [(g.entry, 0)], []⟩ g.reversePostorder ∧
    (∀ id, id ∈ g.reversePostorder ↔ g.Leads g.entry id) ∧
    g.reversePostorder.Nodup ∧ g.reversePostorder.head? = some g.entry ∧
    ∀ u v, g.Leads g.entry u → v ∈ g.successors u → ¬g.Leads v u →
      g.reversePostorder.idxOf u < g.reversePostorder.idxOf v := by
  obtain ⟨seen, h⟩ := exists_walkInvariant g
  refine ⟨ends_reversePostorder g, fun id => mem_reversePostorder_iff, h.nodup, h.first, ?_⟩
  intro u v hu hv hback
  exact h.forward.idxOf_lt h.nodup (mem_reversePostorder_iff.2 hu) hv hback

end FlowTyping.Graph

namespace FlowTyping.DanglingEdge

/-- A loop whose body also goes back to itself and to a block that does not exist. -/
private def body : Graph where
  code := .fragment ⟨0⟩
  parameters := []
  nodes := []
  blocks := [⟨⟨0⟩, [], none, [], [⟨2⟩]⟩, ⟨⟨1⟩, [], none, [], []⟩, ⟨⟨2⟩, [], none, [], [⟨3⟩, ⟨1⟩]⟩,
    ⟨⟨3⟩, [], none, [], [⟨2⟩, ⟨3⟩, ⟨9⟩]⟩]
  entry := ⟨0⟩
  exit := ⟨1⟩

/-- The missing block is listed too, behind the only block that names it. -/
theorem missing_block_listed :
    body.block? ⟨9⟩ = none ∧ ⟨9⟩ ∈ body.reversePostorder ∧ body.reversePostorder.Nodup ∧
    ¬body.Leads ⟨9⟩ ⟨3⟩ ∧
    body.reversePostorder.idxOf ⟨3⟩ < body.reversePostorder.idxOf ⟨9⟩ := by
  have hbody : body.Leads ⟨0⟩ ⟨3⟩ :=
    .tail (.single (b := ⟨2⟩) (by decide)) (by decide)
  have hedge : ⟨9⟩ ∈ body.successors ⟨3⟩ := by decide
  have hback : ¬body.Leads ⟨9⟩ ⟨3⟩ := by
    intro h
    rcases h.cases_head with he | ⟨c, hc, -⟩
    · cases he
    · exact absurd hc List.not_mem_nil
  obtain ⟨-, hmem, hnodup, -, hforward⟩ := Graph.reversePostorder_complete body
  exact ⟨by decide, (hmem ⟨9⟩).2 (hbody.tail hedge), hnodup, hback, hforward _ _ hbody hedge hback⟩

end FlowTyping.DanglingEdge
