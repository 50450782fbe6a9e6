import FlowTyping.Graph

/-!
# Reverse postorder

The order in which a forward analysis visits blocks. A depth-first walk from the entry takes
successors in the order in which they are listed and finishes a block after everything found
from it; the order lists the blocks from the last finished to the first. A successor outside
the graph is walked too, as a block without successors.
-/

namespace FlowTyping.Graph

/-- Every position that some block lists as a successor. -/
def successorIds (g : Graph) : List BlockId :=
  g.blocks.flatMap (·.successors)

theorem mem_successorIds {g : Graph} {id s : BlockId} (h : s ∈ g.successors id) :
    s ∈ g.successorIds := by
  unfold successors at h
  split at h
  · next block hb =>
    exact List.mem_flatMap.2 ⟨block, List.mem_of_getElem? hb, h⟩
  · simp at h

/-- A block that is being walked, with the successors still to be looked at. -/
structure Frame (g : Graph) where
  block : BlockId
  pending : List BlockId
  pending_successorIds : ∀ s ∈ pending, s ∈ g.successorIds

def Frame.enter (g : Graph) (id : BlockId) : Frame g :=
  ⟨id, g.successors id, fun _ h => mem_successorIds h⟩

private theorem length_filter_lt {α : Type} {xs : List α} {p q : α → Bool}
    (hpq : ∀ x, q x = true → p x = true) {a : α} (ha : a ∈ xs) (hp : p a = true)
    (hq : q a = false) : (xs.filter q).length < (xs.filter p).length := by
  induction xs with
  | nil => simp at ha
  | cons x xs ih =>
    have hle : (xs.filter q).length ≤ (xs.filter p).length := by
      clear ih ha
      induction xs with
      | nil => simp
      | cons y ys ih =>
        by_cases hy : q y = true
        · simp [hy, hpq y hy, ih]
        · by_cases hy' : p y = true
          · simp [hy, hy']; omega
          · simp [hy, hy', ih]
    rcases List.mem_cons.1 ha with rfl | hmem
    · simp [hp, hq]; omega
    · have := ih hmem
      by_cases hx : q x = true
      · simp [hx, hpq x hx, this]
      · by_cases hx' : p x = true
        · simp [hx, hx']; omega
        · simp [hx, hx', this]

/-- How much is left to look at on a stack: the frames and their successors. -/
def pendingWork {g : Graph} : List (Frame g) → Nat
  | [] => 0
  | f :: stack => pendingWork stack + f.pending.length + 1

/-- Walks on from a stack of frames. `seen` holds the blocks reached so far and `order` the
finished ones, the last finished first. -/
def walk (g : Graph) (seen : List BlockId) : List (Frame g) → List BlockId → List BlockId
  | [], order => order
  | ⟨block, [], _⟩ :: stack, order => walk g seen stack (block :: order)
  | ⟨block, s :: pending, h⟩ :: stack, order =>
    let rest : List (Frame g) :=
      ⟨block, pending, fun x hx => h x (List.mem_cons_of_mem _ hx)⟩ :: stack
    if s ∈ seen then walk g seen rest order
    else walk g (s :: seen) (Frame.enter g s :: rest) order
termination_by stack _ =>
  ((g.successorIds.filter (· ∉ seen)).length, pendingWork stack)
decreasing_by
  · exact Prod.Lex.right _ (by simp [pendingWork])
  · exact Prod.Lex.right _ (by simp [pendingWork])
  · refine Prod.Lex.left _ _ (length_filter_lt ?_ (h s List.mem_cons_self) ?_ ?_) <;>
      simp_all

/-- The blocks reached from the entry, in reverse postorder. -/
def reversePostorder (g : Graph) : List BlockId :=
  walk g [g.entry] [Frame.enter g g.entry] []

end FlowTyping.Graph
