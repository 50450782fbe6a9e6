import FlowTyping.Fixpoint
import FlowTyping.Proofs.Store.Precision
import Mathlib.Data.List.Basic

/-!
# What flows into a block

The join of the stores that the predecessors of a block send it. It depends on their outputs
only, it exists as soon as one of them has an output, and it grows with them.
-/

namespace FlowTyping

/-- An edge carries the joined store, unless it is one of two distinct ways out of a branch. -/
theorem edgeStore_eq (stores : Stores) (terminator : Option Terminator) (target : BlockId) :
    edgeStore stores terminator target = match terminator with
      | some (.branch thenBlock elseBlock) =>
        if thenBlock = elseBlock then stores.merged
        else if target = thenBlock then stores.thenStore
        else stores.elseStore
      | _ => stores.merged := by
  cases stores with
  | regular s =>
    simp only [edgeStore, Stores.merged, Stores.thenStore, Stores.elseStore, ite_self]
    split <;> rfl
  | conditional t e =>
    rcases terminator with _ | (_ | _ | _ | _) <;> rfl

theorem Stores.AtMost.edgeStore {s t : Stores} {flag : Bool} (ht : t.HasFlag flag)
    (h : s.AtMost t) (terminator : Option Terminator) (target : BlockId) :
    (FlowTyping.edgeStore s terminator target).AtMost
      (FlowTyping.edgeStore t terminator target) := by
  rw [edgeStore_eq, edgeStore_eq]
  split
  · split
    · exact h.merged ht
    · split
      · exact h.thenStore
      · exact h.elseStore
  · exact h.merged ht

theorem Stores.HasFlag.edgeStore {s : Stores} {flag : Bool} (h : s.HasFlag flag)
    (terminator : Option Terminator) (target : BlockId) :
    (FlowTyping.edgeStore s terminator target).sequential = flag := by
  rw [edgeStore_eq]
  split
  · split
    · exact h.merged
    · split
      · exact h.1
      · exact h.2
  · exact h.merged

namespace Graph

variable {g : Graph} {outputs outputs' : FinMap BlockId Stores} {initial : Store} {block : Block}
  {flag : Bool}

theorem joinPredecessors_congr
    (h : ∀ q ∈ block.predecessors, outputs.get? q = outputs'.get? q) :
    g.joinPredecessors outputs initial block = g.joinPredecessors outputs' initial block := by
  have hincoming : g.incoming outputs block = g.incoming outputs' block :=
    List.filterMap_congr fun q hq => by rw [h q hq]
  rw [joinPredecessors, joinPredecessors, hincoming]

/-- Something flows into a block exactly when it is the entry or a predecessor was computed. -/
theorem isSome_joinPredecessors :
    (g.joinPredecessors outputs initial block).isSome ↔ block.id = g.entry ∨
      ∃ q ∈ block.predecessors, (outputs.get? q).isSome ∧ (g.block? q).isSome := by
  have hincoming : g.incoming outputs block ≠ [] ↔
      ∃ q ∈ block.predecessors, (outputs.get? q).isSome ∧ (g.block? q).isSome := by
    simp only [incoming, ne_eq, List.filterMap_eq_nil_iff, not_forall]
    refine exists_congr fun q => ?_
    cases outputs.get? q <;> cases g.block? q <;> simp
  rw [← hincoming, joinPredecessors]
  by_cases hentry : block.id = g.entry
  · simp [hentry]
  · cases g.incoming outputs block <;> simp [hentry]

def OutputsAtMost (outputs outputs' : FinMap BlockId Stores) : Prop :=
  ∀ id out, outputs.get? id = some out → ∃ out', outputs'.get? id = some out' ∧ out.AtMost out'

def OutputsHaveFlag (outputs : FinMap BlockId Stores) (flag : Bool) : Prop :=
  ∀ id out, outputs.get? id = some out → out.HasFlag flag

theorem mem_incoming {s : Store} : s ∈ g.incoming outputs block ↔
    ∃ q ∈ block.predecessors, ∃ out source, outputs.get? q = some out ∧
      g.block? q = some source ∧ edgeStore out source.terminator block.id = s := by
  rw [incoming, List.mem_filterMap]
  refine exists_congr fun q => and_congr_right fun _ => ?_
  cases outputs.get? q <;> cases g.block? q <;> simp

theorem sequential_of_mem_incoming (hflag : OutputsHaveFlag outputs flag) {s : Store}
    (h : s ∈ g.incoming outputs block) : s.sequential = flag := by
  obtain ⟨q, -, out, source, hout, -, rfl⟩ := mem_incoming.1 h
  exact (hflag q out hout).edgeStore source.terminator block.id

private theorem length_incoming_le (h : OutputsAtMost outputs outputs') :
    (g.incoming outputs block).length ≤ (g.incoming outputs' block).length := by
  rw [incoming, incoming, List.length_filterMap_eq_countP, List.length_filterMap_eq_countP]
  refine List.countP_mono_left fun q _ hq => ?_
  cases hout : outputs.get? q with
  | none => simp [hout] at hq
  | some out =>
    obtain ⟨out', hout', -⟩ := h q out hout
    cases hb : g.block? q with
    | none => simp [hout, hb] at hq
    | some source => simp [hout']

/-- What flows into a block grows with the outputs of its predecessors. -/
theorem joinPredecessors_atMost (hinitial : initial.sequential = flag)
    (hflag : OutputsHaveFlag outputs' flag) (h : OutputsAtMost outputs outputs') {joined : Store}
    (hjoined : g.joinPredecessors outputs initial block = some joined) :
    ∃ joined', g.joinPredecessors outputs' initial block = some joined' ∧
      joined.AtMost joined' := by
  have hmem : ∀ x ∈ g.incoming outputs block, ∃ y ∈ g.incoming outputs' block, x.AtMost y := by
    intro x hx
    obtain ⟨q, hq, out, source, hout, hsource, rfl⟩ := mem_incoming.1 hx
    obtain ⟨out', hout', hle⟩ := h q out hout
    exact ⟨_, mem_incoming.2 ⟨q, hq, out', source, hout', hsource, rfl⟩,
      hle.edgeStore (hflag q out' hout') source.terminator block.id⟩
  have hlength : (g.incoming outputs block).length ≤ (g.incoming outputs' block).length :=
    length_incoming_le h
  have hflags : ∀ x ∈ g.incoming outputs' block, x.sequential = flag :=
    fun x hx => sequential_of_mem_incoming hflag hx
  rw [joinPredecessors] at hjoined ⊢
  by_cases hentry : block.id = g.entry
  · rw [if_pos hentry, Option.some.injEq] at hjoined
    rw [if_pos hentry, ← hjoined]
    have hall : ∀ x ∈ initial :: g.incoming outputs' block, x.sequential = flag :=
      List.forall_mem_cons.2 ⟨hinitial, hflags⟩
    refine ⟨_, rfl, Store.foldl_lub_atMost (fun hnil => ?_) hall ?_⟩
    · rw [hnil] at hlength
      exact List.length_eq_zero_iff.1 (Nat.le_zero.1 hlength)
    · intro x hx
      rcases List.mem_cons.1 hx with rfl | hx
      · exact ⟨x, List.mem_cons_self, Or.inl x.agrees_refl⟩
      · obtain ⟨y, hy, hxy⟩ := hmem x hx
        exact ⟨y, List.mem_cons_of_mem _ hy, hxy⟩
  · rw [if_neg hentry] at hjoined ⊢
    cases hin : g.incoming outputs block with
    | nil => simp [hin] at hjoined
    | cons s rest =>
      cases hin' : g.incoming outputs' block with
      | nil => simp [hin, hin'] at hlength
      | cons s' rest' =>
        simp only [hin, Option.some.injEq] at hjoined
        rw [hin, hin', List.length_cons, List.length_cons] at hlength
        rw [hin, hin'] at hmem
        rw [hin'] at hflags
        refine ⟨_, rfl, ?_⟩
        rw [← hjoined]
        refine Store.foldl_lub_atMost (fun hnil => ?_) hflags hmem
        rw [hnil, List.length_nil] at hlength
        exact List.length_eq_zero_iff.1 (by omega)

theorem sequential_foldl_lub (s : Store) (rest : List Store) :
    (rest.foldl Store.lub s).sequential = s.sequential := by
  induction rest generalizing s with
  | nil => rfl
  | cons t rest ih => rw [List.foldl_cons, ih, Store.sequential_lub]

theorem sequential_joinPredecessors (hinitial : initial.sequential = flag)
    (hflag : OutputsHaveFlag outputs flag) {joined : Store}
    (h : g.joinPredecessors outputs initial block = some joined) : joined.sequential = flag := by
  rw [joinPredecessors] at h
  split at h
  · cases h
    rw [sequential_foldl_lub, hinitial]
  · cases hin : g.incoming outputs block with
    | nil => simp [hin] at h
    | cons s rest =>
      simp only [hin, Option.some.injEq] at h
      rw [← h, sequential_foldl_lub]
      exact sequential_of_mem_incoming hflag (hin ▸ List.mem_cons_self)

end Graph

end FlowTyping
