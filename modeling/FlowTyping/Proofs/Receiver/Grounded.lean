import FlowTyping.Receiver.OfNode
import Mathlib.Data.Finset.Card
import Mathlib.Logic.Relation

/-!
# Grounded nodes

The receiver of a node is built from those of some of its operands. A node is grounded if following
these operands always ends. The search for the receiver of a grounded node never meets its bound on
the depth, so that receiver is given by the receivers of the operands, whatever else the graph holds.
-/

namespace FlowTyping

/-- The operands from whose receivers that of a node is built. -/
def NodeKind.receiverParts (isDeterministic : Method → Bool) : NodeKind → List NodeId
  | fieldAccess base f => if f.isStatic then [] else [base]
  | arrayAccess base index => [base, index]
  | stringConversion operand => [operand]
  | wideningConversion operand => [operand]
  | narrowingConversion operand => [operand]
  | methodInvocation m base arguments =>
    if isDeterministic m then (if m.isStatic then arguments else base :: arguments) else []
  | _ => []

namespace Graph

variable {g : Graph} {isDeterministic : Method → Bool} {n : NodeId} {node : Node}

/-- The receiver of one node is built from that of the other. -/
def PartOf (g : Graph) (isDeterministic : Method → Bool) (part whole : NodeId) : Prop :=
  ∃ node, g.node? whole = some node ∧ part ∈ node.kind.receiverParts isDeterministic

/-- Following the operands from which the receiver of a node is built always ends. -/
def Grounded (g : Graph) (isDeterministic : Method → Bool) (n : NodeId) : Prop :=
  Acc (g.PartOf isDeterministic) n

theorem Grounded.part (h : g.Grounded isDeterministic n) {part : NodeId}
    (hpart : g.PartOf isDeterministic part n) : g.Grounded isDeterministic part :=
  Acc.inv h hpart

/-- A node is grounded as soon as the parts of its receiver are. -/
theorem grounded_of_parts (hnode : g.node? n = some node)
    (h : ∀ part ∈ node.kind.receiverParts isDeterministic, g.Grounded isDeterministic part) :
    g.Grounded isDeterministic n := by
  apply Acc.intro
  rintro part ⟨node', hnode', hpart⟩
  rw [hnode] at hnode'
  cases hnode'
  exact h part hpart

/-- A grounded node is no part of itself. -/
theorem Grounded.not_transGen_self (h : g.Grounded isDeterministic n) :
    ¬Relation.TransGen (g.PartOf isDeterministic) n n := by
  induction h with
  | intro n _ ih =>
    intro hloop
    obtain ⟨part, hback, hpart⟩ := Relation.TransGen.tail'_iff.1 hloop
    exact ih part hpart (Relation.TransGen.head' hpart hback)

open Classical in
/-- The positions in the graph from which a relation leads to a node, its own one included. -/
noncomputable def below (g : Graph) (R : NodeId → NodeId → Prop) (n : NodeId) : Finset Nat :=
  (Finset.range g.nodes.length).filter fun i => Relation.ReflTransGen R ⟨i⟩ n

section Below

variable {R : NodeId → NodeId → Prop} {i : Nat}

theorem mem_below : i ∈ g.below R n ↔
    i < g.nodes.length ∧ Relation.ReflTransGen R ⟨i⟩ n := by
  simp [below]

theorem card_below_le : (g.below R n).card ≤ g.nodes.length := by
  have hsub : g.below R n ⊆ Finset.range g.nodes.length :=
    fun i hi => Finset.mem_range.2 (mem_below.1 hi).1
  simpa using Finset.card_le_card hsub

theorem self_mem_below (hnode : g.node? n = some node) : n.index ∈ g.below R n :=
  mem_below.2 ⟨(List.getElem?_eq_some_iff.1 hnode).1, .refl⟩

theorem card_below_lt (hloop : ¬Relation.TransGen R n n) (hnode : g.node? n = some node)
    {o : NodeId} (ho : R o n) : (g.below R o).card < (g.below R n).card := by
  apply Finset.card_lt_card
  refine (Finset.ssubset_iff_of_subset fun i hi => ?_).2
    ⟨n.index, self_mem_below hnode, fun hback => ?_⟩
  · obtain ⟨hlt, hbelow⟩ := mem_below.1 hi
    exact mem_below.2 ⟨hlt, hbelow.tail ho⟩
  · exact hloop (Relation.TransGen.tail' (mem_below.1 hback).2 ho)

end Below

end Graph

namespace Receiver

variable {g : Graph} {isDeterministic : Method → Bool} {n : NodeId} {node : Node}

/-- Searches that find the same node and the same receivers for its parts find the same receiver for
the node, be it in one graph or in two. -/
theorem ofNodeWithin_succ_congr {g' : Graph} {depth depth' : Nat} (hnode : g'.node? n = g.node? n)
    (h : ∀ part, g.PartOf isDeterministic part n →
      ofNodeWithin g' isDeterministic depth' part = ofNodeWithin g isDeterministic depth part) :
    ofNodeWithin g' isDeterministic (depth' + 1) n =
      ofNodeWithin g isDeterministic (depth + 1) n := by
  cases hfound : g.node? n with
  | none => simp only [ofNodeWithin, hnode, hfound]
  | some node =>
    have hparts : ∀ part ∈ node.kind.receiverParts isDeterministic,
        ofNodeWithin g' isDeterministic depth' part = ofNodeWithin g isDeterministic depth part :=
      fun part hpart => h part ⟨node, hfound, hpart⟩
    simp only [ofNodeWithin, hnode, hfound]
    cases hkind : node.kind <;> rw [hkind] at hparts <;>
      simp only [NodeKind.receiverParts] at hparts ⊢
    case fieldAccess base f =>
      by_cases hstatic : f.isStatic = true
      · simp only [if_pos hstatic]
      · simp only [if_neg hstatic] at hparts ⊢
        rw [hparts base (by simp)]
    case arrayAccess base index => rw [hparts base (by simp), hparts index (by simp)]
    case stringConversion operand => exact hparts operand (by simp)
    case wideningConversion operand => exact hparts operand (by simp)
    case narrowingConversion operand => exact hparts operand (by simp)
    case methodInvocation m base arguments =>
      by_cases hdet : isDeterministic m = true
      · simp only [if_pos hdet] at hparts ⊢
        have harguments : arguments.map (ofNodeWithin g' isDeterministic depth') =
            arguments.map (ofNodeWithin g isDeterministic depth) := by
          refine List.map_congr_left fun a ha => hparts a ?_
          split
          · exact ha
          · exact List.mem_cons_of_mem _ ha
        rw [harguments]
        by_cases hstatic : m.isStatic = true
        · simp only [if_pos hstatic]
        · simp only [if_neg hstatic] at hparts ⊢
          rw [hparts base List.mem_cons_self]
      · simp only [if_neg hdet]

private theorem ofNodeWithin_eq_of_grounded (h : g.Grounded isDeterministic n) :
    ∀ {depth depth' : Nat}, (g.below (g.PartOf isDeterministic) n).card ≤ depth →
      (g.below (g.PartOf isDeterministic) n).card ≤ depth' →
      ofNodeWithin g isDeterministic depth n = ofNodeWithin g isDeterministic depth' n := by
  induction h with
  | intro n hparts ih =>
    intro depth depth' hdepth hdepth'
    cases hnode : g.node? n with
    | none => cases depth <;> cases depth' <;> simp only [ofNodeWithin, hnode]
    | some node =>
      have hgrounded : g.Grounded isDeterministic n := Acc.intro n hparts
      have hpos : 0 < (g.below (g.PartOf isDeterministic) n).card :=
        Finset.card_pos.2 ⟨n.index, Graph.self_mem_below hnode⟩
      obtain ⟨depth, rfl⟩ := Nat.exists_eq_add_one.2 (Nat.lt_of_lt_of_le hpos hdepth)
      obtain ⟨depth', rfl⟩ := Nat.exists_eq_add_one.2 (Nat.lt_of_lt_of_le hpos hdepth')
      refine ofNodeWithin_succ_congr rfl fun part hpart => ih part hpart ?_ ?_
      all_goals
        have hlt := Graph.card_below_lt hgrounded.not_transGen_self hnode hpart
        omega

/-- One more step of depth changes nothing: unfolding it gives the receiver of a grounded node from
the receivers of its operands. -/
theorem ofNode_eq_succ (h : g.Grounded isDeterministic n) :
    ofNode g isDeterministic n = ofNodeWithin g isDeterministic (g.nodes.length + 1) n := by
  have hcard : (g.below (g.PartOf isDeterministic) n).card ≤ g.nodes.length :=
    Graph.card_below_le
  exact ofNodeWithin_eq_of_grounded h hcard (Nat.le_succ_of_le hcard)

theorem ofNode_fieldAccess (h : g.Grounded isDeterministic n) (hnode : g.node? n = some node)
    {base : NodeId} {f : Field} (hkind : node.kind = .fieldAccess base f) :
    ofNode g isDeterministic n =
      .field (if f.isStatic then .className f.owner else ofNode g isDeterministic base) f := by
  rw [ofNode_eq_succ h, ofNodeWithin]
  simp only [hnode, hkind]
  rfl

end Receiver

end FlowTyping
