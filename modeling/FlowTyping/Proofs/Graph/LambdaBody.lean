import FlowTyping.Transfer
import Mathlib.Data.List.Nodup
import Mathlib.Data.List.Perm.Subperm

/-!
# What a lambda result stands for

A lambda result is visited as the expression it stands for, which may be a lambda result again.
The search for the last of them has as many steps as the graph has nodes. That is enough: a path
that ends somewhere passes no node twice.
-/

namespace FlowTyping.Graph

/-- Looking through lambda results leads from the first node to the last, by the positions in
between. -/
inductive LeadsTo (g : Graph) : Node → List NodeId → Node → Prop
  | here (node : Node) : LeadsTo g node [] node
  | through {node body final : Node} {id : NodeId} {path : List NodeId}
      (hkind : node.kind = .lambdaResult id) (hbody : g.node? id = some body)
      (hrest : LeadsTo g body path final) : LeadsTo g node (id :: path) final

variable {g : Graph} {node final : Node} {path : List NodeId}

/-- A path to a node that is no lambda result is the only one. -/
theorem LeadsTo.unique (hfinal : ∀ id, final.kind ≠ .lambdaResult id)
    (h : g.LeadsTo node path final) {path' : List NodeId} (h' : g.LeadsTo node path' final) :
    path = path' := by
  induction h generalizing path' with
  | here node =>
    cases h' with
    | here => rfl
    | through hkind _ _ => exact absurd hkind (hfinal _)
  | through hkind hbody _ ih =>
    cases h' with
    | here => exact absurd hkind (hfinal _)
    | through hkind' hbody' hrest' =>
      rw [hkind] at hkind'
      cases hkind'
      rw [hbody] at hbody'
      cases hbody'
      rw [ih hfinal hrest']

theorem LeadsTo.suffix {id : NodeId} {body : Node} (h : g.LeadsTo node path final)
    (hid : id ∈ path) (hbody : g.node? id = some body) :
    ∃ rest, rest.length < path.length ∧ g.LeadsTo body rest final := by
  induction h with
  | here => cases hid
  | @through _ body' _ id' path' _ hbody' hrest ih =>
    rcases List.mem_cons.1 hid with rfl | hmem
    · rw [hbody] at hbody'
      cases hbody'
      exact ⟨path', Nat.lt_succ_self _, hrest⟩
    · obtain ⟨rest, hlt, hleads⟩ := ih hmem
      exact ⟨rest, Nat.lt_succ_of_lt hlt, hleads⟩

theorem LeadsTo.nodup (hfinal : ∀ id, final.kind ≠ .lambdaResult id)
    (h : g.LeadsTo node path final) : path.Nodup := by
  induction h with
  | here => exact List.nodup_nil
  | through _ hbody hrest ih =>
    refine List.nodup_cons.2 ⟨fun hmem => ?_, ih hfinal⟩
    -- A second visit would leave a shorter way from the same node.
    obtain ⟨rest, hlt, hshort⟩ := hrest.suffix hmem hbody
    rw [hrest.unique hfinal hshort] at hlt
    exact Nat.lt_irrefl _ hlt

theorem LeadsTo.index_lt (h : g.LeadsTo node path final) :
    ∀ i ∈ path.map NodeId.index, i < g.nodes.length := by
  induction h with
  | here => simp
  | through _ hbody _ ih =>
    intro i hi
    rcases List.mem_cons.1 hi with rfl | hmem
    · exact (List.getElem?_eq_some_iff.1 hbody).1
    · exact ih i hmem

theorem LeadsTo.length_le (hfinal : ∀ id, final.kind ≠ .lambdaResult id)
    (h : g.LeadsTo node path final) : path.length ≤ g.nodes.length := by
  have hnodup : (path.map NodeId.index).Nodup :=
    (h.nodup hfinal).map fun a b hab => by cases a; cases b; exact congrArg _ hab
  have hsub : path.map NodeId.index ⊆ List.range g.nodes.length :=
    fun i hi => List.mem_range.2 (h.index_lt i hi)
  simpa using (hnodup.subperm hsub).length_le

theorem LeadsTo.lambdaBodyWithin_eq (hfinal : ∀ id, final.kind ≠ .lambdaResult id)
    (h : g.LeadsTo node path final) {depth : Nat} (hdepth : path.length ≤ depth) :
    g.lambdaBodyWithin depth node = final := by
  induction h generalizing depth with
  | here node =>
    cases depth with
    | zero => rfl
    | succ depth =>
      rw [lambdaBodyWithin]
      split
      · next hkind => exact absurd hkind (hfinal _)
      · rfl
  | through hkind hbody _ ih =>
    cases depth with
    | zero => cases hdepth
    | succ depth =>
      simp only [lambdaBodyWithin, hkind, hbody]
      exact ih hfinal (Nat.le_of_succ_le_succ hdepth)

theorem exists_leadsTo_lambdaBodyWithin (g : Graph) (depth : Nat) (node : Node) :
    ∃ path, g.LeadsTo node path (g.lambdaBodyWithin depth node) := by
  induction depth generalizing node with
  | zero => exact ⟨[], .here node⟩
  | succ depth ih =>
    rw [lambdaBodyWithin]
    split
    · next id hkind =>
      split
      · next body hbody =>
        obtain ⟨path, hpath⟩ := ih body
        exact ⟨id :: path, .through hkind hbody hpath⟩
      · exact ⟨[], .here node⟩
    · exact ⟨[], .here node⟩

/-- The search finds the node that is no lambda result exactly if looking through lambda results
leads there. -/
theorem lambdaBody_eq_iff (hfinal : ∀ id, final.kind ≠ .lambdaResult id) :
    g.lambdaBody node = final ↔ ∃ path, g.LeadsTo node path final := by
  constructor
  · rintro rfl
    exact exists_leadsTo_lambdaBodyWithin g g.nodes.length node
  · rintro ⟨path, hpath⟩
    exact hpath.lambdaBodyWithin_eq hfinal (hpath.length_le hfinal)

theorem lambdaBody_eq_self (h : ∀ id, node.kind ≠ .lambdaResult id) : g.lambdaBody node = node :=
  (lambdaBody_eq_iff h).2 ⟨[], .here node⟩

end FlowTyping.Graph
