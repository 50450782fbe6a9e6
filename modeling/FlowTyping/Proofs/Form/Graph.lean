import FlowTyping.Form.Graph
import FlowTyping.Proofs.Form.Program

/-!
# The documents of graphs

The document of a graph stands for that graph, provided the numbers of its nodes and blocks fit
64 bits.
-/

namespace FlowTyping

open Json

def BlockId.Fits (id : BlockId) : Prop := id.index < Nat.pow 2 64

instance (id : BlockId) : Decidable id.Fits := inferInstanceAs (Decidable (_ < _))

theorem BlockId.standsFor {id : BlockId} (h : id.Fits) : StandsFor BlockId.ofJson id.toJson id :=
  (StandsFor.nat64 h).map BlockId.mk

def Terminator.targets : Terminator → List BlockId
  | goto target => [target]
  | branch thenBlock elseBlock => [thenBlock, elseBlock]
  | leave => []
  | unreachable => []

theorem Terminator.standsFor {t : Terminator} (h : ∀ id ∈ t.targets, id.Fits) :
    StandsFor Terminator.ofJson t.toJson t := by
  cases t with
  | goto target =>
    have htarget : target.Fits := h target (by simp [targets])
    exact .single (fun _ => rfl) (BlockId.standsFor htarget)
  | branch thenBlock elseBlock =>
    refine .fields (fun _ => rfl) rfl ?_
    refine .field (BlockId.standsFor (h thenBlock (by simp [targets]))) rfl ?_
    refine .field (BlockId.standsFor (h elseBlock (by simp [targets]))) rfl ?_
    exact .pure _
  | leave => exact .name fun _ => rfl
  | unreachable => exact .name fun _ => rfl

theorem Terminator.toJson_ne_null (t : Terminator) : t.toJson ≠ .null := by
  cases t <;> exact nofun

structure Block.Fits (b : Block) : Prop where
  id : b.id.Fits
  nodes : ∀ id ∈ b.nodes, id.Fits
  terminator : ∀ t ∈ b.terminator, ∀ id ∈ t.targets, id.Fits
  predecessors : ∀ id ∈ b.predecessors, id.Fits
  successors : ∀ id ∈ b.successors, id.Fits

instance (b : Block) : Decidable b.Fits :=
  decidable_of_iff (b.id.Fits ∧ (∀ id ∈ b.nodes, id.Fits) ∧
      (∀ t ∈ b.terminator, ∀ id ∈ t.targets, id.Fits) ∧ (∀ id ∈ b.predecessors, id.Fits) ∧
      ∀ id ∈ b.successors, id.Fits)
    ⟨fun h => ⟨h.1, h.2.1, h.2.2.1, h.2.2.2.1, h.2.2.2.2⟩,
      fun h => ⟨h.id, h.nodes, h.terminator, h.predecessors, h.successors⟩⟩

theorem Block.standsFor {b : Block} (h : b.Fits) : StandsFor Block.ofJson b.toJson b := by
  refine .object rfl ?_
  refine .field (BlockId.standsFor h.id) rfl ?_
  refine .field (.ofList fun id hid => NodeId.standsFor (h.nodes id hid)) rfl ?_
  refine .field (.ofOption b.terminator (fun t ht => Terminator.standsFor (h.terminator t ht))
    Terminator.toJson_ne_null) rfl ?_
  refine .field (.ofList fun id hid => BlockId.standsFor (h.predecessors id hid)) rfl ?_
  refine .field (.ofList fun id hid => BlockId.standsFor (h.successors id hid)) rfl ?_
  exact .pure _

theorem FieldDeclaration.standsFor (d : FieldDeclaration) :
    StandsFor FieldDeclaration.ofJson d.toJson d := by
  refine .object rfl ?_
  refine .field d.field.standsFor rfl ?_
  refine .field d.tree.standsFor rfl ?_
  exact .pure _

theorem ClassInfo.standsFor (c : ClassInfo) : StandsFor ClassInfo.ofJson c.toJson c := by
  refine .object rfl ?_
  refine .field c.element.standsFor rfl ?_
  refine .field c.ty.standsFor rfl ?_
  refine .field (.ofList fun d _ => FieldDeclaration.standsFor d) rfl ?_
  exact .pure _

theorem Code.standsFor (c : Code) : StandsFor Code.ofJson c.toJson c := by
  cases c with
  | method m tree cls =>
    refine .fields (fun _ => rfl) rfl ?_
    refine .field m.standsFor rfl ?_
    refine .field tree.standsFor rfl ?_
    refine .field cls.standsFor rfl ?_
    exact .pure _
  | lambda tree =>
    refine .fields (fun _ => rfl) rfl ?_
    refine .field tree.standsFor rfl ?_
    exact .pure _
  | fragment tree =>
    refine .fields (fun _ => rfl) rfl ?_
    refine .field tree.standsFor rfl ?_
    exact .pure _

/-- The numbers of the nodes and blocks of a graph fit 64 bits, wherever they are named. -/
structure Graph.Fits (g : Graph) : Prop where
  nodes : ∀ n ∈ g.nodes, n.Fits
  blocks : ∀ b ∈ g.blocks, b.Fits
  entry : g.entry.Fits
  exit : g.exit.Fits

instance (g : Graph) : Decidable g.Fits :=
  decidable_of_iff ((∀ n ∈ g.nodes, n.Fits) ∧ (∀ b ∈ g.blocks, b.Fits) ∧ g.entry.Fits ∧
      g.exit.Fits)
    ⟨fun h => ⟨h.1, h.2.1, h.2.2.1, h.2.2.2⟩, fun h => ⟨h.nodes, h.blocks, h.entry, h.exit⟩⟩

theorem Graph.standsFor {g : Graph} (h : g.Fits) : StandsFor Graph.ofJson g.toJson g := by
  refine .object rfl ?_
  refine .field g.code.standsFor rfl ?_
  refine .field (.ofList fun x _ => Variable.standsFor x) rfl ?_
  refine .field (.ofList fun n hn => Node.standsFor (h.nodes n hn)) rfl ?_
  refine .field (.ofList fun b hb => Block.standsFor (h.blocks b hb)) rfl ?_
  refine .field (BlockId.standsFor h.entry) rfl ?_
  refine .field (BlockId.standsFor h.exit) rfl ?_
  exact .pure _

end FlowTyping
