import FlowTyping.Form.Program
import FlowTyping.Proofs.Json.Decoding

/-!
# The documents of types, elements, values and nodes

The document of a value stands for that value. The numbers by which nodes are known have no bound
of their own, so a document holds a node only if its numbers fit 64 bits.
-/

namespace FlowTyping

open Json

theorem Primitive.standsFor (p : Primitive) : StandsFor Primitive.ofJson p.toJson p := by
  cases p <;> exact .name fun _ => rfl

theorem Ty.standsFor (t : Ty) : StandsFor Ty.ofJson t.toJson t := by
  induction t with
  | primitive kind =>
    refine .member (fun r => ?_) (kind.standsFor.map Ty.primitive)
    rw [Ty.ofJson]
    cases r.inside <;> rfl
  | declared name =>
    refine .member (fun r => ?_) ((StandsFor.text name).map Ty.declared)
    rw [Ty.ofJson]
    cases r.inside <;> rfl
  | array component ih =>
    refine .member (fun r => ?_) (ih.map Ty.array)
    rw [Ty.ofJson]
    cases r.inside <;> rfl
  | null => exact .name fun r => by rw [Ty.ofJson]
  | void => exact .name fun r => by rw [Ty.ofJson]

/-! ### Elements -/

theorem ElementId.standsFor (id : ElementId) : StandsFor ElementId.ofJson id.toJson id :=
  (StandsFor.uint32 id.val).map ElementId.mk

theorem TreeId.standsFor (id : TreeId) : StandsFor TreeId.ofJson id.toJson id :=
  (StandsFor.uint32 id.val).map TreeId.mk

theorem ElementKind.standsFor (k : ElementKind) : StandsFor ElementKind.ofJson k.toJson k := by
  cases k <;> exact .name fun _ => rfl

theorem VariableKind.standsFor (k : VariableKind) : StandsFor VariableKind.ofJson k.toJson k := by
  cases k <;> exact .name fun _ => rfl

theorem Variable.standsFor (x : Variable) : StandsFor Variable.ofJson x.toJson x := by
  refine .object rfl ?_
  refine .field (ElementId.standsFor x.id) rfl ?_
  refine .field (.text x.name) rfl ?_
  refine .field (VariableKind.standsFor x.kind) rfl ?_
  refine .field (Ty.standsFor x.ty) rfl ?_
  refine .field (.ofOption x.declaredIn (fun id _ => id.standsFor) fun _ => nofun) rfl ?_
  exact .pure _

theorem Field.standsFor (f : Field) : StandsFor Field.ofJson f.toJson f := by
  refine .object rfl ?_
  refine .field (ElementId.standsFor f.id) rfl ?_
  refine .field (.text f.name) rfl ?_
  refine .field (Ty.standsFor f.owner) rfl ?_
  refine .field (Ty.standsFor f.ty) rfl ?_
  refine .field (.boolean f.isFinal) rfl ?_
  refine .field (.boolean f.isStatic) rfl ?_
  exact .pure _

theorem Method.standsFor (m : Method) : StandsFor Method.ofJson m.toJson m := by
  refine .object rfl ?_
  refine .field (ElementId.standsFor m.id) rfl ?_
  refine .field (.text m.name) rfl ?_
  refine .field (Ty.standsFor m.owner) rfl ?_
  refine .field (Ty.standsFor m.returnTy) rfl ?_
  refine .field (.boolean m.isStatic) rfl ?_
  refine .field (.boolean m.isConstructor) rfl ?_
  exact .pure _

/-! ### Values -/

theorem Qualifier.standsFor (q : Qualifier) : StandsFor Qualifier.ofJson q.toJson q := by
  cases q <;> exact .name fun _ => rfl

theorem Qualifier.list_standsFor (qualifiers : List Qualifier) :
    StandsFor (list Qualifier.ofJson) (ofList Qualifier.toJson qualifiers) qualifiers :=
  .ofList fun q _ => q.standsFor

theorem Value.standsFor (v : Value) : StandsFor Value.ofJson v.toJson v := by
  have h : StandsFor Value.ofJson v.toJson ⟨v.ty, .ofList v.qualifiers.toList⟩ := by
    refine .object rfl ?_
    refine .field (Ty.standsFor v.ty) rfl ?_
    refine .field (Qualifier.list_standsFor v.qualifiers.toList) rfl ?_
    exact .pure _
  rwa [QualifierSet.ofList_toList] at h

theorem Literal.standsFor (l : Literal) : StandsFor Literal.ofJson l.toJson l := by
  cases l with
  | boolean b => exact .single (fun _ => rfl) (StandsFor.boolean b)
  | null => exact .name fun _ => rfl
  | integer n => exact .single (fun _ => rfl) (StandsFor.int64 n)
  | char c => exact .single (fun _ => rfl) (StandsFor.character c)
  | string s => exact .single (fun _ => rfl) (StandsFor.text s)

/-! ### Nodes -/

def NodeId.Fits (id : NodeId) : Prop := id.index < Nat.pow 2 64

instance (id : NodeId) : Decidable id.Fits := inferInstanceAs (Decidable (_ < _))

theorem NodeId.standsFor {id : NodeId} (h : id.Fits) : StandsFor NodeId.ofJson id.toJson id :=
  (StandsFor.nat64 h).map NodeId.mk

/-- A kind with a single operand, and likewise below one with two or three. -/
theorem oneNode_standsFor {kind name : String} {id : NodeId} {make : NodeId → NodeKind}
    {choose : Alternative → Option NodeKind}
    (hchoose : ∀ p, choose ⟨kind, p⟩ = oneNode ⟨kind, p⟩ name make) (h : id.Fits) :
    StandsFor (fun r j => alternative r j >>= choose)
      (.object [(kind, .object [(name, id.toJson)])]) (make id) := by
  refine .fields hchoose (by simp [distinct, must]) ?_
  refine .field (NodeId.standsFor h) (by simp [Members.required, Members.get?]) ?_
  exact .pure _

theorem twoNodes_standsFor {kind first second : String} {id id' : NodeId}
    {make : NodeId → NodeId → NodeKind} {choose : Alternative → Option NodeKind}
    (hchoose : ∀ p, choose ⟨kind, p⟩ = twoNodes ⟨kind, p⟩ first second make)
    (hne : first ≠ second) (h : id.Fits) (h' : id'.Fits) :
    StandsFor (fun r j => alternative r j >>= choose)
      (.object [(kind, .object [(first, id.toJson), (second, id'.toJson)])]) (make id id') := by
  refine .fields hchoose (by simp [distinct, must, hne, hne.symm]) ?_
  refine .field (NodeId.standsFor h) (by simp [Members.required, Members.get?]) ?_
  refine .field (NodeId.standsFor h') (by simp [Members.required, Members.get?, hne]) ?_
  exact .pure _

theorem threeNodes_standsFor {kind first second third : String} {id id' id'' : NodeId}
    {make : NodeId → NodeId → NodeId → NodeKind} {choose : Alternative → Option NodeKind}
    (hchoose : ∀ p, choose ⟨kind, p⟩ = threeNodes ⟨kind, p⟩ first second third make)
    (hnames : [first, second, third].Nodup) (h : id.Fits) (h' : id'.Fits) (h'' : id''.Fits) :
    StandsFor (fun r j => alternative r j >>= choose)
      (.object [(kind, .object [(first, id.toJson), (second, id'.toJson),
        (third, id''.toJson)])]) (make id id' id'') := by
  have hne : first ≠ second ∧ first ≠ third ∧ second ≠ third := by simpa [and_assoc] using hnames
  obtain ⟨h₁, h₂, h₃⟩ := hne
  refine .fields hchoose (by simp [distinct, must, h₁, h₁.symm, h₂, h₂.symm, h₃, h₃.symm]) ?_
  refine .field (NodeId.standsFor h) (by simp [Members.required, Members.get?]) ?_
  refine .field (NodeId.standsFor h') (by simp [Members.required, Members.get?, h₁]) ?_
  refine .field (NodeId.standsFor h'') (by simp [Members.required, Members.get?, h₂, h₃]) ?_
  exact .pure _

theorem NodeKind.standsFor {k : NodeKind} (h : ∀ id ∈ k.operands, id.Fits) :
    StandsFor NodeKind.ofJson k.toJson k := by
  cases k with
  | localVariable x =>
    exact .single (fun _ => rfl) x.standsFor
  | fieldAccess receiver f =>
    refine .fields (fun _ => rfl) rfl ?_
    refine .field (NodeId.standsFor (h receiver (by simp [operands]))) rfl ?_
    refine .field f.standsFor rfl ?_
    exact .pure _
  | arrayAccess base index =>
    exact twoNodes_standsFor (fun _ => rfl) (by decide) (h base (by simp [operands]))
      (h index (by simp [operands]))
  | thisLiteral => exact .name fun _ => rfl
  | className => exact .name fun _ => rfl
  | literal value => exact .single (fun _ => rfl) value.standsFor
  | operation ids =>
    refine .fields (fun _ => rfl) rfl ?_
    refine .field (.ofList fun id hid => NodeId.standsFor (h id hid)) rfl ?_
    exact .pure _
  | ternary condition thenOperand elseOperand =>
    exact threeNodes_standsFor (fun _ => rfl) (by decide) (h condition (by simp [operands]))
      (h thenOperand (by simp [operands])) (h elseOperand (by simp [operands]))
  | conditionalNot operand =>
    exact oneNode_standsFor (fun _ => rfl) (h operand (by simp [operands]))
  | equalTo left right =>
    exact twoNodes_standsFor (fun _ => rfl) (by decide) (h left (by simp [operands]))
      (h right (by simp [operands]))
  | notEqual left right =>
    exact twoNodes_standsFor (fun _ => rfl) (by decide) (h left (by simp [operands]))
      (h right (by simp [operands]))
  | assignment target expression =>
    exact twoNodes_standsFor (fun _ => rfl) (by decide) (h target (by simp [operands]))
      (h expression (by simp [operands]))
  | stringConcatenateAssignment target expression =>
    exact twoNodes_standsFor (fun _ => rfl) (by decide) (h target (by simp [operands]))
      (h expression (by simp [operands]))
  | instanceOf operand referenceType annotated =>
    refine .fields (fun _ => rfl) rfl ?_
    refine .field (NodeId.standsFor (h operand (by simp [operands]))) rfl ?_
    refine .field referenceType.standsFor rfl ?_
    refine .field (.boolean annotated) rfl ?_
    exact .pure _
  | methodInvocation m receiver arguments =>
    refine .fields (fun _ => rfl) rfl ?_
    refine .field m.standsFor rfl ?_
    refine .field (NodeId.standsFor (h receiver (by simp [operands]))) rfl ?_
    refine .field (.ofList fun id hid => NodeId.standsFor (h id (by simp [operands, hid]))) rfl ?_
    exact .pure _
  | objectCreation constructor arguments =>
    refine .fields (fun _ => rfl) rfl ?_
    refine .field constructor.standsFor rfl ?_
    refine .field (.ofList fun id hid => NodeId.standsFor (h id hid)) rfl ?_
    exact .pure _
  | returnStatement result m =>
    refine .fields (fun _ => rfl) rfl ?_
    have hresult : ∀ id ∈ result, id.Fits := fun id hid => h id (by simpa [operands] using hid)
    refine .field (.ofOption result (fun id hid => NodeId.standsFor (hresult id hid))
      fun _ => nofun) rfl ?_
    refine .field (.ofOption m (fun m _ => m.standsFor) fun _ => nofun) rfl ?_
    exact .pure _
  | lambdaResult result =>
    exact oneNode_standsFor (fun _ => rfl) (h result (by simp [operands]))
  | switchCase caseOperand switchTarget switchExpression =>
    exact threeNodes_standsFor (fun _ => rfl) (by decide) (h caseOperand (by simp [operands]))
      (h switchTarget (by simp [operands])) (h switchExpression (by simp [operands]))
  | wideningConversion operand =>
    exact oneNode_standsFor (fun _ => rfl) (h operand (by simp [operands]))
  | narrowingConversion operand =>
    exact oneNode_standsFor (fun _ => rfl) (h operand (by simp [operands]))
  | stringConversion operand =>
    exact oneNode_standsFor (fun _ => rfl) (h operand (by simp [operands]))
  | variableDeclaration x =>
    exact .single (fun _ => rfl) x.standsFor

structure Node.Fits (n : Node) : Prop where
  id : n.id.Fits
  operands : ∀ id ∈ n.kind.operands, id.Fits

instance (n : Node) : Decidable n.Fits :=
  decidable_of_iff (n.id.Fits ∧ ∀ id ∈ n.kind.operands, id.Fits)
    ⟨fun h => ⟨h.1, h.2⟩, fun h => ⟨h.id, h.operands⟩⟩

theorem Node.standsFor {n : Node} (h : n.Fits) : StandsFor Node.ofJson n.toJson n := by
  refine .object rfl ?_
  refine .field (NodeId.standsFor h.id) rfl ?_
  refine .field n.ty.standsFor rfl ?_
  refine .field (.ofOption n.tree (fun tree _ => tree.standsFor) fun _ => nofun) rfl ?_
  refine .field (.boolean n.annotatable) rfl ?_
  refine .field (NodeKind.standsFor h.operands) rfl ?_
  exact .pure _

end FlowTyping
