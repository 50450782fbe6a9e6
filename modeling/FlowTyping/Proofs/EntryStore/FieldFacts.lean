import FlowTyping.Fixpoint
import FlowTyping.Proofs.EntryStore.Facts
import FlowTyping.Proofs.Graph.LambdaBody
import FlowTyping.Proofs.Receiver.Grounded

/-!
# Fields in entry stores

The entry store of a method keys what it records about a field by the class that is analyzed. A
read through `this` looks an instance field up there, but a static field under the class that
declares it. So facts about instance fields and static fields of the analyzed class are found, and
those about static fields of other classes are not.
-/

namespace FlowTyping

namespace Receiver

/-- A field hangs off the analyzed class as it hangs off `this`, unless it is a static field of
another class. -/
theorem field_eq_implicitField_iff {f : Field} {cls : Ty} :
    field (if f.isStatic then .className f.owner else .this cls) f = implicitField f cls ↔
      f.isStatic = false ∨ f.owner = cls := by
  cases h : f.isStatic <;> simp [implicitField, h]

theorem ofNode_fieldAccess_this {g : Graph} {isDeterministic : Method → Bool}
    {node base : Node} {f : Field} (hnode : g.node? node.id = some node)
    (hbase : g.node? base.id = some base) (hkind : node.kind = .fieldAccess base.id f)
    (hthis : base.kind = .thisLiteral) :
    ofNode g isDeterministic node.id =
      field (if f.isStatic then .className f.owner else .this base.ty) f := by
  have hgrounded : g.Grounded isDeterministic base.id := by
    refine Graph.grounded_of_parts hbase fun part hpart => ?_
    rw [hthis] at hpart
    cases hpart
  have hwhole : g.Grounded isDeterministic node.id := by
    refine Graph.grounded_of_parts hnode fun part hpart => ?_
    rw [hkind, NodeKind.receiverParts] at hpart
    split at hpart
    · cases hpart
    · exact List.mem_singleton.1 hpart ▸ hgrounded
  rw [ofNode_fieldAccess hwhole hnode hkind, ofNode_eq_succ hgrounded, ofNodeWithin]
  simp only [hbase, hthis]

end Receiver

namespace Setting

variable {st : Setting} {cls : ClassInfo} {m : Method} {f : Field} {v : Value}

/-- What the entry store of a method records about fields, in order. -/
def fieldFacts (st : Setting) (cls : ClassInfo) (m : Method) : List (Receiver × Value) :=
  st.initialFacts cls m ++ st.declaredFacts cls m

theorem exists_of_mem_fieldFacts {fact : Receiver × Value} (h : fact ∈ st.fieldFacts cls m) :
    ∃ f, fact.1 = .implicitField f cls.ty := by
  rcases List.mem_append.1 h with hinitial | hdeclared
  · obtain ⟨entry, -, rfl⟩ := List.mem_map.1 hinitial
    exact ⟨entry.1, rfl⟩
  · obtain ⟨d, -, hd⟩ := List.mem_filterMap.1 hdeclared
    obtain ⟨w, -, rfl⟩ := Option.map_eq_some_iff.1 hd
    exact ⟨d.field, rfl⟩

/-- Captured locals come last and leave fields alone. -/
theorem value?_methodStore_field (fixed : Option Store) (parameters : List Variable)
    (base : Receiver) :
    (st.methodStore fixed m cls parameters).value? (.field base f) =
      (refineAll ((st.assumedStore fixed m parameters).insertFacts (st.initialFacts cls m))
        (st.declaredFacts cls m)).value? (.field base f) := by
  rw [methodStore_eq, Store.value?_insertFacts, lastValue?_capturedFacts_field]
  simp

theorem isSome_value?_of_mem_fieldFacts (fixed : Option Store) {parameters : List Variable}
    (h : (.implicitField f cls.ty, v) ∈ st.fieldFacts cls m)
    (ht : (st.methodStore fixed m cls parameters).tracks (.implicitField f cls.ty) = true) :
    ((st.methodStore fixed m cls parameters).value? (.implicitField f cls.ty)).isSome := by
  rw [Store.tracks_congr (sequential_methodStore fixed m cls parameters)] at ht
  rw [Receiver.implicitField, value?_methodStore_field, ← Receiver.implicitField,
    Store.isSome_value?_refineAll,
    Store.tracks_congr (Store.sequential_insertFacts _ (st.initialFacts cls m)),
    Store.value?_insertFacts, if_pos ht]
  rcases List.mem_append.1 h with hinitial | hdeclared
  · refine Or.inl (Option.isSome_iff_ne_none.2 fun hnone => ?_)
    have hlast := (Option.or_eq_none_iff.1 hnone).1
    exact Store.lastValue?_eq_none.1 hlast _ hinitial (Store.sameSlot_self _)
  · exact Or.inr ⟨ht, _, hdeclared, Store.sameSlot_self _⟩

/-- Of a field under a key of another class an entry store knows what its preconditions say. -/
theorem value?_methodStore_of_ne (fixed : Option Store) (parameters : List Variable)
    {base : Receiver} (h : Receiver.field base f ≠ .implicitField f cls.ty) :
    (st.methodStore fixed m cls parameters).value? (.field base f) =
      (st.assumedStore fixed m parameters).value? (.field base f) := by
  have hother : ∀ fact ∈ st.fieldFacts cls m, ¬Store.SameSlot (.field base f) fact.1 := by
    intro fact hfact hslot
    obtain ⟨f', hf'⟩ := exists_of_mem_fieldFacts hfact
    have hkey : Receiver.field base f = .implicitField f' cls.ty := hf' ▸ hslot
    have hfield : f = f' := by injection hkey
    exact h (hfield ▸ hkey)
  have hlast : Store.lastValue? (st.initialFacts cls m) (.field base f) = none :=
    Store.lastValue?_eq_none.2 fun fact hfact => hother fact (List.mem_append_left _ hfact)
  rw [value?_methodStore_field, Store.value?_refineAll_of_ne
    fun fact hfact => hother fact (List.mem_append_right _ hfact), Store.value?_insertFacts, hlast]
  simp

/-- The read of a field through `this` in the entry store of a method finds what was recorded
about the field, unless the field is a static one of another class. What was recorded about such a
field is not found; the read finds what the preconditions of the method say. -/
theorem visit_field_entryStore {g : Graph} {tree : TreeId} {node base : Node}
    (hcode : g.code = .method m tree cls)
    (hfact : (.implicitField f cls.ty, v) ∈ st.fieldFacts cls m)
    (hnode : g.node? node.id = some node) (hbase : g.node? base.id = some base)
    (hkind : node.kind = .fieldAccess base.id f) (hthis : base.kind = .thisLiteral)
    (hty : base.ty = cls.ty) :
    let s := st.methodStore none m cls g.parameters
    (∃ log, st.entryStore none g.code g.parameters = .ok (s, log)) ∧
    (s.tracks (.implicitField f cls.ty) = true → (s.value? (.implicitField f cls.ty)).isSome) ∧
    (st.receiverOf g node.id = .implicitField f cls.ty ↔ f.isStatic = false ∨ f.owner = cls.ty) ∧
    ∀ values, (st.visit g values node (.regular s)).1.value =
      Value.moreSpecific? (st.tableValue node)
        (if f.isStatic = false ∨ f.owner = cls.ty then s.value? (.implicitField f cls.ty)
        else (st.assumedStore none m g.parameters).value?
          (.field (.className f.owner) f)) := by
  intro s
  have hreceiver : st.receiverOf g node.id =
      .field (if f.isStatic then .className f.owner else .this cls.ty) f := by
    rw [receiverOf, Receiver.ofNode_fieldAccess_this hnode hbase hkind hthis, hty]
  have hagree : Receiver.field (if f.isStatic then .className f.owner else .this cls.ty) f =
      .implicitField f cls.ty ↔ f.isStatic = false ∨ f.owner = cls.ty :=
    Receiver.field_eq_implicitField_iff
  have hbody : g.lambdaBody node = node :=
    Graph.lambdaBody_eq_self fun id hlambda => by rw [hkind] at hlambda; cases hlambda
  refine ⟨⟨_, by rw [hcode]; rfl⟩, isSome_value?_of_mem_fieldFacts none hfact,
    hreceiver ▸ hagree, fun values => ?_⟩
  have hvisit : (st.visit g values node (.regular s)).1.value =
      Value.moreSpecific? (st.tableValue node) (s.value? (st.receiverOf g node.id)) := by
    rw [visit, hbody, visitBody]
    simp only [hkind]
    rfl
  rw [hvisit, hreceiver]
  by_cases hfound : f.isStatic = false ∨ f.owner = cls.ty
  · rw [if_pos hfound, hagree.2 hfound]
  · have hstatic : f.isStatic = true := by simpa using (not_or.1 hfound).1
    have hne := mt hagree.1 hfound
    rw [if_pos hstatic] at hne ⊢
    rw [if_neg hfound, value?_methodStore_of_ne none g.parameters hne]

end Setting

namespace InheritedField

private def config : Ty := .declared "Config"

private def main : Ty := .declared "Main"

private def leaf : Ty := .declared "Leaf"

private def label : Field := ⟨⟨20⟩, "label", config, leaf, true, false⟩

private def limit : Field := ⟨⟨21⟩, "limit", config, leaf, true, true⟩

private def nonNull : Value := .of leaf [.nonNull]

/-- `Main` extends `Config`, both of whose fields are final and initialized. -/
private def setting : Setting :=
  .ofTables { Tables.empty with
    supertypes := [("Main", "Config")]
    fields := [⟨label, [], some [.nonNull]⟩, ⟨limit, [], some [.nonNull]⟩] } .empty .default

private def run : Method := ⟨⟨30⟩, "run", main, .void, false, false⟩

private def mainClass : ClassInfo := ⟨⟨1000⟩, main, []⟩

private def thisNode : Node := ⟨⟨0⟩, main, none, true, .thisLiteral⟩

private def thisLabel : Node := ⟨⟨1⟩, leaf, none, true, .fieldAccess ⟨0⟩ label⟩

private def thisLimit : Node := ⟨⟨2⟩, leaf, none, true, .fieldAccess ⟨0⟩ limit⟩

/-- `this.label; this.limit` -/
private def graph : Graph where
  code := .method run ⟨0⟩ mainClass
  parameters := []
  nodes := [thisNode, thisLabel, thisLimit]
  blocks := [⟨⟨0⟩, [⟨0⟩, ⟨1⟩, ⟨2⟩], some .leave, [], [⟨1⟩]⟩, ⟨⟨1⟩, [], none, [⟨0⟩], []⟩]
  entry := ⟨0⟩
  exit := ⟨1⟩

private def entryStore : Store := setting.methodStore none run mainClass []

/-- What is recorded about the inherited instance field is found. -/
theorem visit_thisLabel :
    graph.check = .ok () ∧
    (.implicitField label main, nonNull) ∈ setting.fieldFacts mainClass run ∧
    (∃ log, setting.entryStore none graph.code graph.parameters = .ok (entryStore, log)) ∧
    setting.receiverOf graph thisLabel.id = .implicitField label main ∧
    (setting.visit graph .empty thisLabel (.regular entryStore)).1.value = some nonNull := by
  have hcode : graph.code = .method run ⟨0⟩ mainClass := rfl
  have hfact : (.implicitField label main, nonNull) ∈ setting.fieldFacts mainClass run := by decide
  have hnode : graph.node? thisLabel.id = some thisLabel := rfl
  have hbase : graph.node? thisNode.id = some thisNode := rfl
  obtain ⟨hstore, -, hreceiver, hvalue⟩ :=
    Setting.visit_field_entryStore hcode hfact hnode hbase rfl rfl rfl
  exact ⟨rfl, hfact, hstore, hreceiver.2 (Or.inl rfl), (hvalue .empty).trans (by decide)⟩

/-- What is recorded about the inherited static field stands under the wrong class. -/
theorem visit_thisLimit_finds_nothing :
    graph.check = .ok () ∧
    (.implicitField limit main, nonNull) ∈ setting.fieldFacts mainClass run ∧
    entryStore.value? (.implicitField limit main) = some nonNull ∧
    setting.receiverOf graph thisLimit.id = .field (.className config) limit ∧
    setting.receiverOf graph thisLimit.id ≠ .implicitField limit main ∧
    (setting.visit graph .empty thisLimit (.regular entryStore)).1.value = none :=
  ⟨rfl, by decide, by decide, by decide, by decide, by decide⟩

end InheritedField

end FlowTyping
