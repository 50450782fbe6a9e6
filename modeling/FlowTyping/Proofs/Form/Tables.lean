import FlowTyping.Form.Tables
import FlowTyping.Proofs.Form.Program

/-!
# The documents of tables and suppression lists

The document of any tables stands for those tables, and that of any suppression list for that
list.
-/

namespace FlowTyping

open Json

theorem ContractKind.standsFor (k : ContractKind) : StandsFor ContractKind.ofJson k.toJson k := by
  cases k with
  | precondition => exact .name fun _ => rfl
  | postcondition => exact .name fun _ => rfl
  | conditionalPostcondition result =>
    refine .fields (fun _ => rfl) rfl ?_
    refine .field (.boolean result) rfl ?_
    exact .pure _

theorem Contract.standsFor (c : Contract) : StandsFor Contract.ofJson c.toJson c := by
  refine .object rfl ?_
  refine .field c.kind.standsFor rfl ?_
  refine .field (.text c.expression) rfl ?_
  refine .field c.qualifier.standsFor rfl ?_
  exact .pure _

theorem ScopeKind.standsFor (k : ScopeKind) : StandsFor ScopeKind.ofJson k.toJson k := by
  cases k <;> exact .name fun _ => rfl

theorem Scope.standsFor (s : Scope) : StandsFor Scope.ofJson s.toJson s := by
  refine .object rfl ?_
  refine .field s.kind.standsFor rfl ?_
  refine .field (.ofOption s.element (fun id _ => id.standsFor) fun _ => nofun) rfl ?_
  exact .pure _

theorem Ty.toJson_ne_null (t : Ty) : t.toJson ≠ .null := by
  cases t <;> exact nofun

theorem TreeEntry.standsFor (e : TreeEntry) : StandsFor TreeEntry.ofJson e.toJson e := by
  refine .object rfl ?_
  refine .field e.tree.standsFor rfl ?_
  refine .field (.ofOption e.ty (fun t _ => t.standsFor) Ty.toJson_ne_null) rfl ?_
  refine .field (Qualifier.list_standsFor e.qualifiers) rfl ?_
  exact .pure _

theorem VariableEntry.standsFor (e : VariableEntry) :
    StandsFor VariableEntry.ofJson e.toJson e := by
  refine .object rfl ?_
  refine .field e.variableId.standsFor rfl ?_
  refine .field (Qualifier.list_standsFor e.qualifiers) rfl ?_
  exact .pure _

theorem FieldEntry.standsFor (e : FieldEntry) : StandsFor FieldEntry.ofJson e.toJson e := by
  refine .object rfl ?_
  refine .field e.field.standsFor rfl ?_
  refine .field (Qualifier.list_standsFor e.qualifiers) rfl ?_
  refine .field (.ofOption e.initializer (fun qs _ => Qualifier.list_standsFor qs)
    fun _ => nofun) rfl ?_
  exact .pure _

theorem FinalLocal.standsFor (e : FinalLocal) : StandsFor FinalLocal.ofJson e.toJson e := by
  refine .object rfl ?_
  refine .field e.declaration.standsFor rfl ?_
  refine .field (Qualifier.list_standsFor e.qualifiers) rfl ?_
  exact .pure _

theorem ElementEntry.standsFor (e : ElementEntry) : StandsFor ElementEntry.ofJson e.toJson e := by
  refine .object rfl ?_
  refine .field e.element.standsFor rfl ?_
  refine .field e.kind.standsFor rfl ?_
  refine .field (.ofOption e.enclosing (fun id _ => id.standsFor) fun _ => nofun) rfl ?_
  exact .pure _

theorem LexicalPath.standsFor (p : LexicalPath) : StandsFor LexicalPath.ofJson p.toJson p := by
  refine .object rfl ?_
  refine .field p.tree.standsFor rfl ?_
  refine .field (.ofList fun s _ => Scope.standsFor s) rfl ?_
  exact .pure _

theorem OverrideEntry.standsFor (e : OverrideEntry) :
    StandsFor OverrideEntry.ofJson e.toJson e := by
  refine .object rfl ?_
  refine .field e.method.standsFor rfl ?_
  refine .field (Qualifier.list_standsFor e.receiver) rfl ?_
  refine .field (.ofList fun v _ => Value.standsFor v) rfl ?_
  exact .pure _

theorem MethodEntry.standsFor (e : MethodEntry) : StandsFor MethodEntry.ofJson e.toJson e := by
  refine .object rfl ?_
  refine .field e.method.standsFor rfl ?_
  refine .field (.ofList fun c _ => Contract.standsFor c) rfl ?_
  refine .field (.boolean e.sideEffectFree) rfl ?_
  refine .field (.boolean e.deterministic) rfl ?_
  refine .field (.ofList fun o _ => OverrideEntry.standsFor o) rfl ?_
  exact .pure _

theorem Tables.standsFor (t : Tables) : StandsFor Tables.ofJson t.toJson t := by
  refine .object rfl ?_
  refine .field (.ofList fun p _ => (StandsFor.text p.1).pair (.text p.2)) rfl ?_
  refine .field (.ofList fun e _ => TreeEntry.standsFor e) rfl ?_
  refine .field (.ofList fun e _ => TreeEntry.standsFor e) rfl ?_
  refine .field (.ofList fun e _ => TreeEntry.standsFor e) rfl ?_
  refine .field (.ofList fun e _ => VariableEntry.standsFor e) rfl ?_
  refine .field (.ofList fun e _ => FieldEntry.standsFor e) rfl ?_
  refine .field (.ofList fun e _ => FinalLocal.standsFor e) rfl ?_
  refine .field (.ofList fun e _ => ElementEntry.standsFor e) rfl ?_
  refine .field (.ofList fun p _ => LexicalPath.standsFor p) rfl ?_
  refine .field (.ofList fun e _ => MethodEntry.standsFor e) rfl ?_
  exact .pure _

theorem SuppressionList.standsFor (l : SuppressionList) :
    StandsFor SuppressionList.ofJson l.toJson l := by
  refine .object rfl ?_
  refine .field (.ofList fun tree _ => TreeId.standsFor tree) rfl ?_
  refine .field (.ofList fun id _ => ElementId.standsFor id) rfl ?_
  exact .pure _

end FlowTyping
