import FlowTyping.Proofs.Store.Write
import FlowTyping.Tables

/-!
# What a recorded fact depends on

A write drops every fact whose key has a part that depends on the written location, and only then
records the fact about the location itself. So after a write no key has a part that depends on
the target, except the target: a target that is reached through a location like the one written,
such as `x.next.next`, keeps its new fact although the write may have changed what it denotes.
-/

namespace FlowTyping

namespace Receiver

/-- Whether writing `target` may change what some direct part of a receiver denotes. -/
def partDependsOn (canAlias : Ty → Ty → Bool) (r target : Receiver) : Bool :=
  r.children.any (·.dependsOn canAlias target)

theorem dependsOn_of_partDependsOn {canAlias : Ty → Ty → Bool} {r target : Receiver}
    (h : r.partDependsOn canAlias target = true) :
    r.dependsOn canAlias target = true := by
  cases r with
  | field base f =>
    have hbase : base.dependsOn canAlias target = true := by
      simpa [partDependsOn, children] using h
    simp [dependsOn, hbase]
  | array ty base index =>
    have hpart : base.dependsOn canAlias target = true ∨
        index.dependsOn canAlias target = true := by
      simpa [partDependsOn, children] using h
    rcases hpart with hpart | hpart <;> simp [dependsOn, hpart]
  | call ty m base arguments =>
    have hpart : base.dependsOn canAlias target = true ∨
        arguments.any (·.dependsOn canAlias target) = true := by
      simpa [partDependsOn, children] using h
    rcases hpart with hpart | hpart <;> simp [dependsOn, hpart]
  | localVariable _ => cases h
  | this _ => cases h
  | className _ => cases h
  | literal _ _ => cases h
  | unknown _ => cases h

end Receiver

namespace Store

variable {s : Store} {oracle : StoreOracle} {target key : Receiver} {value : Option Value}
  {w : Value}

/-- No key that a write keeps has a part that depends on the target. -/
theorem partDependsOn_of_keptByWrite
    (h : (s.keptByWrite oracle target value).value? key = some w) :
    key.partDependsOn oracle.canAlias target = false := by
  have hfree : (!key.dependsOn oracle.canAlias target) = true →
      key.partDependsOn oracle.canAlias target = false := by
    intro hkey
    rw [Bool.not_eq_true'] at hkey
    rw [Bool.eq_false_iff] at hkey ⊢
    exact fun hpart => hkey (Receiver.dependsOn_of_partDependsOn hpart)
  by_cases hfield : ∃ base f, target = .field base f
  · obtain ⟨base, f, rfl⟩ := hfield
    rcases value?_mapFacts_eq_some h with ⟨⟨ty, rfl⟩, -⟩ | ⟨old, -, hw⟩
    · rfl
    · by_cases hkey : ∃ base' f', key = .field base' f'
      · -- The whole key may alias the written field; only its base was tested.
        obtain ⟨base', f', rfl⟩ := hkey
        rw [afterFieldWrite] at hw
        split at hw
        · cases hw
        · next hbase => simpa [Receiver.partDependsOn, Receiver.children] using hbase
      · rw [afterFieldWrite_of_ne fun base' f' he => hkey ⟨base', f', he⟩] at hw
        split at hw
        · cases hw
        · next hkept => exact hfree (by simpa using hkept)
  · have hretain : s.keptByWrite oracle target value =
        s.retain fun key => !key.dependsOn oracle.canAlias target := by
      cases target
      case field base f => exact absurd ⟨base, f, rfl⟩ hfield
      all_goals rfl
    rw [hretain] at h
    obtain ⟨-, hkeep | ⟨ty, rfl⟩⟩ := value?_retain_eq_some h
    · exact hfree hkeep
    · rfl

/-- After a write of a field or an array element, a key with a part that depends on the target is
the target itself. There is one exactly when the write records its fact and some part of the
target depends on the target. -/
theorem assign_partDependsOn (htarget : target.isHeapLocation = true) :
    (∀ key w, (s.assign oracle target value).value? key = some w → key ≠ target →
      key.partDependsOn oracle.canAlias target = false) ∧
    ((∀ key w, (s.assign oracle target value).value? key = some w →
      key.partDependsOn oracle.canAlias target = false) ↔
        ¬(s.records oracle target value = true ∧
          target.partDependsOn oracle.canAlias target = true)) := by
  have hkept : ∀ key w, (s.assign oracle target value).value? key = some w →
      ¬(key = target ∧ s.records oracle target value = true) →
      key.partDependsOn oracle.canAlias target = false := fun key w hw hnot =>
    partDependsOn_of_keptByWrite ((value?_assign_heapLocation htarget hw).resolve_left hnot)
  refine ⟨fun key w hw hne => hkept key w hw fun h => hne h.1, fun hall => ?_,
    fun hnot key w hw => ?_⟩
  · rintro ⟨hrecords, hpart⟩
    cases value with
    | none => cases hrecords
    | some v =>
      rw [hall target v (value?_assign_of_records htarget hrecords)] at hpart
      cases hpart
  · by_cases hrecorded : key = target ∧ s.records oracle target value = true
    · obtain ⟨rfl, hrecords⟩ := hrecorded
      exact Bool.eq_false_iff.2 fun hpart => hnot ⟨hrecords, hpart⟩
    · exact hkept key w hw hrecorded

end Store

namespace SelfReference

private def node : Ty := .declared "Node"

private def next : Field := ⟨⟨20⟩, "next", node, node, false, false⟩

private def value : Field := ⟨⟨21⟩, "value", node, .declared "Leaf", false, false⟩

private def thisNext : Receiver := .field (.this node) next

private def nonNull (ty : Ty) : Value := .of ty [.nonNull]

/-- A write of `this.next` drops what is known below it. -/
private def linked : Store :=
  ((Store.empty true).put (.field thisNext value) (some (nonNull value.ty))).put thisNext
    (some (nonNull node))

theorem linked_assign_independent :
    thisNext.isHeapLocation = true ∧
    (∀ key w,
      (linked.assign Tables.empty.oracle thisNext (some (nonNull node))).value? key = some w →
        key.partDependsOn Tables.empty.oracle.canAlias thisNext = false) ∧
    (linked.assign Tables.empty.oracle thisNext (some (nonNull node))).value?
      (.field thisNext value) = none := by
  refine ⟨rfl, (Store.assign_partDependsOn rfl).2.2 ?_, by decide⟩
  decide

/-- `this.next.next` is reached through `this.next`, a location of the type that is written. -/
theorem assign_next_next_dependent :
    ((Store.empty true).assign Tables.empty.oracle (.field thisNext next)
      (some (nonNull node))).value? (.field thisNext next) = some (nonNull node) ∧
    (.field thisNext next : Receiver).partDependsOn Tables.empty.oracle.canAlias
      (.field thisNext next) = true := by
  decide

private def cyclic : Memory Nat :=
  ⟨fun _ => 5, 1, fun _ => 5, fun _ _ => 5, fun o _ => if o = 1 then 1 else 0, fun _ _ => 0⟩

/-- When `this.next` is `this`, the fact recorded by a write of `this.next.next` is about another
location after the write, and it is wrong there. -/
theorem cyclic_not_satisfies_assign :
    cyclic.Satisfies Memory.Aliased.NonNullHolds (.empty true) ∧
    cyclic.location? (.field thisNext next) = some (.field 1 next) ∧
    Memory.Aliased.NonNullHolds 2 (nonNull node) ∧
    ¬(cyclic.write (.field 1 next) 2).Satisfies Memory.Aliased.NonNullHolds
      ((Store.empty true).assign Tables.empty.oracle (.field thisNext next)
        (some (nonNull node))) := by
  refine ⟨fun r v y _ hv _ => ?_, rfl, fun _ => by decide, fun hsat => ?_⟩
  · rw [Store.value?_empty] at hv
    cases hv
  · exact hsat (.field thisNext next) (nonNull node) 0 rfl (by decide) rfl (by decide) rfl

end SelfReference

end FlowTyping
