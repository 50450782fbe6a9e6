import FlowTyping.Proofs.Store.Dependence
import FlowTyping.Proofs.Store.Monotone

/-!
# What an assignment says of its target

After an assignment a store knows the assigned value of the target, a weaker one, or nothing. Final
fields are an exception: a write never weakens what is known of a final field, so when it records
nothing, it leaves the old fact about its own target as it was, or drops it together with a base
that depends on the target.
-/

namespace FlowTyping

namespace Store

variable {s : Store} {t : Tables} {target : Receiver} {value : Option Value}

theorem value?_assign_heapTarget (htarget : target.isHeapLocation = true) :
    (s.assign t.oracle target value).value? target =
      if s.records t.oracle target value then value
      else (s.keptByWrite t.oracle target value).value? target := by
  split
  · next hrecords => exact value?_assign_of_records htarget hrecords
  · next hrecords => rw [assign_heapLocation htarget, if_neg hrecords]

/-- What a write of a field leaves of the old fact about the very field that is written. -/
theorem value?_keptByWrite_field (base : Receiver) (f : Field) :
    (s.keptByWrite t.oracle (.field base f) value).value? (.field base f) =
      if base.dependsOn t.canAlias (.field base f) then none
      else if f.isFinal then s.value? (.field base f)
      else Value.lub? value (s.value? (.field base f)) := by
  have halias : t.oracle.canAlias base.ty base.ty = true := canAlias_refl t base.ty
  have hbase : base.dependsOn t.oracle.canAlias (.field base f) =
    base.dependsOn t.canAlias (.field base f) := rfl
  rw [keptByWrite, value?_mapFacts]
  cases s.value? (.field base f) with
  | none => simp [Value.lub?]
  | some old =>
    simp only [Option.bind_some, Receiver.slot, onSlot, afterFieldWrite, halias, hbase]
    cases base.dependsOn t.canAlias (.field base f) <;> cases f.isFinal <;> cases value <;>
      simp [Value.lub?]

/-- What a write of an element leaves of the old fact about the element: nothing. -/
theorem value?_keptByWrite_array (ty : Ty) (base index : Receiver) :
    (s.keptByWrite t.oracle (.array ty base index) value).value? (.array ty base index) = none := by
  simp [keptByWrite, retain, value?, Receiver.dependsOn]

private theorem value?_assign_cases (s : Store) (t : Tables) (value : Option Value)
    (hlocation : target.isHeapLocation = true ∨ ∃ x, target = .localVariable x)
    (hfinal : target.isFinalField = false) :
    (s.assign t.oracle target value).value? target = value ∨
      Value.KnownBelow value ((s.assign t.oracle target value).value? target) := by
  rcases hlocation with hheap | ⟨x, rfl⟩
  · rw [value?_assign_heapTarget hheap]
    split
    · exact Or.inl rfl
    · right
      cases target with
      | field base f =>
        have hassignable : f.isFinal ≠ true := Bool.eq_false_iff.1 hfinal
        rw [value?_keptByWrite_field, if_neg hassignable]
        split
        · exact Value.knownBelow_none value
        · exact Value.knownBelow_lub? value _
      | array ty base index =>
        rw [value?_keptByWrite_array]
        exact Value.knownBelow_none value
      | _ => cases hheap
  · exact Or.inl ((value?_assign_local ..).trans (if_pos rfl))

private theorem records_of_sequential (hheap : target.isHeapLocation = true)
    (hknown : target.containsUnknown = false) (hs : s.sequential = true) (v : Value) :
    s.records t.oracle target (some v) = true := by
  cases target with
  | field base f => simp [records, hs, hknown]
  | array ty base index => simp [records, hs, hknown]
  | _ => cases hheap

/-- Of a final field that is not recorded anew the old fact stays, unless its base depends on it. -/
theorem value?_assign_finalField (hfinal : target.isFinalField = true) :
    (s.assign t.oracle target value).value? target =
      if s.records t.oracle target value then value
      else if target.partDependsOn t.canAlias target then none
      else s.value? target := by
  cases target with
  | field base f =>
    have hpart : Receiver.partDependsOn t.canAlias (.field base f) (.field base f) =
        base.dependsOn t.canAlias (.field base f) := by
      simp [Receiver.partDependsOn, Receiver.children]
    have hf : f.isFinal = true := hfinal
    rw [value?_assign_heapTarget rfl, value?_keptByWrite_field, if_pos hf, hpart]
  | _ => cases hfinal

/-- After an unknown value is assigned nothing is known of the target, and after another value at
most that value or a weaker one; a sequential store knows the value itself, and so does every store
for a local. Of a final field of which nothing is recorded the old fact stays, unless a part of the
target depends on the target. -/
theorem assign_target (t : Tables) (s : Store) (target : Receiver) (value : Option Value)
    (hlocation : target.isHeapLocation = true ∨ ∃ x, target = .localVariable x)
    (hknown : target.containsUnknown = false) :
    let known := (s.assign t.oracle target value).value? target
    (target.isFinalField = false → value = none → known = none) ∧
    (target.isFinalField = false → ∀ v w, value = some v → known = some w →
      (w = v → v.Normalized) → v.Below w) ∧
    ((s.sequential = true ∨ ∃ x, target = .localVariable x) →
      ∀ v, value = some v → known = some v) ∧
    (target.isFinalField = true → known =
      if s.records t.oracle target value then value
      else if target.partDependsOn t.canAlias target then none
      else s.value? target) := by
  intro known
  refine ⟨fun hfinal hv => ?_, fun hfinal v w hv hw hnormalized => ?_, fun hs v hv => ?_,
    value?_assign_finalField⟩
  · subst hv
    exact (value?_assign_cases s t none hlocation hfinal).elim id Eq.symm
  · subst hv
    rcases value?_assign_cases s t (some v) hlocation hfinal with hsame | hbelow
    · obtain rfl : v = w := Option.some.inj (hsame.symm.trans hw)
      exact (hnormalized rfl).lub_self
    · obtain ⟨u, hu, hvw⟩ := Value.knownBelow_iff.1 hbelow w hw
      obtain rfl : v = u := Option.some.inj hu
      exact hvw
  · subst hv
    by_cases hlocal : ∃ x, target = .localVariable x
    · obtain ⟨x, rfl⟩ := hlocal
      exact (value?_assign_local ..).trans (if_pos rfl)
    · have hheap := hlocation.resolve_right hlocal
      exact value?_assign_of_records hheap
        (records_of_sequential hheap hknown (hs.resolve_right hlocal) v)

end Store

namespace MonotonicField

private def leaf (q : Qualifier) : Value := .of value.ty [q]

/-- A concurrent store after `this.value` was written. -/
private def written : Store :=
  (Store.empty false).assign tables.oracle thisValue (some (leaf .nonNull))

/-- The next write of `this.value` need not be of a value that is not null. It is not recorded, and
what stays known is no more than it says. -/
theorem thisValue_assign_target :
    thisValue.isHeapLocation = true ∧ thisValue.containsUnknown = false ∧
    thisValue.isFinalField = false ∧ written.value? thisValue = some (leaf .nonNull) ∧
    (written.assign tables.oracle thisValue none).value? thisValue = none ∧
    (leaf .nullable).Below (leaf .nullable) ∧
    (written.assign tables.oracle thisValue (some (leaf .nullable))).value? thisValue =
      some (leaf .nullable) := by
  obtain ⟨hunknown, -⟩ := Store.assign_target tables written thisValue none (Or.inl rfl) rfl
  have hweaker : (written.assign tables.oracle thisValue (some (leaf .nullable))).value? thisValue =
      some (leaf .nullable) := by decide
  obtain ⟨-, hbelow, -⟩ :=
    Store.assign_target tables written thisValue (some (leaf .nullable)) (Or.inl rfl) rfl
  exact ⟨rfl, rfl, rfl, by decide, hunknown rfl rfl,
    hbelow rfl (leaf .nullable) (leaf .nullable) rfl hweaker fun _ => by decide, hweaker⟩

end MonotonicField

namespace FinalTarget

private def box : Ty := .declared "Box"

private def link : Field := ⟨⟨20⟩, "link", box, box, false, false⟩

private def id : Field := ⟨⟨21⟩, "id", box, .declared "Leaf", true, false⟩

private def thisId : Receiver := .field (.this box) id

private def linkId : Receiver := .field (.field (.this box) link) id

private def leaf (q : Qualifier) : Value := .of id.ty [q]

private def tables : Tables := { Tables.empty with fields := [⟨id, [.monotonicNonNull], none⟩] }

private def thisIdKnown : Store := (Store.empty true).insert thisId (leaf .nonNull)

/-- Other threads may assign `this.link`, so only what is monotonic of `this.link.id` is known. -/
private def linkIdKnown : Store :=
  (Store.empty false).assign tables.oracle linkId (some (leaf .nonNull))

/-- The old fact about the final field `id` outlasts the write of an unknown value, and in a
concurrent store also the write of a value that need not have been set. -/
theorem stale_fact_assign :
    thisId.isHeapLocation = true ∧ thisId.containsUnknown = false ∧
    (thisIdKnown.assign Tables.empty.oracle thisId none).value? thisId = some (leaf .nonNull) ∧
    linkId.isHeapLocation = true ∧ linkId.containsUnknown = false ∧
    (linkIdKnown.assign tables.oracle linkId (some (leaf .nullable))).value? linkId =
      some (leaf .nonNull) ∧
    ¬(leaf .nullable).Below (leaf .nonNull) := by
  exact ⟨rfl, rfl, by decide, rfl, rfl, by decide +kernel, by decide⟩

end FinalTarget

end FlowTyping
