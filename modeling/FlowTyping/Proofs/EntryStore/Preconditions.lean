import FlowTyping.Proofs.EntryStore.Facts
import FlowTyping.Proofs.Value.Join

/-!
# Preconditions in entry stores

A precondition is recorded before initial values of fields and captured locals are. Those replace
what is known of a receiver, so a precondition about it survives exactly if they imply it
themselves, or if the declared value of the field, which refines, implies it again.
-/

namespace FlowTyping

namespace Value

/-- A value has a qualifier at or below `q`. -/
def Implies (v : Value) (q : Qualifier) : Prop :=
  ∃ p ∈ v.qualifier? q.hierarchy, p.isSubtype q = true

instance (v : Value) (q : Qualifier) : Decidable (v.Implies q) :=
  inferInstanceAs (Decidable (∃ p ∈ v.qualifier? q.hierarchy, p.isSubtype q = true))

theorem implies_of (ty : Ty) (q : Qualifier) : (of ty [q]).Implies q := by
  refine ⟨q, ?_, q.isSubtype_refl⟩
  rw [qualifier?_of]
  cases q <;> rfl

private theorem isSubtype_sharper {p p' q : Qualifier} (h : p.hierarchy = p'.hierarchy) :
    (if p.isSubtype p' = true then p else p').isSubtype q = true ↔
      p.isSubtype q = true ∨ p'.isSubtype q = true := by
  split
  · next hle => exact ⟨Or.inl, fun hor => hor.elim id (Qualifier.isSubtype_trans hle)⟩
  · next hnot =>
    have hle : p'.isSubtype p = true := by
      simp only [Qualifier.isSubtype, h, Bool.and_eq_true, decide_eq_true_iff, true_and] at hnot ⊢
      omega
    exact ⟨Or.inr, fun hor => hor.elim (Qualifier.isSubtype_trans hle) id⟩

theorem implies_mostSpecific (v w fallback : Value) (q : Qualifier) :
    (v.mostSpecific w fallback).Implies q ↔ v.Implies q ∨ w.Implies q := by
  simp only [Implies, qualifier?_mostSpecific, Option.mem_def]
  cases hv : v.qualifier? q.hierarchy with
  | none => simp [sharperQualifier]
  | some p =>
    cases hw : w.qualifier? q.hierarchy with
    | none => simp [sharperQualifier]
    | some p' =>
      have hsame : p.hierarchy = p'.hierarchy :=
        (QualifierSet.hierarchy_of_strongest? hv).trans
          (QualifierSet.hierarchy_of_strongest? hw).symm
      simpa [sharperQualifier] using isSubtype_sharper hsame

end Value

namespace Store

/-- A store knows that a receiver has a qualifier at or below `q`. -/
def Ensures (s : Store) (r : Receiver) (q : Qualifier) : Prop :=
  ∃ v ∈ s.value? r, v.Implies q

instance (s : Store) (r : Receiver) (q : Qualifier) : Decidable (s.Ensures r q) :=
  inferInstanceAs (Decidable (∃ v ∈ s.value? r, v.Implies q))

variable {s : Store} {r : Receiver}

theorem ensures_congr {t : Store} (h : s.value? r = t.value? r) (q : Qualifier) :
    s.Ensures r q ↔ t.Ensures r q := by
  rw [Ensures, Ensures, h]

theorem ensures_refine (ht : s.tracks r = true) (r' : Receiver) (v : Value) (q : Qualifier) :
    (s.refine r' v).Ensures r q ↔ s.Ensures r q ∨ SameSlot r r' ∧ v.Implies q := by
  by_cases hslot : SameSlot r r'
  · have ht' : s.tracks r' = true := tracks_of_sameSlot hslot s ▸ ht
    rw [Ensures, value?_refine, if_pos ⟨hslot, ht'⟩, Ensures]
    cases s.value? r with
    | none => simp [Value.moreSpecific?, hslot]
    | some w => simp [Value.moreSpecific?, Value.implies_mostSpecific, hslot, or_comm]
  · rw [ensures_congr (t := s) (by rw [value?_refine, if_neg fun h => hslot h.1])]
    simp [hslot]

theorem ensures_refineAll (ht : s.tracks r = true) (facts : List (Receiver × Value))
    (q : Qualifier) :
    (Setting.refineAll s facts).Ensures r q ↔
      s.Ensures r q ∨ ∃ fact ∈ facts, SameSlot r fact.1 ∧ fact.2.Implies q := by
  induction facts generalizing s with
  | nil => simp [Setting.refineAll]
  | cons fact facts ih =>
    have ht' : (s.refine fact.1 fact.2).tracks r = true :=
      (tracks_congr (sequential_refine s fact.1 fact.2) r).trans ht
    rw [Setting.refineAll, List.foldl_cons, ← Setting.refineAll, ih ht', ensures_refine ht]
    simp [or_assoc]

/-- After recording, the last fact about a receiver counts, or what the store ensures if there is
none. -/
theorem ensures_insertFacts (ht : s.tracks r = true) (facts : List (Receiver × Value))
    (q : Qualifier) :
    (s.insertFacts facts).Ensures r q ↔
      (lastValue? facts r).elim (s.Ensures r q) (·.Implies q) := by
  rw [Ensures, value?_insertFacts, if_pos ht]
  cases lastValue? facts r with
  | none => rfl
  | some v => simp

end Store

namespace Setting

variable {st : Setting} {m : Method} {parameters : List Variable} {c : Contract} {r : Receiver}

/-- What a precondition says holds once the preconditions are assumed. -/
theorem assumedStore_ensures (hc : c ∈ st.contractsAt m .precondition)
    (hr : st.reader (.ofDeclaration m parameters) c.expression = .ok r) (fixed : Option Store)
    (ht : (st.assumedStore fixed m parameters).tracks r = true) :
    (st.assumedStore fixed m parameters).Ensures r c.qualifier := by
  have hfact : (r, Value.of r.ty [c.qualifier]) ∈
      st.contractFacts (.ofDeclaration m parameters) (st.contractsAt m .precondition) := by
    refine List.mem_filterMap.2 ⟨c, hc, ?_⟩
    rw [contractFact, hr]
    rfl
  rw [assumedStore, assumePreconditions] at ht ⊢
  rw [Store.tracks_congr (Store.sequential_refineAll _ _)] at ht
  exact (Store.ensures_refineAll ht _ _).2
    (Or.inr ⟨_, hfact, Store.sameSlot_self r, Value.implies_of r.ty c.qualifier⟩)

/-- No receiver is a field and a captured local at once. -/
theorem lastValue?_initialFacts_of_captured {element : ElementId} {v : Value}
    (h : Store.lastValue? (st.capturedFacts element) r = some v) (cls : ClassInfo) (m : Method) :
    Store.lastValue? (st.initialFacts cls m) r = none := by
  rw [Store.lastValue?_eq_none]
  intro fact hfact hslot
  obtain ⟨entry, -, rfl⟩ := List.mem_map.1 hfact
  cases r with
  | field base f =>
    rw [lastValue?_capturedFacts_field] at h
    cases h
  | _ => cases hslot

/-- The entry store of a method ensures a precondition about a receiver it tracks exactly if the
facts recorded after the preconditions do not take it back: the last initial value of the
receiver implies it, if there is one, or the declared value does; and so does the last captured
value, if there is one. -/
theorem entryStore_ensures_precondition (hc : c ∈ st.contractsAt m .precondition)
    (hr : st.reader (.ofDeclaration m parameters) c.expression = .ok r) (fixed : Option Store)
    (tree : TreeId) (cls : ClassInfo) :
    let s := st.methodStore fixed m cls parameters
    (∃ log, st.entryStore fixed (.method m tree cls) parameters = .ok (s, log)) ∧
      (s.tracks r = true → (s.Ensures r c.qualifier ↔
        (∀ v ∈ Store.lastValue? (st.initialFacts cls m) r, v.Implies c.qualifier ∨
          ∃ fact ∈ st.declaredFacts cls m, Store.SameSlot r fact.1 ∧
            fact.2.Implies c.qualifier) ∧
        ∀ v ∈ Store.lastValue? (st.capturedFacts m.id) r, v.Implies c.qualifier)) := by
  intro s
  refine ⟨⟨_, rfl⟩, fun ht => ?_⟩
  rw [Store.tracks_congr (sequential_methodStore fixed m cls parameters)] at ht
  have hassumed := assumedStore_ensures hc hr fixed ht
  have hinitial := Store.ensures_insertFacts ht (st.initialFacts cls m) c.qualifier
  have hdeclared := Store.ensures_refineAll
    (s := (st.assumedStore fixed m parameters).insertFacts (st.initialFacts cls m))
    ((Store.tracks_congr (Store.sequential_insertFacts _ _) r).trans ht)
    (st.declaredFacts cls m) c.qualifier
  rw [show s = _ from methodStore_eq fixed m cls parameters, Store.ensures_insertFacts
    ((Store.tracks_congr (by simp) r).trans ht), hdeclared, hinitial]
  cases hcaptured : Store.lastValue? (st.capturedFacts m.id) r with
  | some v => simp [lastValue?_initialFacts_of_captured hcaptured]
  | none => cases Store.lastValue? (st.initialFacts cls m) r <;> simp [hassumed]

end Setting

namespace FinalField

private def box : Ty := .declared "Box"

private def leaf : Ty := .declared "Leaf"

private def value : Field := ⟨⟨21⟩, "value", box, leaf, true, false⟩

private def thisValue : Receiver := .field (.this box) value

private def unwrap : Method := ⟨⟨30⟩, "unwrap", box, leaf, false, false⟩

private def boxClass : ClassInfo := ⟨⟨1000⟩, box, [⟨value, ⟨5⟩⟩]⟩

private def valueNonNull : Contract := ⟨.precondition, "this.value", .nonNull⟩

/-- The field starts with what may be null, and `unwrap` must only be called when it is not. -/
private def tables : Tables :=
  { Tables.empty with
    fields := [⟨value, [], some [.nullable]⟩]
    methods := [⟨⟨30⟩, [valueNonNull], false, false, []⟩] }

private def declaredTables : Tables :=
  { tables with declarations := [⟨⟨5⟩, some leaf, [.nonNull]⟩] }

private def settingOf (t : Tables) : Setting := .ofTables t .empty .default

/-- The declared value implies what the initial value takes back. -/
theorem unwrap_ensures_value :
    let st := settingOf declaredTables
    valueNonNull ∈ st.contractsAt unwrap .precondition ∧
    st.reader (.ofDeclaration unwrap []) valueNonNull.expression = .ok thisValue ∧
    (∃ log, st.entryStore none (.method unwrap ⟨0⟩ boxClass) [] =
      .ok (st.methodStore none unwrap boxClass [], log)) ∧
    (st.methodStore none unwrap boxClass []).tracks thisValue = true ∧
    (st.methodStore none unwrap boxClass []).Ensures thisValue .nonNull := by
  intro st
  have hc : valueNonNull ∈ st.contractsAt unwrap .precondition := by decide
  have hr : st.reader (.ofDeclaration unwrap []) valueNonNull.expression = .ok thisValue := rfl
  have ht : (st.methodStore none unwrap boxClass []).tracks thisValue = true := by decide
  obtain ⟨hs, hiff⟩ := Setting.entryStore_ensures_precondition hc hr none ⟨0⟩ boxClass
  exact ⟨hc, hr, hs, ht, (hiff ht).2 (by decide)⟩

/-- Without the declared value nothing is left of the precondition. -/
theorem unwrap_forgets_precondition :
    let st := settingOf tables
    valueNonNull ∈ st.contractsAt unwrap .precondition ∧
    st.reader (.ofDeclaration unwrap []) valueNonNull.expression = .ok thisValue ∧
    st.entryStore none (.method unwrap ⟨0⟩ boxClass) [] =
      .ok (st.methodStore none unwrap boxClass [], .empty) ∧
    (st.methodStore none unwrap boxClass []).tracks thisValue = true ∧
    ¬(st.methodStore none unwrap boxClass []).Ensures thisValue .nonNull :=
  ⟨by decide, rfl, rfl, by decide, by decide⟩

end FinalField

end FlowTyping
