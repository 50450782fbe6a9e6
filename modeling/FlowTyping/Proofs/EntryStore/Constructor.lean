import FlowTyping.Proofs.EntryStore.FieldFacts
import FlowTyping.Proofs.EntryStore.LambdaStore
import FlowTyping.Tables.Check
import Mathlib.Data.List.Nodup

/-!
# Entry stores of constructors

When the body of a constructor starts, the initializers of the class have run and nothing else has.
The declared value of a field is joined with the value of its initializer before it refines what is
known, so it adds nothing: what the entry store knows of a field is the value of its initializer.
-/

namespace FlowTyping

theorem Value.refine_lub_right {v : Value} (hv : v.Normalized) (declared : Value) :
    v.refine (declared.lub v) = v := by
  refine ext_rank (normalized_refine _ _) hv ?_ fun hier => ?_
  · rw [ty_refine, if_pos (show v.ty.Below (declared.lub v).ty from Ty.below_lub_right _ _)]
  · rw [rank_refine, rank_lub]
    omega

namespace Store

variable {s : Store} {facts : List (Receiver × Value)} {r : Receiver} {v : Value}

theorem value?_refineAll_of_absorbed (hs : s.value? r = some v)
    (h : ∀ fact ∈ facts, SameSlot r fact.1 → v.refine fact.2 = v) :
    (Setting.refineAll s facts).value? r = some v := by
  induction facts generalizing s with
  | nil => exact hs
  | cons fact facts ih =>
    refine ih ?_ fun f hf => h f (List.mem_cons_of_mem _ hf)
    rw [value?_refine]
    split
    · next hboth =>
      rw [hs]
      exact congrArg some (h fact List.mem_cons_self hboth.1)
    · exact hs

theorem lastValue?_eq_some (hmem : ∃ fact ∈ facts, SameSlot r fact.1)
    (h : ∀ fact ∈ facts, SameSlot r fact.1 → fact.2 = v) : lastValue? facts r = some v := by
  cases hlast : lastValue? facts r with
  | none =>
    obtain ⟨fact, hfact, hslot⟩ := hmem
    exact absurd hslot (lastValue?_eq_none.1 hlast fact hfact)
  | some w =>
    obtain ⟨fact, hfound, rfl⟩ := Option.map_eq_some_iff.1 hlast
    have hfact : fact ∈ facts := List.mem_reverse.1 (List.mem_of_find?_eq_some hfound)
    exact congrArg some (h fact hfact (by simpa using List.find?_some hfound))

end Store

namespace Tables

variable {t : Tables} {f : Field} {v w : Value}

theorem nodup_fields_of_check (h : t.check = .ok ()) : (t.fields.map (·.field.id)).Nodup := by
  have hfault : t.fault? = none := by
    rw [check] at h
    split at h
    · cases h
    · assumption
  simp only [fault?, Option.or_eq_none_iff, Option.map_eq_none_iff, repeated?_eq_none] at hfault
  exact hfault.2.2.2.2.2.1

theorem mem_initializerValues :
    (f, v) ∈ t.initializerValues ↔
      ∃ row ∈ t.fields, row.field = f ∧ ∃ qualifiers,
        row.initializer = some qualifiers ∧ qualifiers ≠ [] ∧ v = .of f.ty qualifiers := by
  simp only [initializerValues, List.mem_filterMap, Option.bind_eq_some_iff,
    Option.map_eq_some_iff, Prod.mk.injEq, Value.of?]
  constructor
  · rintro ⟨row, hrow, qualifiers, hinitializer, v', hv, rfl, rfl⟩
    split at hv
    · cases hv
    · next hempty =>
      cases hv
      exact ⟨row, hrow, rfl, qualifiers, hinitializer, by simpa using hempty, rfl⟩
  · rintro ⟨row, hrow, rfl, qualifiers, hinitializer, hempty, rfl⟩
    exact ⟨row, hrow, qualifiers, hinitializer, _, if_neg (by simpa using hempty), rfl, rfl⟩

theorem normalized_of_mem_initializerValues (h : (f, v) ∈ t.initializerValues) : v.Normalized := by
  obtain ⟨-, -, -, qualifiers, -, -, rfl⟩ := mem_initializerValues.1 h
  exact Value.normalized_of f.ty qualifiers

theorem eq_of_mem_initializerValues (hfields : (t.fields.map (·.field.id)).Nodup)
    (hv : (f, v) ∈ t.initializerValues) (hw : (f, w) ∈ t.initializerValues) : v = w := by
  obtain ⟨row, hrow, rfl, qualifiers, hinitializer, -, rfl⟩ := mem_initializerValues.1 hv
  obtain ⟨row', hrow', hsame, qualifiers', hinitializer', -, rfl⟩ := mem_initializerValues.1 hw
  obtain rfl : row' = row := List.inj_on_of_nodup_map hfields hrow' hrow (congrArg Field.id hsame)
  rw [hinitializer] at hinitializer'
  cases hinitializer'
  rfl

end Tables

namespace Setting

variable {st : Setting} {cls : ClassInfo} {m : Method} {f : Field} {v : Value}
  {fact : Receiver × Value}

theorem eq_of_sameSlot_implicitField {f' : Field} {ty : Ty}
    (h : Store.SameSlot (.implicitField f ty) (.implicitField f' ty)) : f = f' := by
  have hkey : Receiver.implicitField f ty = .implicitField f' ty := h
  injection hkey

theorem mem_initialFacts (hm : m.isConstructor = true) :
    fact ∈ st.initialFacts cls m ↔ ∃ entry ∈ st.tables.initializerValues,
      fact = (.implicitField entry.1 cls.ty, entry.2) := by
  simp [initialFacts, hm, eq_comm]

theorem exists_of_mem_declaredFacts (hm : m.isConstructor = true)
    (h : fact ∈ st.declaredFacts cls m) :
    ∃ entry ∈ st.tables.initializerValues, ∃ declared : Value,
      fact = (.implicitField entry.1 cls.ty, declared.lub entry.2) := by
  obtain ⟨d, -, hd⟩ := List.mem_filterMap.1 h
  obtain ⟨v, hv, rfl⟩ := Option.map_eq_some_iff.1 hd
  rw [declaredFieldValue?] at hv
  split at hv
  · cases hv
  · next declared _ =>
    rw [if_pos hm] at hv
    obtain ⟨entry, hfound, rfl⟩ := Option.map_eq_some_iff.1 hv
    have hfield : entry.1 = d.field := by simpa using List.find?_some hfound
    exact ⟨entry, List.mem_of_find?_eq_some hfound, declared, by rw [hfield]⟩

/-- A body that is given nothing knows nothing of fields before the initializers are recorded. -/
theorem value?_assumedStore_implicitField (hpreconditions : st.contractsAt m .precondition = [])
    (hsequential : st.config.isSequential = true) (parameters : List Variable) (f : Field)
    (ty : Ty) :
    (st.assumedStore none m parameters).value? (.implicitField f ty) = none ∧
    (st.assumedStore none m parameters).tracks (.implicitField f ty) = true := by
  have hassumed : st.assumedStore none m parameters =
      st.addParameters parameters (.empty st.config.isSequential) := by
    rw [assumedStore, assumePreconditions, hpreconditions]
    rfl
  rw [hassumed, value?_addParameters_of_ne (by simp [Receiver.implicitField]),
    Store.tracks_congr (sequential_addParameters _ _)]
  refine ⟨Store.value?_empty _ _, ?_⟩
  cases hstatic : f.isStatic <;>
    simp [Store.tracks, Store.empty, Receiver.implicitField, Receiver.isInsertable,
      Receiver.containsUnknown, hsequential, hstatic]

theorem value?_constructorStore (hfields : (st.tables.fields.map (·.field.id)).Nodup)
    (hsequential : st.config.isSequential = true) (hm : m.isConstructor = true)
    (hpreconditions : st.contractsAt m .precondition = []) (cls : ClassInfo)
    (parameters : List Variable) (f : Field) (v : Value) :
    (st.methodStore none m cls parameters).value? (.implicitField f cls.ty) = some v ↔
      (f, v) ∈ st.tables.initializerValues := by
  obtain ⟨hnothing, htracks⟩ :=
    value?_assumedStore_implicitField hpreconditions hsequential parameters f cls.ty
  have hinitial : ((st.assumedStore none m parameters).insertFacts (st.initialFacts cls m)).value?
      (.implicitField f cls.ty) =
        Store.lastValue? (st.initialFacts cls m) (.implicitField f cls.ty) := by
    rw [Store.value?_insertFacts, if_pos htracks, hnothing, Option.or_none]
  rw [Receiver.implicitField, value?_methodStore_field, ← Receiver.implicitField]
  by_cases hknown : ∃ w, (f, w) ∈ st.tables.initializerValues
  · obtain ⟨w, hw⟩ := hknown
    have hsame : ∀ entry ∈ st.tables.initializerValues,
        Store.SameSlot (.implicitField f cls.ty) (.implicitField entry.1 cls.ty) →
          entry.2 = w := by
      intro entry hentry hslot
      exact Tables.eq_of_mem_initializerValues hfields
        (eq_of_sameSlot_implicitField hslot ▸ hentry) hw
    have hlast : Store.lastValue? (st.initialFacts cls m) (.implicitField f cls.ty) = some w := by
      refine Store.lastValue?_eq_some
        ⟨_, (mem_initialFacts hm).2 ⟨_, hw, rfl⟩, Store.sameSlot_self _⟩ fun fact hfact hslot => ?_
      obtain ⟨entry, hentry, rfl⟩ := (mem_initialFacts hm).1 hfact
      exact hsame entry hentry hslot
    have habsorbed : ∀ fact ∈ st.declaredFacts cls m,
        Store.SameSlot (.implicitField f cls.ty) fact.1 → w.refine fact.2 = w := by
      intro fact hfact hslot
      obtain ⟨entry, hentry, declared, rfl⟩ := exists_of_mem_declaredFacts hm hfact
      rw [← hsame entry hentry hslot]
      exact Value.refine_lub_right (Tables.normalized_of_mem_initializerValues hentry) declared
    rw [Store.value?_refineAll_of_absorbed (hinitial.trans hlast) habsorbed, Option.some.injEq]
    constructor
    · rintro rfl
      exact hw
    · exact Tables.eq_of_mem_initializerValues hfields hw
  · have hdeclared : ∀ fact ∈ st.declaredFacts cls m,
        ¬Store.SameSlot (.implicitField f cls.ty) fact.1 := by
      intro fact hfact hslot
      obtain ⟨entry, hentry, declared, rfl⟩ := exists_of_mem_declaredFacts hm hfact
      exact hknown ⟨entry.2, eq_of_sameSlot_implicitField hslot ▸ hentry⟩
    have hlast : Store.lastValue? (st.initialFacts cls m) (.implicitField f cls.ty) = none := by
      rw [Store.lastValue?_eq_none]
      intro fact hfact hslot
      obtain ⟨entry, hentry, rfl⟩ := (mem_initialFacts hm).1 hfact
      exact hknown ⟨entry.2, eq_of_sameSlot_implicitField hslot ▸ hentry⟩
    rw [Store.value?_refineAll_of_ne hdeclared, hinitial, hlast]
    exact iff_of_false (Option.some_ne_none v).symm fun hmem => hknown ⟨v, hmem⟩

/-- The entry store of a constructor that is given nothing else knows of each field the value of its
initializer, and nothing of a field without one. -/
theorem entryStore_constructor (hcheck : st.tables.check = .ok ())
    (hsequential : st.config.isSequential = true) (hm : m.isConstructor = true)
    (hpreconditions : st.contractsAt m .precondition = []) (tree : TreeId) (cls : ClassInfo)
    (parameters : List Variable) :
    ∃ s log, st.entryStore none (.method m tree cls) parameters = .ok (s, log) ∧
      ∀ f v, s.value? (.implicitField f cls.ty) = some v ↔
        ∃ row ∈ st.tables.fields, row.field = f ∧ ∃ qualifiers,
          row.initializer = some qualifiers ∧ qualifiers ≠ [] ∧ v = .of f.ty qualifiers := by
  refine ⟨st.methodStore none m cls parameters, _, rfl, fun f v => ?_⟩
  rw [value?_constructorStore (Tables.nodup_fields_of_check hcheck) hsequential hm hpreconditions,
    Tables.mem_initializerValues]

end Setting

namespace InitializedField

private def node : Ty := .declared "Node"

private def leaf : Ty := .declared "Leaf"

private def initialized : Field := ⟨⟨23⟩, "initialized", node, leaf, false, false⟩

private def pending : Field := ⟨⟨24⟩, "pending", node, leaf, false, false⟩

private def create : Method := .constructorOf ⟨11⟩ node

/-- Both fields are declared not to be null, the first one twice. -/
private def nodeClass : ClassInfo :=
  ⟨⟨1000⟩, node, [⟨initialized, ⟨5⟩⟩, ⟨pending, ⟨6⟩⟩, ⟨initialized, ⟨7⟩⟩]⟩

private def setting : Setting :=
  .ofTables { Tables.empty with
    fields := [⟨initialized, [.nonNull], some [.nullable]⟩, ⟨pending, [.nonNull], none⟩]
    declarations := [⟨⟨5⟩, some leaf, [.nonNull]⟩, ⟨⟨6⟩, some leaf, [.nonNull]⟩,
      ⟨⟨7⟩, none, [.nonNull, .interned]⟩] } .empty .default

/-- What the declarations say is not trusted, neither of the field that starts as `null` nor of the
one that is not initialized. -/
theorem create_trusts_initializers :
    setting.tables.check = .ok () ∧ setting.config.isSequential = true ∧
    create.isConstructor = true ∧ setting.contractsAt create .precondition = [] ∧
    ∃ s log, setting.entryStore none (.method create ⟨0⟩ nodeClass) [] = .ok (s, log) ∧
      s.value? (.implicitField initialized node) = some (.of leaf [.nullable]) ∧
      s.value? (.implicitField pending node) = none := by
  have hcheck : setting.tables.check = .ok () := rfl
  have hm : create.isConstructor = true := rfl
  have hpreconditions : setting.contractsAt create .precondition = [] := rfl
  obtain ⟨s, log, hs, hfields⟩ :=
    Setting.entryStore_constructor hcheck rfl hm hpreconditions ⟨0⟩ nodeClass []
  have huninitialized : ∀ row ∈ setting.tables.fields, row.field = pending →
      row.initializer = none := by decide
  have hpending : ∀ v, s.value? (.implicitField pending node) ≠ some v := by
    intro v hv
    obtain ⟨row, hrow, hfield, qualifiers, hinitializer, -⟩ := (hfields pending v).1 hv
    rw [huninitialized row hrow hfield] at hinitializer
    cases hinitializer
  exact ⟨hcheck, rfl, hm, hpreconditions, s, log, hs,
    (hfields initialized _).2 ⟨_, List.mem_cons_self, rfl, _, rfl, by decide, rfl⟩,
    Option.eq_none_iff_forall_ne_some.2 hpending⟩

end InitializedField

end FlowTyping
