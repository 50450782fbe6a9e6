import FlowTyping.Proofs.Fixpoint.MonotoneRun
import FlowTyping.Proofs.Fixpoint.Termination

/-!
# The stores of a monotone run

What the stores of a run over a monotone body have in common: they are well-formed, their values
are normalized, and they know nothing of monotonic final fields. Joins keep this, runs of blocks
do, and the store on entry to a method has it as soon as it knows nothing of such fields.
Comparable ones agree, or the less precise one has less depth.
-/

namespace FlowTyping

open Value (KnownBelow)

/-- A store of a monotone run: well-formed, with normalized values, and without facts about
monotonic final fields. -/
structure Store.Sound (tables : Tables) (sequential : Bool) (s : Store) : Prop where
  wellFormed : s.WellFormed tables sequential
  below : s.Below s
  finals : s.FinalsNotMonotonic tables

theorem Store.Sound.lub {tables : Tables} {sequential : Bool} {s t : Store}
    (hs : s.Sound tables sequential) (ht : t.Sound tables sequential) :
    (s.lub t).Sound tables sequential where
  wellFormed := Store.closed_wellFormed tables sequential s (.lub t) hs.wellFormed
  below := hs.below.lub ht.below
  finals := hs.finals.lub t

/-- Where no fact but the one in its own slot is about `this`, the order of stores is the order of
their slots. -/
theorem Store.Below.known {tables : Tables} {sequential : Bool} {s t : Store} (h : s.Below t)
    (ht : t.WellFormed tables sequential) (slot : Option Receiver) :
    KnownBelow (s.known slot) (t.known slot) := by
  have hvisible : ∀ r : Receiver, KnownBelow (s.known r.slot) (t.known r.slot) := by
    intro r
    rw [← value?_eq_known, ← value?_eq_known]
    exact h.knownBelow r
  cases slot with
  | none => exact hvisible (.this .object)
  | some r =>
    cases hfact : t.known (some r) with
    | none => exact Value.knownBelow_none _
    | some v =>
      have hslot : r.slot = some r := by
        have hpartition := ht.partitioned r v hfact
        cases r with
        | this ty => cases hpartition
        | _ => rfl
      rw [← hfact, ← hslot]
      exact hvisible r

namespace Stores

def depth (s : Stores) : Nat := s.thenStore.depth + s.elseStore.depth

variable {tables : Tables} {sequential : Bool} {s t : Stores}

theorem depth_le (h : s.Below t) (ht : t.Both fun s => s.WellFormed tables sequential) :
    t.depth ≤ s.depth :=
  Nat.add_le_add (Store.depth_le (h.1.known ht.1)) (Store.depth_le (h.2.known ht.2))

theorem agrees_or_depth_lt (h : s.Below t) (hshape : s.isConditional = t.isConditional)
    (ht : t.Both fun s => s.WellFormed tables sequential) :
    s.agrees t = true ∨ t.depth < s.depth := by
  have hthen := Store.depth_le (h.1.known ht.1)
  have helse := Store.depth_le (h.2.known ht.2)
  rcases Store.agrees_or_depth_lt h.1.sequential_eq (h.1.known ht.1) with hagree | hlt
  · rcases Store.agrees_or_depth_lt h.2.sequential_eq (h.2.known ht.2) with hagree' | hlt
    · exact Or.inl (agrees_iff.2 ⟨hshape, hagree, hagree'⟩)
    · exact Or.inr (Nat.add_lt_add_of_le_of_lt hthen hlt)
  · exact Or.inr (Nat.add_lt_add_of_lt_of_le hlt helse)

end Stores

/-! ### Entry stores -/

theorem Store.below_empty (sequential : Bool) : (empty sequential).Below (empty sequential) :=
  below_iff.2 ⟨rfl, fun r => by rw [value?_empty]; exact Value.knownBelow_none _⟩

theorem Store.Below.insert {s t : Store} (h : s.Below t) (r : Receiver) {v : Value}
    (hv : v.Normalized) : (s.insert r v).Below (t.insert r v) := by
  rw [Store.insert, Store.insert, tracks_congr h.sequential_eq r]
  split
  · exact h.put r (Value.knownBelow_self fun a ha => Option.some.inj ha ▸ hv)
  · exact h

namespace Tables

variable {tables : Tables}

theorem normalized_valueOfVariable {x : Variable} {v : Value}
    (h : tables.valueOfVariable x = some v) : v.Normalized := by
  obtain ⟨entry, -, hentry⟩ := Option.bind_eq_some_iff.1 h
  exact Value.normalized_of? hentry

theorem normalized_initializerValues : ∀ entry ∈ tables.initializerValues, entry.2.Normalized := by
  intro entry hentry
  obtain ⟨field, -, hfield⟩ := List.mem_filterMap.1 hentry
  obtain ⟨qualifiers, -, hvalue⟩ := Option.bind_eq_some_iff.1 hfield
  obtain ⟨v, hv, rfl⟩ := Option.map_eq_some_iff.1 hvalue
  exact Value.normalized_of? hv

theorem normalized_finalLocalValues : ∀ entry ∈ tables.finalLocalValues, entry.2.Normalized := by
  intro entry hentry
  obtain ⟨x, -, hx⟩ := List.mem_filterMap.1 hentry
  obtain ⟨v, hv, rfl⟩ := Option.map_eq_some_iff.1 hx
  exact Value.normalized_of? hv

end Tables

namespace Setting

variable {st : Setting}

theorem normalized_declaredFieldValue {m : Method} {d : FieldDeclaration} {v : Value}
    (h : st.declaredFieldValue? m d = some v) : v.Normalized := by
  rw [declaredFieldValue?] at h
  split at h
  · cases h
  · next declared hdeclared =>
    split at h
    · obtain ⟨entry, -, rfl⟩ := Option.map_eq_some_iff.1 h
      exact Value.normalized_lub _ _
    · cases h
      obtain ⟨entry, -, hentry⟩ := Option.bind_eq_some_iff.1 hdeclared
      exact Value.normalized_of? hentry

variable {s : Store} (h : s.Below s)

include h

theorem addParameters_below (parameters : List Variable) :
    (st.addParameters parameters s).Below (st.addParameters parameters s) := by
  refine List.foldlRecOn (motive := fun s : Store => s.Below s) parameters _ h fun s hs x _ => ?_
  cases hv : st.tables.valueOfVariable x with
  | none => exact hs
  | some v =>
    exact hs.put (.localVariable x) (Value.knownBelow_self fun a ha =>
      Option.some.inj ha ▸ Tables.normalized_valueOfVariable hv)

theorem addInitializers_below (cls : ClassInfo) (m : Method) :
    (st.addInitializers cls m s).Below (st.addInitializers cls m s) := by
  refine List.foldlRecOn (motive := fun s : Store => s.Below s) _ _ h fun s hs entry hentry => ?_
  split
  · exact hs.insert _ (Tables.normalized_initializerValues entry hentry)
  · exact hs

theorem addDeclaredFields_below (cls : ClassInfo) (m : Method) :
    (st.addDeclaredFields cls m s).Below (st.addDeclaredFields cls m s) := by
  rw [addDeclaredFields]
  split
  · exact h
  · refine List.foldlRecOn (motive := fun s : Store => s.Below s) _ _ h fun s hs d _ => ?_
    cases hv : st.declaredFieldValue? m d with
    | none => exact hs
    | some v => exact hs.refine _ (normalized_declaredFieldValue hv)

theorem addFinalLocals_below (element : ElementId) :
    (st.addFinalLocals element s).Below (st.addFinalLocals element s) := by
  refine List.foldlRecOn (motive := fun s : Store => s.Below s) _ _ h fun s hs entry hentry => ?_
  cases entry.1.declaredIn with
  | none => exact hs
  | some owner =>
    dsimp only
    split
    · exact hs.insert _ (Tables.normalized_finalLocalValues entry hentry)
    · exact hs

omit h in
/-- The entry store of a method is one of a monotone run, if the store from which it is built is
and the entry store knows of no monotonic final fields. -/
theorem methodStore_sound {fixed : Option Store}
    (hfixed : ∀ s, fixed = some s → s.WellFormed st.tables s.sequential ∧ s.Below s) {m : Method}
    {cls : ClassInfo} {parameters : List Variable}
    (hfinals : (st.methodStore fixed m cls parameters).FinalsNotMonotonic st.tables) :
    (st.methodStore fixed m cls parameters).Sound st.tables
      (st.methodStore fixed m cls parameters).sequential := by
  have hbase : (st.fixedOrEmpty fixed).WellFormed st.tables (st.fixedOrEmpty fixed).sequential ∧
      (st.fixedOrEmpty fixed).Below (st.fixedOrEmpty fixed) := by
    cases fixed with
    | none => exact ⟨Store.wellFormed_empty _ _, Store.below_empty _⟩
    | some s => exact hfixed s rfl
  have hwell : (st.methodStore fixed m cls parameters).WellFormed st.tables
      (st.fixedOrEmpty fixed).sequential := by
    have hentry : st.entryStore fixed (.method m ⟨0⟩ cls) parameters =
        .ok (st.methodStore fixed m cls parameters,
          st.observe (some ⟨0⟩) m.id (st.overriddenObservations m)) := rfl
    exact entryStore_preserves (Store.closed_wellFormed st.tables _) hbase.1 hentry
  have hparameters : (st.addParameters parameters (st.fixedOrEmpty fixed)).Below
      (st.addParameters parameters (st.fixedOrEmpty fixed)) :=
    addParameters_below hbase.2 parameters
  have hcontracts : ∀ fact ∈ st.contractFacts (.ofDeclaration m parameters)
      (st.contractsAt m .precondition), fact.2.Normalized := normalized_contractFacts
  refine ⟨hwell.semantics ▸ hwell, ?_, hfinals⟩
  exact addFinalLocals_below
    (addDeclaredFields_below (addInitializers_below (hparameters.refineAll hcontracts) cls m) cls m)
    m.id

end Setting

end FlowTyping
