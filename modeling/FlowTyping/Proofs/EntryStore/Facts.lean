import FlowTyping.EntryStore
import FlowTyping.Proofs.Store.Distribute

/-!
# The facts of an entry store

The entry store of a method starts from its parameters. Then lists of facts are recorded, in this
order: preconditions, initial values of fields, declared values of fields, captured locals.
Preconditions and declared values refine what is known; initial values and captured locals replace
it, so that the last one recorded for a receiver is what counts: `Setting.methodStore_eq`.
-/

namespace FlowTyping

namespace Store

variable {s : Store} {facts : List (Receiver × Value)} {r r' : Receiver}

theorem sameSlot_self (r : Receiver) : SameSlot r r := by
  cases r <;> trivial

theorem value?_of_sameSlot (h : SameSlot r r') (s : Store) : s.value? r = s.value? r' := by
  cases r <;> cases r' <;> first | rfl | (cases h; rfl) | cases h

theorem tracks_of_sameSlot (h : SameSlot r r') (s : Store) : s.tracks r = s.tracks r' := by
  cases r <;> cases r' <;> first | rfl | (cases h; rfl) | cases h

@[simp] theorem sequential_refine (s : Store) (r : Receiver) (v : Value) :
    (s.refine r v).sequential = s.sequential := by
  rw [refine]
  split <;> simp

theorem value?_insert (s : Store) (r : Receiver) (v : Value) (r' : Receiver) :
    (s.insert r v).value? r' =
      if SameSlot r' r ∧ s.tracks r = true then some v else s.value? r' := by
  rw [insert]
  by_cases ht : s.tracks r = true
  · rw [if_pos ht, value?_put]
    simp [ht]
  · simp [ht]

theorem value?_refine (s : Store) (r : Receiver) (v : Value) (r' : Receiver) :
    (s.refine r v).value? r' =
      if SameSlot r' r ∧ s.tracks r = true then Value.moreSpecific? (some v) (s.value? r')
      else s.value? r' := by
  rw [refine_eq]
  by_cases ht : s.tracks r = true
  · rw [if_pos ht, value?_put]
    by_cases hslot : SameSlot r' r
    · rw [if_pos hslot, if_pos ⟨hslot, ht⟩, value?_of_sameSlot hslot s]
    · rw [if_neg hslot, if_neg fun hboth => hslot hboth.1]
  · rw [if_neg ht, if_neg fun hboth => ht hboth.2]

/-! ### Recording one fact after the other -/

def insertFacts (s : Store) (facts : List (Receiver × Value)) : Store :=
  facts.foldl (fun s fact => s.insert fact.1 fact.2) s

def lastValue? (facts : List (Receiver × Value)) (r : Receiver) : Option Value :=
  (facts.reverse.find? fun fact => SameSlot r fact.1).map (·.2)

@[simp] theorem sequential_insertFacts (s : Store) (facts : List (Receiver × Value)) :
    (s.insertFacts facts).sequential = s.sequential := by
  induction facts generalizing s with
  | nil => rfl
  | cons fact facts ih => exact (ih _).trans (sequential_insert s fact.1 fact.2)

@[simp] theorem sequential_refineAll (s : Store) (facts : List (Receiver × Value)) :
    (Setting.refineAll s facts).sequential = s.sequential := by
  induction facts generalizing s with
  | nil => rfl
  | cons fact facts ih => exact (ih _).trans (sequential_refine s fact.1 fact.2)

theorem lastValue?_append (facts facts' : List (Receiver × Value)) (r : Receiver) :
    lastValue? (facts ++ facts') r = (lastValue? facts' r).or (lastValue? facts r) := by
  rw [lastValue?, List.reverse_append, List.find?_append, Option.map_or]
  rfl

theorem lastValue?_eq_none : lastValue? facts r = none ↔ ∀ fact ∈ facts, ¬SameSlot r fact.1 := by
  simp [lastValue?]

/-- A tracked receiver has the last value that is recorded for it; of others nothing is recorded. -/
theorem value?_insertFacts (s : Store) (facts : List (Receiver × Value)) (r : Receiver) :
    (s.insertFacts facts).value? r =
      if s.tracks r then (lastValue? facts r).or (s.value? r) else s.value? r := by
  induction facts generalizing s with
  | nil => simp [insertFacts, lastValue?]
  | cons fact facts ih =>
    have hlast : lastValue? (fact :: facts) r =
        (lastValue? facts r).or (lastValue? [fact] r) := lastValue?_append [fact] facts r
    rw [insertFacts, List.foldl_cons, ← insertFacts, ih,
      tracks_congr (sequential_insert s fact.1 fact.2), value?_insert, hlast, Option.or_assoc]
    by_cases hslot : SameSlot r fact.1
    · have htracks := tracks_of_sameSlot hslot s
      cases ht : s.tracks r <;> simp [lastValue?, hslot, htracks ▸ ht]
    · simp [lastValue?, hslot]

theorem value?_refineAll_of_ne (h : ∀ fact ∈ facts, ¬SameSlot r fact.1) (s : Store) :
    (Setting.refineAll s facts).value? r = s.value? r := by
  induction facts generalizing s with
  | nil => rfl
  | cons fact facts ih =>
    refine (ih (fun f hf => h f (List.mem_cons_of_mem _ hf)) _).trans ?_
    rw [value?_refine, if_neg fun hboth => h fact List.mem_cons_self hboth.1]

theorem isSome_value?_refineAll (s : Store) (facts : List (Receiver × Value)) (r : Receiver) :
    ((Setting.refineAll s facts).value? r).isSome ↔
      (s.value? r).isSome ∨ s.tracks r = true ∧ ∃ fact ∈ facts, SameSlot r fact.1 := by
  induction facts generalizing s with
  | nil => simp [Setting.refineAll]
  | cons fact facts ih =>
    rw [Setting.refineAll, List.foldl_cons, ← Setting.refineAll, ih,
      tracks_congr (sequential_refine s fact.1 fact.2), value?_refine]
    by_cases hslot : SameSlot r fact.1
    · have htracks := tracks_of_sameSlot hslot s
      cases ht : s.tracks r
      · simp [htracks ▸ ht]
      · cases s.value? r <;> simp [hslot, htracks ▸ ht, Value.moreSpecific?]
    · simp [hslot]

end Store

namespace Setting

variable (st : Setting)

def initialFacts (cls : ClassInfo) (m : Method) : List (Receiver × Value) :=
  (st.tables.initializerValues.filter fun entry => entry.1.isFinal || m.isConstructor).map
    fun entry => (.implicitField entry.1 cls.ty, entry.2)

def declaredFacts (cls : ClassInfo) (m : Method) : List (Receiver × Value) :=
  cls.fields.filterMap fun d =>
    (st.declaredFieldValue? m d).map fun v => (.implicitField d.field cls.ty, v)

/-- The values of the captured locals that are declared around an element. -/
def capturedFacts (element : ElementId) : List (Receiver × Value) :=
  (st.tables.finalLocalValues.filter fun entry =>
    entry.1.declaredIn.any (· ∈ st.tables.enclosingChain element)).map
      fun entry => (.localVariable entry.1, entry.2)

variable {st}

theorem addInitializers_eq (cls : ClassInfo) (m : Method) (s : Store) :
    st.addInitializers cls m s = s.insertFacts (st.initialFacts cls m) := by
  rw [addInitializers, Store.insertFacts, initialFacts, List.foldl_map, List.foldl_filter]

/-- The test whether `this` is only partly initialized never keeps declared values out: it holds in
constructors only, and those are exempt. -/
theorem addDeclaredFields_eq (cls : ClassInfo) (m : Method) (s : Store) :
    st.addDeclaredFields cls m s = refineAll s (st.declaredFacts cls m) := by
  have hguard : ¬(m.receiverMayBeUninitialized && !m.isConstructor) = true := by
    cases hm : m.isConstructor <;> simp [Method.receiverMayBeUninitialized, hm]
  rw [addDeclaredFields, if_neg hguard, refineAll, declaredFacts, List.foldl_filterMap]
  congr 1
  funext s d
  cases st.declaredFieldValue? m d <;> rfl

theorem addFinalLocals_eq (element : ElementId) (s : Store) :
    st.addFinalLocals element s = s.insertFacts (st.capturedFacts element) := by
  rw [addFinalLocals, Store.insertFacts, capturedFacts, List.foldl_map, List.foldl_filter]
  congr 1
  funext s entry
  cases entry.1.declaredIn <;> simp

/-- The store of a method when its parameters are in place and its preconditions are assumed. -/
def assumedStore (st : Setting) (fixed : Option Store) (m : Method) (parameters : List Variable) :
    Store :=
  st.assumePreconditions m parameters (st.addParameters parameters (st.fixedOrEmpty fixed))

theorem methodStore_eq (fixed : Option Store) (m : Method) (cls : ClassInfo)
    (parameters : List Variable) :
    st.methodStore fixed m cls parameters =
      (refineAll ((st.assumedStore fixed m parameters).insertFacts (st.initialFacts cls m))
        (st.declaredFacts cls m)).insertFacts (st.capturedFacts m.id) := by
  rw [methodStore, addFinalLocals_eq, addDeclaredFields_eq, addInitializers_eq]
  rfl

theorem sequential_methodStore (fixed : Option Store) (m : Method) (cls : ClassInfo)
    (parameters : List Variable) :
    (st.methodStore fixed m cls parameters).sequential =
      (st.assumedStore fixed m parameters).sequential := by
  simp [methodStore_eq]

theorem lastValue?_capturedFacts_field (element : ElementId) (base : Receiver) (f : Field) :
    Store.lastValue? (st.capturedFacts element) (.field base f) = none := by
  rw [Store.lastValue?_eq_none]
  intro fact hfact hslot
  obtain ⟨entry, -, rfl⟩ := List.mem_map.1 hfact
  cases hslot

end Setting

end FlowTyping
