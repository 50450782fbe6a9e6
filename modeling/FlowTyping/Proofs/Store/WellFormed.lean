import FlowTyping.Proofs.Store.Operation
import FlowTyping.Proofs.Tables.Monotonic
import FlowTyping.Store.Listing

/-!
# Well-formed stores

The representation invariant of stores. Facts are about locals, fields, array elements, calls and
class names whose identity is tracked; `this` is one slot. Looking up and listing agree. Under
concurrent semantics there are no facts about array elements and calls, and those about fields
are out of reach of other code or about fields with a monotonic qualifier. Every operation
preserves the invariant, whatever the other store of a join.
-/

namespace FlowTyping

/-- The kinds of receivers about which a store keeps facts, besides `this`. -/
inductive Partition where
  | localVariables
  | fields
  | arrays
  | calls
  | classNames
deriving DecidableEq

/-- The kind of a receiver about which a store may keep facts. -/
def Receiver.partition? : Receiver → Option Partition
  | localVariable _ => some .localVariables
  | field _ _ => some .fields
  | array _ _ _ => some .arrays
  | call _ _ _ _ => some .calls
  | className _ => some .classNames
  | this _ => none
  | literal _ _ => none
  | unknown _ => none

/-- Whether a store keeps the fact about a receiver when other threads run: never one about an
array element or a call, and one about a field only if no other code can assign it or the field
has a monotonic qualifier. -/
def Receiver.KeptConcurrently (t : Tables) : Receiver → Prop
  | field base f => (field base f).isUnassignable = true ∨ ∃ q, t.IsMonotonicTarget f q
  | array _ _ _ => False
  | call _ _ _ _ => False
  | _ => True

namespace Store

/-- The representation invariant of a store with the given semantics. -/
structure WellFormed (t : Tables) (sequential : Bool) (s : Store) : Prop where
  semantics : s.sequential = sequential
  partitioned : ∀ r v, s.facts.get? r = some v → r.partition?.isSome = true
  insertable : ∀ r v, s.facts.get? r = some v → r.isInsertable = true
  /-- What is known of a receiver is what the listing shows for its slot. -/
  listed : ∀ r v, s.value? r = some v ↔ ∃ r', SameSlot r r' ∧ (r', v) ∈ s.entries
  /-- The listing shows each slot once. -/
  once : s.entries.Pairwise fun e e' => ¬SameSlot e.1 e'.1
  concurrent : sequential = false → ∀ r v, s.facts.get? r = some v → r.KeptConcurrently t

/-- Whether a fact about the receiver may stand in a well-formed store, beside `this`. -/
def Key (t : Tables) (sequential : Bool) (r : Receiver) : Prop :=
  r.partition?.isSome = true ∧ r.isInsertable = true ∧
    (sequential = false → r.KeptConcurrently t)

variable {t : Tables} {sequential : Bool} {s : Store}

private theorem ne_this_of_partition? {r : Receiver} (h : r.partition?.isSome = true) (ty : Ty) :
    r ≠ .this ty := by
  rintro rfl
  cases h

theorem mem_entries {r : Receiver} {v : Value} : (r, v) ∈ s.entries ↔
    (∃ w, s.thisValue = some w ∧ r = .this w.ty ∧ v = w) ∨ s.facts.get? r = some v := by
  rw [entries]
  cases s.thisValue with
  | none => simp only [FinMap.mem_entries, reduceCtorEq, false_and, exists_false, false_or]
  | some w => simp only [List.mem_cons, Prod.mk.injEq, FinMap.mem_entries, Option.some.injEq,
      exists_eq_left']

theorem value?_eq_some_iff_mem_entries
    (h : ∀ r v, s.facts.get? r = some v → r.partition?.isSome = true) (r : Receiver) (v : Value) :
    s.value? r = some v ↔ ∃ r', SameSlot r r' ∧ (r', v) ∈ s.entries := by
  by_cases hthis : ∃ ty, r = .this ty
  · obtain ⟨ty, rfl⟩ := hthis
    constructor
    · intro hv
      exact ⟨.this v.ty, trivial, mem_entries.2 (Or.inl ⟨v, hv, rfl, rfl⟩)⟩
    · rintro ⟨r', hslot, hmem⟩
      rcases mem_entries.1 hmem with ⟨w, hw, -, rfl⟩ | hfact
      · exact hw
      · cases r'
        case this ty' => cases h _ v hfact
        all_goals cases hslot
  · have hne : ∀ ty, r ≠ .this ty := fun ty he => hthis ⟨ty, he⟩
    have hslot : ∀ r', SameSlot r r' ↔ r = r' := by
      intro r'
      cases r
      case this ty => exact absurd rfl (hne ty)
      all_goals rfl
    have hvalue : s.value? r = s.facts.get? r := by
      cases r
      case this ty => exact absurd rfl (hne ty)
      all_goals rfl
    rw [hvalue]
    constructor
    · exact fun hv => ⟨r, (hslot r).2 rfl, mem_entries.2 (Or.inr hv)⟩
    · rintro ⟨r', hr', hmem⟩
      obtain rfl := (hslot r').1 hr'
      exact (mem_entries.1 hmem).resolve_left fun ⟨w, _, hr, _⟩ => hne w.ty hr

/-- The listing shows no slot twice when no fact besides `this` is about `this`. -/
theorem pairwise_entries
    (h : ∀ r v, s.facts.get? r = some v → r.partition?.isSome = true) :
    s.entries.Pairwise fun e e' => ¬SameSlot e.1 e'.1 := by
  have hfacts : s.facts.entries.Pairwise fun e e' => ¬SameSlot e.1 e'.1 := by
    refine (List.pairwise_map.1 s.facts.nodup).imp_of_mem fun {e e'} _ he' hne hslot => hne ?_
    exact (sameSlot_iff_eq e.1 (ne_this_of_partition? (h e'.1 e'.2 (FinMap.mem_entries.1 he')))).1
      hslot
  rw [entries]
  cases s.thisValue with
  | none => exact hfacts
  | some v =>
    refine List.Pairwise.cons (fun e he hslot => ?_) hfacts
    have hkey := ne_this_of_partition? (h e.1 e.2 (FinMap.mem_entries.1 he))
    exact hkey v.ty ((sameSlot_iff_eq _ hkey).1 hslot).symm

theorem wellFormed_iff : s.WellFormed t sequential ↔
    s.sequential = sequential ∧ s.Every fun r _ => Key t sequential r := by
  constructor
  · intro h
    exact ⟨h.semantics, fun r v hv =>
      ⟨h.partitioned r v hv, h.insertable r v hv, fun hc => h.concurrent hc r v hv⟩⟩
  · rintro ⟨hsemantics, hkeys⟩
    have hpartitioned : ∀ r v, s.facts.get? r = some v → r.partition?.isSome = true :=
      fun r v hv => (hkeys r v hv).1
    exact ⟨hsemantics, hpartitioned, fun r v hv => (hkeys r v hv).2.1,
      value?_eq_some_iff_mem_entries hpartitioned, pairwise_entries hpartitioned,
      fun hc r v hv => (hkeys r v hv).2.2 hc⟩

theorem wellFormed_empty (t : Tables) (sequential : Bool) :
    (empty sequential).WellFormed t sequential :=
  wellFormed_iff.2 ⟨rfl, every_empty _ _⟩

theorem robust_key (t : Tables) (sequential : Bool) :
    Robust t.oracle sequential fun r _ => Key t sequential r where
  tracked r _ hthis htracks := by
    cases r with
    | localVariable x => exact ⟨rfl, rfl, fun _ => trivial⟩
    | className ty => exact ⟨rfl, rfl, fun _ => trivial⟩
    | field base f =>
      simp only [tracks, empty, Bool.and_eq_true, Bool.or_eq_true] at htracks
      exact ⟨rfl, htracks.1, fun hc => Or.inl (htracks.2.resolve_left (by simp [hc]))⟩
    | array ty base index =>
      simp only [tracks, empty, Bool.and_eq_true] at htracks
      exact ⟨rfl, htracks.1, fun hc => by simp [hc] at htracks⟩
    | call ty m base arguments =>
      simp only [tracks, empty, Bool.and_eq_true] at htracks
      exact ⟨rfl, htracks.1, fun hc => by simp [hc] at htracks⟩
    | this ty => exact absurd rfl (hthis ty)
    | literal ty value => cases htracks
    | unknown ty => cases htracks
  lub _ _ _ h := h
  retained _ _ _ _ h _ := h

theorem closed_wellFormed (t : Tables) (sequential : Bool) :
    Closed t.oracle fun s => s.WellFormed t sequential := by
  intro s op h
  obtain ⟨rfl, hkeys⟩ := wellFormed_iff.1 h
  refine wellFormed_iff.2 ⟨sequential_apply s t.oracle op, hkeys.apply (robust_key t _) ?_⟩
  -- Only a write of a monotonic field records what a store does not track.
  cases op with
  | assign target value =>
    cases target with
    | field base f =>
      cases value with
      | none => trivial
      | some v =>
        intro hmono hknown
        obtain ⟨q, hq⟩ := Option.isSome_iff_exists.1 hmono
        have htarget : t.IsMonotonicTarget f q := (Tables.reachedTarget?_eq_some.1 hq).1
        exact ⟨rfl, by simp [Receiver.isInsertable, hknown], fun _ => Or.inr ⟨q, htarget⟩⟩
    | _ => trivial
  | mapFields f => exact fun _ _ _ _ hkey _ => hkey
  | _ => trivial

end Store

end FlowTyping
