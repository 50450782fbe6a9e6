import FlowTyping.Proofs.Store.Operation
import FlowTyping.Proofs.Store.Precision
import FlowTyping.Proofs.Tables.Monotonic
import FlowTyping.Proofs.Value.Rank

/-!
# Operations and joins

Which slot of a store an operation changes does not depend on what is known, and what becomes of
a slot depends on that slot only. So an operation distributes over joins as soon as what it makes
of single values does. The one rule for values that does not distribute is that a call keeps all
that is known of a final field until a monotonic target is reached, and only the target from then
on; hence the condition on final fields.
-/

namespace FlowTyping

/-- The slot of a store for facts about a receiver; nothing stands for the one of `this`. -/
def Receiver.slot : Receiver → Option Receiver
  | this _ => none
  | r => some r

namespace Store

def known (s : Store) : Option Receiver → Option Value
  | none => s.thisValue
  | some r => s.facts.get? r

/-- What a change of facts makes of the value in a slot; that of `this` is left alone. -/
def onSlot (f : Receiver → Value → Option Value) : Option Receiver → Value → Option Value
  | none, v => some v
  | some r, v => f r v

section Slots

variable {s t : Store} {slot : Option Receiver}

theorem value?_eq_known (s : Store) (r : Receiver) : s.value? r = s.known r.slot := by
  cases r <;> rfl

theorem known_put (s : Store) (r : Receiver) (v : Option Value) (slot : Option Receiver) :
    (s.put r v).known slot = if slot = r.slot then v else s.known slot := by
  cases r <;> cases slot <;> simp [put, known, Receiver.slot]

theorem known_mapFacts (s : Store) (f : Receiver → Value → Option Value)
    (slot : Option Receiver) : (s.mapFacts f).known slot = (s.known slot).bind (onSlot f slot) := by
  cases slot with
  | none => cases hthis : s.thisValue <;> simp [mapFacts, known, onSlot, hthis]
  | some r => exact FinMap.get?_filterMap f s.facts r

theorem known_retain (s : Store) (keep : Receiver → Bool) (slot : Option Receiver) :
    (s.retain keep).known slot =
      (s.known slot).bind (onSlot (fun r v => if keep r then some v else none) slot) :=
  known_mapFacts s _ slot

theorem known_lub (s t : Store) (slot : Option Receiver) :
    (s.lub t).known slot = Value.lub? (s.known slot) (t.known slot) := by
  cases slot with
  | none =>
    simp only [lub, upperBound, known]
    cases s.thisValue <;> cases t.thisValue <;> rfl
  | some r =>
    simp only [lub, upperBound, known, FinMap.merge, FinMap.get?_filterMap]
    cases s.facts.get? r <;> cases t.facts.get? r <;> rfl

theorem agrees_iff_known : s.agrees t = true ↔
    s.sequential = t.sequential ∧ ∀ slot, s.known slot = t.known slot := by
  rw [agrees_iff]
  constructor
  · rintro ⟨hflag, hthis, hfacts⟩
    refine ⟨hflag, fun slot => ?_⟩
    cases slot with
    | none => exact hthis
    | some r => exact hfacts r
  · rintro ⟨hflag, hslots⟩
    exact ⟨hflag, hslots none, fun r => hslots (some r)⟩

/-- Joining with a third store is like joining both sides with it. -/
theorem lub_lub_agrees (s t u : Store) :
    ((s.lub t).lub u).agrees ((s.lub u).lub (t.lub u)) = true := by
  refine agrees_iff_known.2 ⟨rfl, fun slot => ?_⟩
  simp only [known_lub]
  generalize s.known slot = a
  generalize t.known slot = b
  generalize u.known slot = c
  have htwice : Value.lub? (Value.lub? c c) a = Value.lub? c a := by
    cases c <;> cases a <;> simp [Value.lub?, Value.lub_self_lub]
  calc Value.lub? (Value.lub? a b) c
      = Value.lub? b (Value.lub? c a) := by
        rw [Value.lub?_comm a b, Value.lub?_assoc, Value.lub?_comm a c]
    _ = Value.lub? b (Value.lub? (Value.lub? c c) a) := by rw [htwice]
    _ = Value.lub? (Value.lub? a c) (Value.lub? b c) := by
        rw [Value.lub?_assoc c, ← Value.lub?_assoc b, Value.lub?_comm a c,
          Value.lub?_comm (Value.lub? c a)]

end Slots

/-! ### Changes that distribute over joins -/

/-- No final field of which something is known is declared with a monotonic qualifier. -/
def FinalsNotMonotonic (tables : Tables) (s : Store) : Prop :=
  ∀ base f, (s.value? (.field base f)).isSome → ¬tables.IsMonotonicFinal f

section Join

variable {s t u : Store} {oracle : StoreOracle}

/-- Writing a join to a join joins what is written on both sides. -/
theorem put_lub_agrees (hu : u.agrees (s.lub t) = true) (r : Receiver) (v w : Option Value) :
    (u.put r (Value.lub? v w)).agrees ((s.put r v).lub (t.put r w)) = true := by
  rw [agrees_iff_known] at hu ⊢
  refine ⟨by simpa using hu.1, fun slot => ?_⟩
  rw [known_put, known_lub, known_put, known_put]
  split
  · rfl
  · rw [hu.2, known_lub]

theorem put_same_lub_agrees (hu : u.agrees (s.lub t) = true) (r : Receiver) {v : Option Value}
    (hv : ∀ w, v = some w → w.Normalized) :
    (u.put r v).agrees ((s.put r v).lub (t.put r v)) = true := by
  have hput := put_lub_agrees hu r v v
  rwa [Value.lub?_self hv] at hput

/-- A change of facts distributes over the join if it does on each receiver that both sides know
something about. -/
theorem mapFacts_lub_agrees {f : Receiver → Value → Option Value}
    (h : ∀ r v w, s.facts.get? r = some v → t.facts.get? r = some w →
      f r (v.lub w) = Value.lub? (f r v) (f r w)) :
    ((s.lub t).mapFacts f).agrees ((s.mapFacts f).lub (t.mapFacts f)) = true := by
  refine agrees_iff_known.2 ⟨rfl, fun slot => ?_⟩
  rw [known_mapFacts, known_lub, known_lub, known_mapFacts, known_mapFacts]
  cases hs : s.known slot with
  | none => rfl
  | some v =>
    cases ht : t.known slot with
    | none => exact (Value.lub?_none _).symm
    | some w =>
      cases slot with
      | none => rfl
      | some r => exact h r v w hs ht

theorem retain_lub_agrees (s t : Store) (keep : Receiver → Bool) :
    ((s.lub t).retain keep).agrees ((s.retain keep).lub (t.retain keep)) = true := by
  refine mapFacts_lub_agrees fun r v w _ _ => ?_
  cases keep r <;> rfl

theorem tracks_congr (h : s.sequential = t.sequential) (r : Receiver) :
    s.tracks r = t.tracks r := by
  simp only [tracks, h]

theorem insert_lub_agrees (hu : u.agrees (s.lub t) = true) (hflag : s.sequential = t.sequential)
    (r : Receiver) {v : Value} (hv : v.Normalized) :
    (u.insert r v).agrees ((s.insert r v).lub (t.insert r v)) = true := by
  have hus : u.sequential = s.sequential := (agrees_iff.1 hu).1
  rw [insert, insert, insert, tracks_congr hus r, ← tracks_congr hflag r]
  split
  · exact put_same_lub_agrees hu r fun w hw => Option.some.inj hw ▸ hv
  · exact hu

theorem refine_eq (s : Store) (r : Receiver) (v : Value) :
    s.refine r v =
      if s.tracks r then s.put r (Value.moreSpecific? (some v) (s.value? r)) else s := by
  rw [refine]
  cases s.value? r <;> rfl

theorem refine_lub_agrees (hflag : s.sequential = t.sequential) (r : Receiver) {v : Value}
    (hv : v.Normalized) :
    ((s.lub t).refine r v).agrees ((s.refine r v).lub (t.refine r v)) = true := by
  have hjoin : (s.lub t).tracks r = s.tracks r := tracks_congr rfl r
  rw [refine_eq, refine_eq, refine_eq, hjoin, ← tracks_congr hflag r]
  split
  · have hfixed : ∀ w, some v = some w → w.Normalized := fun w hw => Option.some.inj hw ▸ hv
    rw [value?_lub, Value.moreSpecific?_lub? hfixed]
    exact put_lub_agrees (agrees_refl _) r _ _
  · exact agrees_refl _

theorem replace_lub_agrees (hu : u.agrees (s.lub t) = true) (hflag : s.sequential = t.sequential)
    (r : Receiver) {v : Option Value} (hv : ∀ w, v = some w → w.Normalized) :
    (u.replace r v).agrees ((s.replace r v).lub (t.replace r v)) = true := by
  have hclear : (u.clear r).agrees ((s.clear r).lub (t.clear r)) = true :=
    put_lub_agrees hu r none none
  cases v with
  | none => exact hclear
  | some v =>
    have hflag' : (s.clear r).sequential = (t.clear r).sequential := by simpa [clear] using hflag
    exact insert_lub_agrees hclear hflag' r (hv v rfl)

/-! ### Writes and calls -/

/-- A weakened fact takes the written value in once, however many facts are joined. -/
theorem afterFieldWrite_lub (oracle : StoreOracle) (base : Receiver) (f : Field)
    (value : Option Value) (key : Receiver) (v w : Value) :
    afterFieldWrite oracle base f value key (v.lub w) =
      Value.lub? (afterFieldWrite oracle base f value key v)
        (afterFieldWrite oracle base f value key w) := by
  by_cases hkey : ∃ base' f', key = .field base' f'
  · obtain ⟨base', f', rfl⟩ := hkey
    simp only [afterFieldWrite]
    split
    · rfl
    · split
      · cases value with
        | none => rfl
        | some a =>
          have htwice : (a.lub v).lub (a.lub w) = a.lub (v.lub w) := by
            rw [Value.lub_assoc, ← Value.lub_assoc v, Value.lub_comm v a, Value.lub_assoc a v,
              ← Value.lub_assoc a a, Value.lub_self_lub]
          exact congrArg some htwice.symm
      · rfl
  · have hne : ∀ base' f', key ≠ .field base' f' := fun base' f' he => hkey ⟨base', f', he⟩
    simp only [afterFieldWrite_of_ne hne]
    split <;> rfl

theorem keptByWrite_lub_agrees (s t : Store) (oracle : StoreOracle) (target : Receiver)
    (value : Option Value) :
    ((s.lub t).keptByWrite oracle target value).agrees
      ((s.keptByWrite oracle target value).lub (t.keptByWrite oracle target value)) = true := by
  cases target
  case field base f =>
    exact mapFacts_lub_agrees fun r v w _ _ => afterFieldWrite_lub oracle base f value r v w
  all_goals exact retain_lub_agrees _ _ _

theorem records_congr (h : s.sequential = t.sequential) (oracle : StoreOracle)
    (target : Receiver) (value : Option Value) :
    s.records oracle target value = t.records oracle target value := by
  cases value <;> simp only [records, h]

theorem assign_lub_agrees (hflag : s.sequential = t.sequential) (oracle : StoreOracle)
    (target : Receiver) {value : Option Value} (hvalue : ∀ w, value = some w → w.Normalized) :
    ((s.lub t).assign oracle target value).agrees
      ((s.assign oracle target value).lub (t.assign oracle target value)) = true := by
  by_cases hlocal : ∃ x, target = .localVariable x
  · obtain ⟨x, rfl⟩ := hlocal
    exact put_same_lub_agrees (retain_lub_agrees s t _) _ hvalue
  · cases hheap : target.isHeapLocation with
    | false =>
      have hne : ∀ x, target ≠ .localVariable x := fun x he => hlocal ⟨x, he⟩
      rw [assign_of_untracked hne hheap, assign_of_untracked hne hheap,
        assign_of_untracked hne hheap]
      exact retain_lub_agrees s t _
    | true =>
      have hkept := keptByWrite_lub_agrees s t oracle target value
      have hjoin : (s.lub t).records oracle target value = s.records oracle target value :=
        records_congr rfl oracle target value
      rw [assign_heapLocation hheap, assign_heapLocation hheap, assign_heapLocation hheap, hjoin,
        ← records_congr hflag oracle target value]
      split
      · exact put_same_lub_agrees hkept target hvalue
      · exact hkept

/-- What a call leaves of a fact. A monotonic field is not final, so of its value only the target
can be left; any other field is kept or dropped by its receiver. -/
theorem afterCall_lub {tables : Tables} {key : Receiver}
    (hkey : ∀ base f, key = .field base f → ¬tables.IsMonotonicFinal f) (v w : Value) :
    afterCall tables.oracle key (v.lub w) =
      Value.lub? (afterCall tables.oracle key v) (afterCall tables.oracle key w) := by
  cases key with
  | field base f =>
    by_cases htarget : tables.IsMonotonicTarget f .nonNull
    · have hassignable : (Receiver.field base f).isUnassignable = false := by
        have hfinal : f.isFinal = false :=
          Bool.eq_false_iff.2 fun hfinal => hkey base f rfl ⟨hfinal, _, htarget⟩
        simp [Receiver.isUnassignable, hfinal]
      have hafter : ∀ a : Value, afterCall tables.oracle (.field base f) a =
          if a.has .nonNull then some (.of a.ty [.nonNull]) else none := by
        intro a
        have hretained : tables.oracle.monotonicRetained f a = _ :=
          Tables.monotonicRetained_of_target htarget
        rw [afterCall, hretained, hassignable]
        cases a.has .nonNull <;> rfl
      have hjoin := Value.has_nonNull_lub v w
      rw [hafter, hafter, hafter]
      by_cases hv : v.has .nonNull = true
      · by_cases hw : w.has .nonNull = true
        · rw [if_pos hv, if_pos hw, if_pos (hjoin.2 ⟨hv, hw⟩)]
          exact congrArg some (Value.of_nonNull_lub v.ty w.ty)
        · rw [if_pos hv, if_neg hw, if_neg fun h => hw (hjoin.1 h).2]
          rfl
      · rw [if_neg hv, if_neg fun h => hv (hjoin.1 h).1]
        rfl
    · have hnone : ∀ q, ¬tables.IsMonotonicTarget f q :=
        fun q hq => htarget (hq.eq_nonNull ▸ hq)
      have hretained : ∀ a, tables.oracle.monotonicRetained f a = none :=
        fun a => Tables.monotonicRetained_of_no_target hnone
      simp only [afterCall, hretained]
      split <;> rfl
  | array ty base index => rfl
  | call ty m base arguments => rfl
  | localVariable x => rfl
  | this ty => rfl
  | className ty => rfl
  | literal ty value => rfl
  | unknown ty => rfl

theorem afterMethodCall_lub_agrees {tables : Tables} (hfinal : s.FinalsNotMonotonic tables)
    (hflag : s.sequential = t.sequential) (call : Receiver) (sideEffectFree : Bool)
    {result : Option Value} (hresult : ∀ w, result = some w → w.Normalized) :
    ((s.lub t).afterMethodCall tables.oracle call sideEffectFree result).agrees
      ((s.afterMethodCall tables.oracle call sideEffectFree result).lub
        (t.afterMethodCall tables.oracle call sideEffectFree result)) = true := by
  have hkept : ((s.lub t).mapFacts (afterCall tables.oracle)).agrees
      ((s.mapFacts (afterCall tables.oracle)).lub (t.mapFacts (afterCall tables.oracle))) =
        true := by
    refine mapFacts_lub_agrees fun r v w hv _ => ?_
    refine afterCall_lub (fun base f hr => ?_) v w
    rw [hr] at hv
    exact hfinal base f (Option.isSome_iff_exists.2 ⟨v, hv⟩)
  cases sideEffectFree with
  | true => exact replace_lub_agrees (agrees_refl _) hflag call hresult
  | false => exact replace_lub_agrees hkept hflag call hresult

end Join

end Store

/-- The values that an operation brings along are normalized, and a change of field facts
distributes over joins itself. -/
def StoreOp.Distributes : StoreOp → Prop
  | insert _ v => v.Normalized
  | refine _ v => v.Normalized
  | replace _ v => ∀ w, v = some w → w.Normalized
  | setParameter _ v => ∀ w, v = some w → w.Normalized
  | setThis v => ∀ w, v = some w → w.Normalized
  | assign _ v => ∀ w, v = some w → w.Normalized
  | call _ _ v => ∀ w, v = some w → w.Normalized
  | mapFields f => ∀ r v w, f r (v.lub w) = Value.lub? (f r v) (f r w)
  | _ => True

/-- Joining two stores before or after an operation gives the same facts, if no final field that is
known of is monotonic. -/
theorem StoreOp.apply_lub_agrees {tables : Tables} {s t : Store} {op : StoreOp}
    (hop : op.Distributes) (hfinal : s.FinalsNotMonotonic tables)
    (hflag : s.sequential = t.sequential) :
    (op.apply tables.oracle (s.lub t)).agrees
      ((op.apply tables.oracle s).lub (op.apply tables.oracle t)) = true := by
  have hrefl := (s.lub t).agrees_refl
  cases op with
  | insert r v => exact Store.insert_lub_agrees hrefl hflag r hop
  | refine r v => exact Store.refine_lub_agrees hflag r hop
  | clear r => exact Store.put_lub_agrees hrefl r none none
  | replace r v => exact Store.replace_lub_agrees hrefl hflag r hop
  | setParameter x v =>
    cases v with
    | none => exact hrefl
    | some v => exact Store.put_same_lub_agrees hrefl _ hop
  | setThis v =>
    cases v with
    | none => exact hrefl
    | some v => exact Store.put_same_lub_agrees hrefl (.this v.ty) hop
  | assign target value => exact Store.assign_lub_agrees hflag tables.oracle target hop
  | call r sideEffectFree result =>
    exact Store.afterMethodCall_lub_agrees hfinal hflag r sideEffectFree hop
  | lub other => exact Store.lub_lub_agrees s t other
  | widen previous => exact Store.lub_lub_agrees s t previous
  | withoutTransient => exact Store.retain_lub_agrees s t _
  | mapFields f =>
    refine Store.mapFacts_lub_agrees fun r v w _ _ => ?_
    cases r with
    | field base g => exact hop (.field base g) v w
    | _ => rfl

namespace MonotonicField

private def interned : Store :=
  (Store.empty true).put thisValue (some (.of value.ty [.nonNull, .interned]))

private def notNull : Store := (Store.empty true).put thisValue (some (.of value.ty [.nonNull]))

private def unknownCall : StoreOp := .call (.unknown .void) false none

/-- On the first side the call drops what else is known of the monotonic field. -/
theorem unknownCall_lub_agrees :
    unknownCall.Distributes ∧ interned.FinalsNotMonotonic tables ∧
    interned.sequential = notNull.sequential ∧
    (unknownCall.apply tables.oracle interned).value? thisValue =
      some (.of value.ty [.nonNull]) ∧
    (unknownCall.apply tables.oracle (interned.lub notNull)).agrees
      ((unknownCall.apply tables.oracle interned).lub
        (unknownCall.apply tables.oracle notNull)) = true := by
  have hop : unknownCall.Distributes := fun w hw => by cases hw
  have hfinal : interned.FinalsNotMonotonic tables := by
    rintro base f hknown ⟨hfinal, -⟩
    rw [interned, Store.value?_put] at hknown
    split at hknown
    · next hslot =>
      -- The one field of which something is known is not final.
      obtain ⟨-, rfl⟩ := Receiver.field.inj (show Receiver.field base f = thisValue from hslot)
      cases hfinal
    · rw [Store.value?_empty] at hknown
      cases hknown
  exact ⟨hop, hfinal, rfl, by decide, StoreOp.apply_lub_agrees hop hfinal rfl⟩

end MonotonicField

end FlowTyping
