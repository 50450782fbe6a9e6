import FlowTyping.Contract.Application
import FlowTyping.Proofs.Store.Distribute

/-!
# Monotone operations

An operation on a store that knows more leaves a store that knows more, also when the values that
it brings along are more precise. Where a less precise value is not recorded, the fact that stays
behind has to be weaker than the more precise one: a write weakens it, unless the written field
is final, and then both stores have to record.
-/

namespace FlowTyping

namespace Store

variable {s s' t t' : Store}

theorem below_iff : s.Below t ↔ s.sequential = t.sequential ∧
    ∀ r, Value.KnownBelow (s.value? r) (t.value? r) := by
  constructor
  · intro h
    exact ⟨h.sequential_eq, fun r => Value.knownBelow_iff.2 fun w hw => h.value r w hw⟩
  · rintro ⟨hflag, hvalues⟩
    exact ⟨hflag, fun r w hw => Value.knownBelow_iff.1 (hvalues r) w hw⟩

theorem Below.knownBelow (h : s.Below t) (r : Receiver) :
    Value.KnownBelow (s.value? r) (t.value? r) :=
  (below_iff.1 h).2 r

theorem value?_mapFacts (s : Store) (f : Receiver → Value → Option Value) (r : Receiver) :
    (s.mapFacts f).value? r = (s.value? r).bind (onSlot f r.slot) := by
  rw [value?_eq_known, known_mapFacts, ← value?_eq_known]

theorem value?_mapFacts_of_kept {f : Receiver → Value → Option Value} {r : Receiver}
    (hf : ∀ v, f r v = some v) (s : Store) : (s.mapFacts f).value? r = s.value? r := by
  rw [value?_mapFacts]
  cases s.value? r with
  | none => rfl
  | some v =>
    cases r
    case this ty => rfl
    all_goals exact hf v

theorem value?_retain_of_kept {keep : Receiver → Bool} {r : Receiver} (hr : keep r = true)
    (s : Store) : (s.retain keep).value? r = s.value? r :=
  value?_mapFacts_of_kept (fun _ => if_pos hr) s

theorem Below.put (h : s.Below t) (r : Receiver) {v w : Option Value}
    (hvw : Value.KnownBelow v w) : (s.put r v).Below (t.put r w) := by
  refine below_iff.2 ⟨by simpa using h.sequential_eq, fun r' => ?_⟩
  rw [value?_put, value?_put]
  split
  · exact hvw
  · exact h.knownBelow r'

/-- A value can be written to the first store only if it says more than what the second knows. -/
theorem Below.put_left (h : s.Below t) {r : Receiver} {v : Option Value}
    (hv : Value.KnownBelow v (t.value? r)) : (s.put r v).Below t := by
  refine below_iff.2 ⟨by simpa using h.sequential_eq, fun r' => ?_⟩
  rw [value?_put]
  split
  · next hslot =>
    have hsame : t.value? r' = t.value? r := by
      cases r' <;> cases r <;> simp_all [SameSlot, value?]
    rw [hsame]
    exact hv
  · exact h.knownBelow r'

theorem Below.mapFacts (h : s.Below t) {f f' : Receiver → Value → Option Value}
    (hf : ∀ r v w, r.slot = some r → t.value? r = some w → v.Below w →
      Value.KnownBelow (f r v) (f' r w)) : (s.mapFacts f).Below (t.mapFacts f') := by
  refine below_iff.2 ⟨h.sequential_eq, fun r => ?_⟩
  rw [value?_mapFacts, value?_mapFacts]
  cases hw : t.value? r with
  | none => exact Value.knownBelow_none _
  | some w =>
    obtain ⟨v, hv, hvw⟩ := h.value r w hw
    rw [hv]
    cases r
    case this ty => exact Value.KnownBelow.some hvw
    all_goals exact hf _ v w rfl hw hvw

theorem Below.retain (h : s.Below t) (keep : Receiver → Bool) :
    (s.retain keep).Below (t.retain keep) := by
  refine h.mapFacts fun r v w _ _ hvw => ?_
  cases keep r
  · exact Value.knownBelow_none _
  · exact Value.KnownBelow.some hvw

theorem Below.lub (hs : s.Below s') (ht : t.Below t') : (s.lub t).Below (s'.lub t') := by
  refine below_iff.2 ⟨hs.sequential_eq, fun r => ?_⟩
  rw [value?_lub, value?_lub]
  exact (hs.knownBelow r).lub? (ht.knownBelow r)

theorem Below.refine (h : s.Below t) (r : Receiver) {v : Value} (hv : v.Normalized) :
    (s.refine r v).Below (t.refine r v) := by
  rw [refine_eq, refine_eq, tracks_congr h.sequential_eq r]
  split
  · refine h.put r (Value.KnownBelow.moreSpecific? (fun w hw => ?_) (h.knownBelow r))
    exact Option.some.inj hw ▸ hv
  · exact h

/-- Refining by facts that do not depend on the store. -/
theorem Below.refineAll (h : s.Below t) {facts : List (Receiver × Value)}
    (hfacts : ∀ fact ∈ facts, fact.2.Normalized) :
    (Setting.refineAll s facts).Below (Setting.refineAll t facts) := by
  induction facts generalizing s t with
  | nil => exact h
  | cons fact facts ih =>
    have hrefine := h.refine fact.1 (hfacts fact List.mem_cons_self)
    exact ih hrefine fun other hother => hfacts other (List.mem_cons_of_mem _ hother)

theorem value?_replace (s : Store) (r : Receiver) (v : Option Value) (r' : Receiver) :
    (s.replace r v).value? r' =
      if SameSlot r' r then (if s.tracks r then v else none) else s.value? r' := by
  cases v with
  | none => rw [replace, clear, value?_put, ite_self]
  | some v =>
    have htracks : (s.clear r).tracks r = s.tracks r := tracks_congr (sequential_put s r none) r
    rw [replace, insert, htracks]
    split
    · rw [value?_put, clear, value?_put]
      split <;> rfl
    · rw [clear, value?_put]

theorem Below.replace (h : s.Below t) (r : Receiver) {v w : Option Value}
    (hvw : Value.KnownBelow v w) : (s.replace r v).Below (t.replace r w) := by
  refine below_iff.2 ⟨by simpa using h.sequential_eq, fun r' => ?_⟩
  rw [value?_replace, value?_replace, tracks_congr h.sequential_eq r]
  split
  · split
    · exact hvw
    · exact Value.knownBelow_none _
  · exact h.knownBelow r'

/-! ### Writes -/

section Assign

variable {tables : Tables} {target : Receiver} {v w : Option Value}

theorem isMonotonicUpdate_of_below {f : Field} {a b : Value} (h : a.Below b)
    (hb : tables.isMonotonicUpdate f b = true) : tables.isMonotonicUpdate f a = true := by
  rw [Tables.isMonotonicUpdate_iff] at hb ⊢
  exact ⟨hb.1, h.has_nonNull hb.2⟩

/-- A write that records a value records a more precise one too. -/
theorem records_of_knownBelow (hvw : Value.KnownBelow v w)
    (h : t.records tables.oracle target w = true) : t.records tables.oracle target v = true := by
  cases w with
  | none => cases h
  | some b =>
    obtain ⟨a, rfl, hab⟩ := Value.knownBelow_iff.1 hvw b rfl
    cases target with
    | field base f =>
      simp only [records, Bool.and_eq_true, Bool.or_eq_true] at h ⊢
      exact ⟨h.1.imp_left fun hgate => hgate.imp_right (isMonotonicUpdate_of_below hab), h.2⟩
    | _ => exact h

theorem Below.keptByWrite (h : s.Below t) (target : Receiver) (hvw : Value.KnownBelow v w) :
    (s.keptByWrite tables.oracle target v).Below (t.keptByWrite tables.oracle target w) := by
  cases target
  case field base f =>
    refine h.mapFacts fun key a b _ _ hab => ?_
    by_cases hkey : ∃ base' f', key = .field base' f'
    · obtain ⟨base', f', rfl⟩ := hkey
      simp only [afterFieldWrite]
      split
      · exact Value.knownBelow_none _
      · split
        · cases w with
          | none => exact Value.knownBelow_none _
          | some c =>
            obtain ⟨d, rfl, hdc⟩ := Value.knownBelow_iff.1 hvw c rfl
            exact Value.KnownBelow.some (hdc.lub hab)
        · exact Value.KnownBelow.some hab
    · have hne : ∀ base' f', key ≠ .field base' f' := fun base' f' he => hkey ⟨base', f', he⟩
      rw [afterFieldWrite_of_ne hne, afterFieldWrite_of_ne hne]
      split
      · exact Value.knownBelow_none _
      · exact Value.KnownBelow.some hab
  all_goals exact h.retain _

theorem canAlias_refl (tables : Tables) (ty : Ty) : tables.canAlias ty ty = true := by
  have hsub : tables.isSubtypeTy ty ty = true := by
    rw [Tables.isSubtypeTy.eq_def]
    simp
  rw [Tables.canAlias, hsub]
  rfl

/-- What a write leaves of the old fact about its target is no more precise than the written
value. -/
theorem knownBelow_keptByWrite (htarget : target.isHeapLocation = true)
    (hfinal : target.isFinalField = false) (hvw : Value.KnownBelow v w) :
    Value.KnownBelow v ((t.keptByWrite tables.oracle target w).value? target) := by
  cases target with
  | field base f =>
    have halias : tables.oracle.canAlias base.ty base.ty = true := canAlias_refl tables base.ty
    rw [keptByWrite, value?_mapFacts]
    cases t.value? (.field base f) with
    | none => exact Value.knownBelow_none _
    | some old =>
      have hassignable : f.isFinal = false := hfinal
      simp only [Option.bind_some, Receiver.slot, onSlot, afterFieldWrite, halias, hassignable]
      split
      · exact Value.knownBelow_none _
      · cases w with
        | none => exact Value.knownBelow_none _
        | some c =>
          obtain ⟨d, rfl, hdc⟩ := Value.knownBelow_iff.1 hvw c rfl
          exact Value.KnownBelow.some (hdc.trans (Value.below_lub_left c old))
  | array ty base index =>
    -- A write of an element always drops what was known of it.
    have hdropped : (Receiver.array ty base index).dependsOn tables.oracle.canAlias
        (.array ty base index) = true := by
      simp [Receiver.dependsOn]
    have hkept : (t.keptByWrite tables.oracle (.array ty base index) w).value?
        (.array ty base index) = none := by
      simp [keptByWrite, value?, retain, hdropped]
    rw [hkept]
    exact Value.knownBelow_none v
  | localVariable _ => cases htarget
  | this _ => cases htarget
  | className _ => cases htarget
  | call _ _ _ _ => cases htarget
  | literal _ _ => cases htarget
  | unknown _ => cases htarget

/-- A write to a final field has to be one of the same value. -/
theorem Below.assign (h : s.Below t) (hfinal : target.isFinalField = true → v = w)
    (hvw : Value.KnownBelow v w) :
    (s.assign tables.oracle target v).Below (t.assign tables.oracle target w) := by
  by_cases hlocal : ∃ x, target = .localVariable x
  · obtain ⟨x, rfl⟩ := hlocal
    rw [Store.assign, Store.assign]
    exact (h.retain _).put _ hvw
  · cases hheap : target.isHeapLocation with
    | false =>
      have hne : ∀ x, target ≠ .localVariable x := fun x he => hlocal ⟨x, he⟩
      rw [assign_of_untracked hne hheap, assign_of_untracked hne hheap]
      exact h.retain _
    | true =>
      have hkept : (s.keptByWrite tables.oracle target v).Below
          (t.keptByWrite tables.oracle target w) := h.keptByWrite target hvw
      have hflag := records_congr h.sequential_eq tables.oracle target
      rw [assign_heapLocation hheap, assign_heapLocation hheap, hflag]
      by_cases hw : t.records tables.oracle target w = true
      · rw [if_pos (records_of_knownBelow hvw hw), if_pos hw]
        exact hkept.put target hvw
      · rw [if_neg hw]
        split
        · next hv =>
          have hassignable : target.isFinalField = false :=
            Bool.eq_false_iff.2 fun hf => hw (hfinal hf ▸ hv)
          exact hkept.put_left (knownBelow_keptByWrite hheap hassignable hvw)
        · exact hkept

end Assign

/-! ### Calls -/

theorem Below.afterMethodCall {tables : Tables} (h : s.Below t)
    (hfinal : t.FinalsNotMonotonic tables) (call : Receiver) (sideEffectFree : Bool)
    {v w : Option Value} (hvw : Value.KnownBelow v w) :
    (s.afterMethodCall tables.oracle call sideEffectFree v).Below
      (t.afterMethodCall tables.oracle call sideEffectFree w) := by
  have hkept : (s.mapFacts (afterCall tables.oracle)).Below
      (t.mapFacts (afterCall tables.oracle)) := by
    refine h.mapFacts fun r a b _ hb hab => ?_
    have hkey : ∀ base f, r = .field base f → ¬tables.IsMonotonicFinal f := by
      intro base f hr
      rw [hr] at hb
      exact hfinal base f (Option.isSome_iff_exists.2 ⟨b, hb⟩)
    have hjoin := afterCall_lub hkey a b
    rw [hab] at hjoin
    exact hjoin.symm
  cases sideEffectFree with
  | true => exact h.replace call hvw
  | false => exact hkept.replace call hvw

/-! ### Fields that are known of

Of which receivers something is known after an operation: only of those of which something was
known, and of the one that the operation names.
-/

namespace FinalsNotMonotonic

variable {tables : Tables} {r : Receiver}

/-- A store that knows of no other receivers. -/
theorem of_isSome (h : s.FinalsNotMonotonic tables)
    (hknown : ∀ r, (t.value? r).isSome → (s.value? r).isSome) : t.FinalsNotMonotonic tables :=
  fun base f hf => h base f (hknown _ hf)

theorem lub (h : s.FinalsNotMonotonic tables) (t : Store) :
    (s.lub t).FinalsNotMonotonic tables := by
  refine h.of_isSome fun r hr => ?_
  rw [value?_lub] at hr
  cases hs : s.value? r with
  | none => simp [hs, Value.lub?] at hr
  | some v => rfl

theorem put (h : s.FinalsNotMonotonic tables)
    (hr : ∀ base f, r = .field base f → ¬tables.IsMonotonicFinal f) (v : Option Value) :
    (s.put r v).FinalsNotMonotonic tables := by
  intro base f hf
  rw [value?_put] at hf
  split at hf
  · next hslot =>
    refine hr base f ?_
    cases r <;> exact hslot.symm
  · exact h base f hf

theorem mapFacts (h : s.FinalsNotMonotonic tables) (f : Receiver → Value → Option Value) :
    (s.mapFacts f).FinalsNotMonotonic tables := by
  refine h.of_isSome fun r hr => ?_
  rw [value?_mapFacts] at hr
  cases hs : s.value? r with
  | none => simp [hs] at hr
  | some v => rfl

theorem keptByWrite (h : s.FinalsNotMonotonic tables) (oracle : StoreOracle) (target : Receiver)
    (value : Option Value) : (s.keptByWrite oracle target value).FinalsNotMonotonic tables := by
  cases target <;> exact h.mapFacts _

theorem assign (h : s.FinalsNotMonotonic tables)
    (hr : ∀ base f, r = .field base f → ¬tables.IsMonotonicFinal f) (oracle : StoreOracle)
    (value : Option Value) : (s.assign oracle r value).FinalsNotMonotonic tables := by
  by_cases hlocal : ∃ x, r = .localVariable x
  · obtain ⟨x, rfl⟩ := hlocal
    rw [Store.assign]
    exact (h.mapFacts _).put hr value
  · cases hheap : r.isHeapLocation with
    | false =>
      rw [assign_of_untracked (fun x he => hlocal ⟨x, he⟩) hheap]
      exact h.mapFacts _
    | true =>
      rw [assign_heapLocation hheap]
      split
      · exact (h.keptByWrite oracle r value).put hr value
      · exact h.keptByWrite oracle r value

theorem insert (h : s.FinalsNotMonotonic tables)
    (hr : ∀ base f, r = .field base f → ¬tables.IsMonotonicFinal f) (v : Value) :
    (s.insert r v).FinalsNotMonotonic tables := by
  rw [Store.insert]
  split
  · exact h.put hr _
  · exact h

theorem replace (h : s.FinalsNotMonotonic tables)
    (hr : ∀ base f, r = .field base f → ¬tables.IsMonotonicFinal f) (v : Option Value) :
    (s.replace r v).FinalsNotMonotonic tables := by
  cases v with
  | none => exact h.put hr none
  | some v =>
    have hclear : (s.clear r).FinalsNotMonotonic tables := h.put hr none
    exact hclear.insert hr v

theorem refineAll (h : s.FinalsNotMonotonic tables) {facts : List (Receiver × Value)}
    (hfacts : ∀ fact ∈ facts, ∀ base f, fact.1 = .field base f → ¬tables.IsMonotonicFinal f) :
    (Setting.refineAll s facts).FinalsNotMonotonic tables := by
  refine List.foldlRecOn facts _ h fun s hs fact hfact => ?_
  rw [Store.refine]
  split
  · exact hs.put (hfacts fact hfact) _
  · exact hs

theorem afterMethodCall (h : s.FinalsNotMonotonic tables)
    (hr : ∀ base f, r = .field base f → ¬tables.IsMonotonicFinal f) (oracle : StoreOracle)
    (sideEffectFree : Bool) (result : Option Value) :
    (s.afterMethodCall oracle r sideEffectFree result).FinalsNotMonotonic tables := by
  cases sideEffectFree with
  | true => exact h.replace hr result
  | false => exact (h.mapFacts _).replace hr result

end FinalsNotMonotonic

end Store

end FlowTyping
