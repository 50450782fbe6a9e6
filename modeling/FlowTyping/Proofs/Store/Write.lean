import FlowTyping.Proofs.Store.Assignment

/-!
# What a write keeps and what it records

A write of a field or an array element first drops or weakens facts and then may record its own.
The two parts are named here, so that later proofs treat fields and array elements alike.
-/

namespace FlowTyping

def Receiver.isHeapLocation : Receiver → Bool
  | field _ _ => true
  | array _ _ _ => true
  | _ => false

namespace Store

/-- Whether a write of a field or an array element records the fact about its target. -/
def records (s : Store) (oracle : StoreOracle) (target : Receiver) : Option Value → Bool
  | none => false
  | some v =>
    (match target with
      | .field _ f => s.sequential || oracle.isMonotonicUpdate f v || target.isUnassignable
      | .array _ _ _ => s.sequential
      | _ => false) && !target.containsUnknown

/-- What a write of a field or an array element leaves of the facts known before. -/
def keptByWrite (s : Store) (oracle : StoreOracle) (target : Receiver) (value : Option Value) :
    Store :=
  match target with
  | .field base f => s.mapFacts (afterFieldWrite oracle base f value)
  | target => s.retain fun key => !key.dependsOn oracle.canAlias target

variable {s : Store} {oracle : StoreOracle} {target key : Receiver} {value : Option Value}
  {w : Value}

theorem assign_heapLocation (htarget : target.isHeapLocation = true) :
    s.assign oracle target value =
      if s.records oracle target value then (s.keptByWrite oracle target value).put target value
      else s.keptByWrite oracle target value := by
  cases target with
  | field base f => cases value <;> rfl
  | array ty base index => cases value <;> rfl
  | localVariable _ => cases htarget
  | this _ => cases htarget
  | className _ => cases htarget
  | call _ _ _ _ => cases htarget
  | literal _ _ => cases htarget
  | unknown _ => cases htarget

theorem assign_of_untracked (hlocal : ∀ x, target ≠ .localVariable x)
    (htarget : target.isHeapLocation = false) :
    s.assign oracle target value = s.retain fun key => !key.dependsOn oracle.canAlias target := by
  cases target with
  | localVariable x => exact absurd rfl (hlocal x)
  | field _ _ => cases htarget
  | array _ _ _ => cases htarget
  | this _ => rfl
  | className _ => rfl
  | call _ _ _ _ => rfl
  | literal _ _ => rfl
  | unknown _ => rfl

/-- A write records a fact that the store tracks, or one that a monotonic qualifier lets in. -/
theorem tracks_of_records {v : Value} (h : s.records oracle target (some v) = true) :
    s.tracks target = true ∨ ∃ base f, target = .field base f ∧
      oracle.isMonotonicUpdate f v = true ∧ target.containsUnknown = false := by
  cases target with
  | field base f =>
    rw [records, Bool.and_eq_true, Bool.not_eq_true'] at h
    obtain ⟨hgate, hknown⟩ := h
    by_cases hmono : oracle.isMonotonicUpdate f v = true
    · exact Or.inr ⟨base, f, rfl, hmono, hknown⟩
    · left
      simpa [tracks, Receiver.isInsertable, hknown, hmono] using hgate
  | array ty base index =>
    rw [records, Bool.and_eq_true, Bool.not_eq_true'] at h
    left
    simp [tracks, Receiver.isInsertable, h]
  | localVariable _ => cases h
  | this _ => cases h
  | className _ => cases h
  | call _ _ _ _ => cases h
  | literal _ _ => cases h
  | unknown _ => cases h

private theorem sameSlot_heapLocation (htarget : target.isHeapLocation = true) (r : Receiver) :
    SameSlot r target ↔ r = target :=
  sameSlot_iff_eq r (by rintro ty rfl; cases htarget)

/-- A fact after a write is one that the write keeps, or the one that it records. -/
theorem value?_assign_heapLocation (htarget : target.isHeapLocation = true)
    (h : (s.assign oracle target value).value? key = some w) :
    key = target ∧ s.records oracle target value = true ∨
      (s.keptByWrite oracle target value).value? key = some w := by
  rw [assign_heapLocation htarget] at h
  split at h
  · next hrecords =>
    rw [value?_put] at h
    split at h
    · next hkey => exact Or.inl ⟨(sameSlot_heapLocation htarget key).1 hkey, hrecords⟩
    · exact Or.inr h
  · exact Or.inr h

theorem value?_assign_of_records (htarget : target.isHeapLocation = true)
    (h : s.records oracle target value = true) :
    (s.assign oracle target value).value? target = value := by
  rw [assign_heapLocation htarget, if_pos h, value?_put,
    if_pos ((sameSlot_heapLocation htarget target).2 rfl)]

end Store

end FlowTyping
