import FlowTyping.Proofs.Contract.Repetition
import FlowTyping.Proofs.Store.CallFrame

/-!
# What a repeated call leaves

What a call leaves of a fact it leaves again when the call is repeated, after the branches of the
first run have been refined and joined. A fact about a field with a monotonic target is cut down to
that target, so it matters when the target was reached: `Tables.NewlyReached` says that it was
reached in both branches of the first run, but not before.
-/

namespace FlowTyping

open Value (KnownNormalized RanksSurvive rank? Survives)

namespace Tables

variable {t : Tables} {r base : Receiver} {f : Field} {known before joined : Option Value}
  {sideEffectFree : Bool}

/-- What a call leaves of what is known of a receiver other than the call. -/
def leftByCall (t : Tables) (sideEffectFree : Bool) (r : Receiver) (known : Option Value) :
    Option Value :=
  if sideEffectFree then known else known.bind (Store.onSlot (Store.afterCall t.oracle) r.slot)

/-- A field that no other code can assign is known to have reached a monotonic target only after a
call, not before it. -/
def NewlyReached (t : Tables) (r : Receiver) (before after : Option Value) : Prop :=
  r.isUnassignable = true ∧ ∃ base f, r = .field base f ∧
    (∃ v, before = some v ∧ ∀ q, ¬t.HasReached f v q) ∧
    ∃ v, after = some v ∧ ∃ q, t.HasReached f v q

theorem leftByCall_monotonic (h : t.IsMonotonicTarget f .nonNull) (v : Value) :
    t.leftByCall false (.field base f) (some v) =
      if v.has .nonNull then some (.of v.ty [.nonNull])
      else if (Receiver.field base f).isUnassignable then some v else none := by
  have horacle : t.oracle.monotonicRetained f v = t.monotonicRetained f v := rfl
  simp only [leftByCall, Receiver.slot, Store.onSlot, Store.afterCall, Option.bind_some, horacle,
    monotonicRetained_of_target h]
  cases v.has .nonNull <;> rfl

/-- A call keeps or drops whatever is known of a receiver, except for a field with a monotonic
target, where it depends on the value. -/
theorem leftByCall_cases (t : Tables) (r : Receiver) :
    (∀ known, t.leftByCall false r known = known) ∨ (∀ known, t.leftByCall false r known = none) ∨
      ∃ base f, r = .field base f ∧ t.IsMonotonicTarget f .nonNull := by
  have hkept : (∀ v, Store.onSlot (Store.afterCall t.oracle) r.slot v = some v) →
      ∀ known, t.leftByCall false r known = known := by
    intro h known
    cases known with
    | none => rfl
    | some v => exact h v
  have hdropped : (∀ v, Store.onSlot (Store.afterCall t.oracle) r.slot v = none) →
      ∀ known, t.leftByCall false r known = none := by
    intro h known
    cases known with
    | none => rfl
    | some v => exact h v
  cases r with
  | field base f =>
    by_cases htarget : t.IsMonotonicTarget f .nonNull
    · exact Or.inr (Or.inr ⟨base, f, rfl, htarget⟩)
    · have hnone : ∀ v, t.oracle.monotonicRetained f v = none := fun v =>
        monotonicRetained_of_no_target fun q hq => htarget (hq.eq_nonNull ▸ hq)
      cases hpath : (Receiver.field base f).isUnassignable with
      | true =>
        refine Or.inl (hkept fun v => ?_)
        simp only [Receiver.slot, Store.onSlot, Store.afterCall, hnone, hpath, if_true]
      | false =>
        refine Or.inr (Or.inl (hdropped fun v => ?_))
        simp only [Receiver.slot, Store.onSlot, Store.afterCall, hnone, hpath]
        rfl
  | array _ _ _ => exact Or.inr (Or.inl (hdropped fun _ => rfl))
  | call _ _ _ _ => exact Or.inr (Or.inl (hdropped fun _ => rfl))
  | localVariable _ => exact Or.inl (hkept fun _ => rfl)
  | this _ => exact Or.inl (hkept fun _ => rfl)
  | className _ => exact Or.inl (hkept fun _ => rfl)
  | literal _ _ => exact Or.inl (hkept fun _ => rfl)
  | unknown _ => exact Or.inl (hkept fun _ => rfl)

theorem ty_leftByCall {w : Value} (h : t.leftByCall sideEffectFree r known = some w) :
    ∃ v, known = some v ∧ v.ty = w.ty := by
  cases sideEffectFree with
  | true => exact ⟨w, h, rfl⟩
  | false =>
    rcases t.leftByCall_cases r with hkept | hdropped | ⟨base, f, rfl, htarget⟩
    · exact ⟨w, (hkept known).symm.trans h, rfl⟩
    · rw [hdropped known] at h
      cases h
    · cases known with
      | none => cases h
      | some v =>
        rw [leftByCall_monotonic htarget v] at h
        refine ⟨v, rfl, ?_⟩
        split at h
        · cases h
          rfl
        · split at h <;> cases h
          rfl

private theorem has_nonNull_of_left (htarget : t.IsMonotonicTarget f .nonNull)
    (hpath : (Receiver.field base f).isUnassignable = false) {v w : Value}
    (hv : t.leftByCall false (.field base f) before = some v)
    (hle : w.rank .nullness ≤ v.rank .nullness) : w.has .nonNull = true := by
  cases before with
  | none => cases hv
  | some u =>
    rw [leftByCall_monotonic htarget u, hpath] at hv
    cases hu : u.has .nonNull with
    | false =>
      rw [hu] at hv
      cases hv
    | true =>
      rw [hu] at hv
      cases hv
      exact Value.has_nonNull_iff.2 (Nat.le_zero.1 hle)

theorem survives_leftByCall
    (hsome : (t.leftByCall sideEffectFree r before).isSome = true → joined.isSome = true)
    (hrank : ∀ h, rank? joined h ≤ rank? (t.leftByCall sideEffectFree r before) h) :
    Survives (t.leftByCall sideEffectFree r before) joined
      (t.leftByCall sideEffectFree r joined) := by
  cases sideEffectFree with
  | true => exact .self hsome
  | false =>
    rcases t.leftByCall_cases r with hkept | hdropped | ⟨base, f, rfl, htarget⟩
    · rw [hkept joined]
      exact .self hsome
    · rw [hdropped joined, hdropped before]
      exact .none joined
    · cases joined with
      | none => exact .self hsome
      | some w =>
        refine ⟨fun _ => rfl, fun hbefore => ?_, fun v w' hv hw' => ?_⟩
        · obtain ⟨v, hv⟩ := Option.isSome_iff_exists.1 hbefore
          have hle := hrank .nullness
          rw [hv] at hle
          rw [leftByCall_monotonic htarget w]
          cases hw : w.has .nonNull with
          | true => rfl
          | false =>
            cases hpath : (Receiver.field base f).isUnassignable with
            | true => rfl
            | false =>
              rw [has_nonNull_of_left htarget hpath hv hle] at hw
              cases hw
        · obtain ⟨u, hu, hty⟩ := ty_leftByCall hv
          cases hu
          cases hw'
          exact hty.symm

private theorem rank_of_reached (htarget : t.IsMonotonicTarget f .nonNull) {w : Value}
    (hw : w.has .nonNull = true) (hnot : ¬t.NewlyReached (.field base f) before (some w))
    {h : Hierarchy} (hother : h ≠ .nullness) :
    rank? (t.leftByCall false (.field base f) before) h = 3 := by
  cases before with
  | none => rfl
  | some v =>
    rw [leftByCall_monotonic htarget v]
    cases hv : v.has .nonNull with
    | true => exact (Value.rank_of_nonNull v.ty h).trans (if_neg hother)
    | false =>
      cases hpath : (Receiver.field base f).isUnassignable with
      | false => rfl
      | true =>
        have hunreached : ∀ q, ¬t.HasReached f v q := by
          rintro q ⟨hq, hhas⟩
          rw [hq.eq_nonNull, hv] at hhas
          cases hhas
        exact absurd ⟨hpath, base, f, rfl, ⟨v, rfl, hunreached⟩, w, rfl, .nonNull, htarget, hw⟩ hnot

/-- A call that is repeated loses no hierarchy that the first run had not lost, if no field has
newly reached a monotonic target. -/
theorem ranksSurvive_leftByCall
    (hrank : ∀ h, rank? joined h ≤ rank? (t.leftByCall sideEffectFree r before) h)
    (hnot : sideEffectFree = false → ¬t.NewlyReached r before joined) :
    RanksSurvive (t.leftByCall sideEffectFree r before) joined
      (t.leftByCall sideEffectFree r joined) := by
  intro h
  cases sideEffectFree with
  | true => exact Or.inl rfl
  | false =>
    rcases t.leftByCall_cases r with hkept | hdropped | ⟨base, f, rfl, htarget⟩
    · rw [hkept joined]
      exact Or.inl rfl
    · rw [hdropped joined, hdropped before]
      exact Or.inr ⟨rfl, rfl⟩
    · cases joined with
      | none => exact Or.inl rfl
      | some w =>
        rw [leftByCall_monotonic htarget w]
        cases hw : w.has .nonNull with
        | true =>
          have hafter : rank? (some (.of w.ty [.nonNull])) h = if h = .nullness then 0 else 3 :=
            Value.rank_of_nonNull w.ty h
          by_cases hnullness : h = .nullness
          · refine Or.inl (hafter.trans ?_)
            rw [if_pos hnullness, hnullness]
            exact (Value.has_nonNull_iff.1 hw).symm
          · exact Or.inr ⟨rank_of_reached htarget hw (hnot rfl) hnullness,
              hafter.trans (if_neg hnullness)⟩
        | false =>
          cases hpath : (Receiver.field base f).isUnassignable with
          | true => exact Or.inl rfl
          | false =>
            cases hleft : t.leftByCall false (.field base f) before with
            | none => exact Or.inr ⟨rfl, rfl⟩
            | some v =>
              have hle := hrank .nullness
              rw [hleft] at hle
              rw [has_nonNull_of_left htarget hpath hleft hle] at hw
              cases hw

/-- Of a field that has newly reached a monotonic target, a call leaves only that. -/
theorem leftByCall_newlyReached (h : t.NewlyReached r before joined) :
    ∃ w, joined = some w ∧ w.has .nonNull = true ∧
      t.leftByCall false r joined = some (.of w.ty [.nonNull]) := by
  obtain ⟨-, base, f, rfl, -, w, rfl, q, htarget, hhas⟩ := h
  obtain rfl := htarget.eq_nonNull
  exact ⟨w, rfl, hhas, (leftByCall_monotonic htarget w).trans (if_pos hhas)⟩

theorem knownNormalized_leftByCall (h : KnownNormalized known) :
    KnownNormalized (t.leftByCall sideEffectFree r known) := by
  cases sideEffectFree with
  | true => exact h
  | false =>
    rcases t.leftByCall_cases r with hkept | hdropped | ⟨base, f, rfl, htarget⟩
    · rw [hkept known]
      exact h
    · rw [hdropped known]
      exact Value.knownNormalized_none
    · cases known with
      | none => exact Value.knownNormalized_none
      | some v =>
        rw [leftByCall_monotonic htarget v]
        split
        · exact (Value.normalized_of _ _).known
        · split
          · exact h
          · exact Value.knownNormalized_none

end Tables

namespace Store

variable {r call : Receiver}

theorem value?_afterMethodCall_of_ne (tables : Tables) (hr : ¬SameSlot r call)
    (sideEffectFree : Bool) (result : Option Value) (s : Store) :
    (s.afterMethodCall tables.oracle call sideEffectFree result).value? r =
      tables.leftByCall sideEffectFree r (s.value? r) := by
  rw [afterMethodCall, value?_replace, if_neg hr, Tables.leftByCall]
  split
  · rfl
  · exact value?_mapFacts s _ r

@[simp] theorem sequential_afterMethodCall (s : Store) (oracle : StoreOracle) (call : Receiver)
    (sideEffectFree : Bool) (result : Option Value) :
    (s.afterMethodCall oracle call sideEffectFree result).sequential = s.sequential := by
  rw [afterMethodCall, sequential_replace]
  split <;> rfl

end Store

end FlowTyping
