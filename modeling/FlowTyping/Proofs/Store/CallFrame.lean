import FlowTyping.Proofs.Store.Call
import FlowTyping.Proofs.Store.Monotone

/-!
# What a call leaves alone

A call leaves alone what is known of locals, of `this` and of classes, and if it is free of side
effects everything but what is known of the call itself. A fact about a field that no other code
can assign stays as well, with one exception: what a call retains of a value that has reached a
monotonic target is the target alone, also where the field is final and nothing can have changed.
-/

namespace FlowTyping

namespace Store

variable {s : Store} {t : Tables} {oracle : StoreOracle} {call : Receiver} {sideEffectFree : Bool}
  {result : Option Value} {r : Receiver} {v : Value}

theorem sameSlot_call (hcall : call.isCallOrUnknown = true) : SameSlot r call ↔ r = call :=
  sameSlot_iff_eq r fun ty hthis => by rw [hthis] at hcall; cases hcall

theorem value?_afterMethodCall_of_kept (hcall : call.isCallOrUnknown = true) (hr : r ≠ call)
    (hkept : sideEffectFree = false → ∀ v, afterCall oracle r v = some v) :
    (s.afterMethodCall oracle call sideEffectFree result).value? r = s.value? r := by
  rw [afterMethodCall, value?_replace, if_neg (hr ∘ (sameSlot_call hcall).1)]
  split
  · rfl
  · next himpure => exact value?_mapFacts_of_kept (hkept (Bool.eq_false_iff.2 himpure)) s

private theorem value?_unassignable_afterMethodCall (t : Tables) (sideEffectFree : Bool)
    (result : Option Value) (hcall : call.isCallOrUnknown = true) {base : Receiver} {f : Field}
    (hv : s.value? (.field base f) = some v)
    (hpath : (Receiver.field base f).isUnassignable = true) :
    (s.afterMethodCall t.oracle call sideEffectFree result).value? (.field base f) = some v ∧
        (sideEffectFree = true ∨ ∀ q, t.HasReached f v q → v.qualifiers.toList = [q]) ∨
      ∃ q, t.HasReached f v q ∧ sideEffectFree = false ∧ v.qualifiers.toList ≠ [q] ∧
        (s.afterMethodCall t.oracle call sideEffectFree result).value? (.field base f) =
          some (.of v.ty [q]) := by
  have hne : Receiver.field base f ≠ call := by
    rintro rfl
    cases hcall
  cases sideEffectFree with
  | true =>
    have hsame : (s.afterMethodCall t.oracle call true result).value? (.field base f) =
        s.value? (.field base f) := value?_afterMethodCall_of_kept hcall hne nofun
    exact Or.inl ⟨hsame.trans hv, Or.inl rfl⟩
  | false =>
    by_cases hreached : ∃ q, t.HasReached f v q
    · obtain ⟨q, hq⟩ := hreached
      have htarget : (Value.of v.ty [q]).ty = v.ty ∧ (Value.of v.ty [q]).qualifiers.toList = [q] :=
        Value.eq_of_singleton_iff.1 rfl
      have hkept : (s.afterMethodCall t.oracle call false result).value? (.field base f) =
          some (.of v.ty [q]) :=
        (value?_field_afterMethodCall hcall).2 ⟨v, hv, Or.inr ⟨q, hq, htarget⟩⟩
      by_cases honly : v.qualifiers.toList = [q]
      · have hsame : v = .of v.ty [q] := Value.eq_of_singleton_iff.2 ⟨rfl, honly⟩
        refine Or.inl ⟨hkept.trans (congrArg some hsame.symm), Or.inr fun p hp => ?_⟩
        rw [hp.1.eq_nonNull, ← hq.1.eq_nonNull, honly]
      · exact Or.inr ⟨q, hq, rfl, honly, hkept⟩
    · have hnone : ∀ q, ¬t.HasReached f v q := fun q hq => hreached ⟨q, hq⟩
      refine Or.inl ⟨?_, Or.inr fun q hq => absurd hq (hnone q)⟩
      exact (value?_field_afterMethodCall hcall).2 ⟨v, hv, Or.inl ⟨hnone, hpath, rfl⟩⟩

/-- A call leaves alone what is known of locals, of `this` and of classes, and all but the call
itself if it is free of side effects. A fact about a field that no other code can assign stays
known: with its old value exactly when the call is free of side effects, or the value has reached no
monotonic target, or it says nothing but that target; otherwise with the target it has reached. -/
theorem afterMethodCall_frame (t : Tables) (s : Store) (hcall : call.isCallOrUnknown = true)
    (sideEffectFree : Bool) (result : Option Value) :
    let after := s.afterMethodCall t.oracle call sideEffectFree result
    (∀ x, after.value? (.localVariable x) = s.value? (.localVariable x)) ∧
    (∀ ty, after.value? (.this ty) = s.value? (.this ty)) ∧
    (∀ ty, after.value? (.className ty) = s.value? (.className ty)) ∧
    (sideEffectFree = true → ∀ r, r ≠ call → after.value? r = s.value? r) ∧
    ∀ base f v, s.value? (.field base f) = some v →
      (Receiver.field base f).isUnassignable = true →
      ∃ w, after.value? (.field base f) = some w ∧ w.ty = v.ty ∧
        (w = v ↔
          sideEffectFree = true ∨ ∀ q, t.HasReached f v q → v.qualifiers.toList = [q]) ∧
        (w = v ∨ ∃ q, t.HasReached f v q ∧ w.qualifiers.toList = [q]) := by
  intro after
  have hother : ∀ r : Receiver, r.isCallOrUnknown = false → r ≠ call := by
    rintro r hr rfl
    rw [hcall] at hr
    cases hr
  refine ⟨fun x => ?_, fun ty => ?_, fun ty => ?_, fun hfree r hr => ?_,
    fun base f v hv hpath => ?_⟩
  · exact value?_afterMethodCall_of_kept hcall (hother _ rfl) fun _ _ => rfl
  · exact value?_afterMethodCall_of_kept hcall (hother _ rfl) fun _ _ => rfl
  · exact value?_afterMethodCall_of_kept hcall (hother _ rfl) fun _ _ => rfl
  · exact value?_afterMethodCall_of_kept hcall hr fun himpure => absurd hfree (by simp [himpure])
  · rcases value?_unassignable_afterMethodCall t sideEffectFree result hcall hv hpath with
      ⟨hkept, hwhen⟩ | ⟨q, hq, himpure, hmore, hkept⟩
    · exact ⟨v, hkept, rfl, iff_of_true rfl hwhen, Or.inl rfl⟩
    · obtain ⟨hty, htarget⟩ : (Value.of v.ty [q]).ty = v.ty ∧
        (Value.of v.ty [q]).qualifiers.toList = [q] := Value.eq_of_singleton_iff.1 rfl
      refine ⟨.of v.ty [q], hkept, hty, iff_of_false (fun hsame => ?_) ?_, Or.inr ⟨q, hq, htarget⟩⟩
      · exact hmore (hsame ▸ htarget)
      · rintro (hfree | honly)
        · rw [himpure] at hfree
          cases hfree
        · exact hmore (honly q hq)

end Store

namespace FinalPath

private def order : Ty := .declared "Order"

private def item : Ty := .declared "Item"

private def bought : Field := ⟨⟨20⟩, "bought", order, item, true, false⟩

private def code : Field := ⟨⟨21⟩, "code", item, .declared "Code", true, false⟩

private def boughtCode : Receiver := .field (.field (.this order) bought) code

private def interned : Value := .of code.ty [.nonNull, .interned]

private def known : Store := (Store.empty true).insert boughtCode interned

/-- The code of an item stays not null once it is set. -/
private def tables : Tables := { Tables.empty with fields := [⟨code, [.monotonicNonNull], none⟩] }

/-- If neither field is declared with a monotonic qualifier, the fact about `this.bought.code`
stays as it is. -/
theorem boughtCode_afterMethodCall_frame :
    (Receiver.unknown .void).isCallOrUnknown = true ∧
    known.value? boughtCode = some interned ∧ boughtCode.isUnassignable = true ∧
    (∀ q, Tables.empty.HasReached code interned q → interned.qualifiers.toList = [q]) ∧
    (known.afterMethodCall Tables.empty.oracle (.unknown .void) false none).value? boughtCode =
      some interned := by
  have hknown : known.value? boughtCode = some interned := by decide
  have hreached : ∀ q, Tables.empty.HasReached code interned q →
      interned.qualifiers.toList = [q] := by
    rintro q ⟨⟨_, hdeclared, -⟩, -⟩
    cases hdeclared
  have hcall : (Receiver.unknown .void).isCallOrUnknown = true := rfl
  obtain ⟨-, -, -, -, hfields⟩ := Store.afterMethodCall_frame Tables.empty known hcall false none
  obtain ⟨w, hw, -, hsame, -⟩ := hfields _ _ interned hknown rfl
  obtain rfl : w = interned := hsame.2 (Or.inr hreached)
  exact ⟨hcall, hknown, rfl, hreached, hw⟩

/-- If the code is declared with a monotonic qualifier, the call forgets that it is interned. -/
theorem boughtCode_loses_interned :
    (Receiver.unknown .void).isCallOrUnknown = true ∧
    known.value? boughtCode = some interned ∧ boughtCode.isUnassignable = true ∧
    (known.afterMethodCall tables.oracle (.unknown .void) false none).value? boughtCode =
      some (.of code.ty [.nonNull]) ∧
    Value.of code.ty [.nonNull] ≠ interned := by
  decide

end FinalPath

end FlowTyping
