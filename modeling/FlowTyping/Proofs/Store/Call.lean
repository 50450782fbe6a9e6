import FlowTyping.Proofs.Store.Write
import FlowTyping.Proofs.Tables.Monotonic

/-!
# What a call leaves

A call with side effects drops all facts about array elements and other calls. A fact about a
field survives with the monotonic target that its value has reached, or unchanged when no other
code can assign the field along its whole path. The first rule looks at the last field of the
path only: the fact about `this.link.value` survives although the callee may assign `this.link`.
-/

namespace FlowTyping

/-- Whether a receiver stands for a call, one whose identity is tracked or not. -/
def Receiver.isCallOrUnknown : Receiver → Bool
  | call _ _ _ _ => true
  | unknown _ => true
  | _ => false

namespace Store

variable {s : Store} {t : Tables} {oracle : StoreOracle} {call : Receiver}
  {result : Option Value}

theorem value?_afterMethodCall {r : Receiver} (hthis : ∀ ty, r ≠ .this ty) (hr : r ≠ call) :
    (s.afterMethodCall oracle call false result).value? r =
      (s.value? r).bind (afterCall oracle r) := by
  have hslot : ¬SameSlot r call := by
    cases r
    case this ty => exact absurd rfl (hthis ty)
    all_goals exact hr
  have hreplace : ∀ s' : Store, (s'.replace call result).value? r = s'.value? r := by
    intro s'
    have hclear : (s'.clear call).value? r = s'.value? r := by
      rw [clear, value?_put, if_neg hslot]
    cases result with
    | none => exact hclear
    | some v =>
      rw [replace, insert, ← hclear]
      split
      · rw [value?_put, if_neg hslot]
      · rfl
  refine (hreplace _).trans ?_
  cases r
  case this ty => exact absurd rfl (hthis ty)
  all_goals exact FinMap.get?_filterMap _ _ _

theorem value?_field_afterMethodCall (hcall : call.isCallOrUnknown = true) {base : Receiver}
    {f : Field} {w : Value} :
    (s.afterMethodCall t.oracle call false result).value? (.field base f) = some w ↔
      ∃ v, s.value? (.field base f) = some v ∧
        ((∀ q, ¬t.HasReached f v q) ∧ (Receiver.field base f).isUnassignable = true ∧ w = v ∨
          ∃ q, t.HasReached f v q ∧ w.ty = v.ty ∧ w.qualifiers.toList = [q]) := by
  have hne : Receiver.field base f ≠ call := by
    rintro rfl
    cases hcall
  rw [value?_afterMethodCall (r := .field base f) (by simp) hne,
    Option.bind_eq_some_iff]
  refine exists_congr fun v => and_congr_right fun _ => ?_
  have horacle : t.oracle.monotonicRetained f v = t.monotonicRetained f v := rfl
  rw [← Tables.monotonicRetained_eq_some, ← Tables.monotonicRetained_eq_none, afterCall, horacle]
  cases t.monotonicRetained f v with
  | some kept => simp
  | none =>
    cases (Receiver.field base f).isUnassignable <;> simp [eq_comm (a := v)]

/-- After a call with side effects nothing is known of array elements and of other calls. What is
known of a field is the old value, if no other code can assign the field, or the monotonic target
that the old value had reached. No other code can assign the bases of all these fields exactly
when every field with an assignable base had reached no monotonic target. -/
theorem afterMethodCall_impure (hcall : call.isCallOrUnknown = true) :
    (∀ ty base index,
      (s.afterMethodCall t.oracle call false result).value? (.array ty base index) = none) ∧
    (∀ ty m base arguments,
      ((s.afterMethodCall t.oracle call false result).value? (.call ty m base arguments)).isSome →
        .call ty m base arguments = call) ∧
    (∀ base f w,
      (s.afterMethodCall t.oracle call false result).value? (.field base f) = some w ↔
        ∃ v, s.value? (.field base f) = some v ∧
          ((∀ q, ¬t.HasReached f v q) ∧ (Receiver.field base f).isUnassignable = true ∧ w = v ∨
            ∃ q, t.HasReached f v q ∧ w.ty = v.ty ∧ w.qualifiers.toList = [q])) ∧
    ((∀ base f w,
      (s.afterMethodCall t.oracle call false result).value? (.field base f) = some w →
        base.isUnassignable = true) ↔
      ∀ base f v, s.value? (.field base f) = some v → base.isUnassignable = false →
        ∀ q, ¬t.HasReached f v q) := by
  refine ⟨fun ty base index => ?_, fun ty m base arguments hsome => ?_,
    fun base f w => value?_field_afterMethodCall hcall, fun hall base f v hv hbase q hq => ?_,
    fun hold base f w hw => ?_⟩
  · have hne : Receiver.array ty base index ≠ call := by
      rintro rfl
      cases hcall
    rw [value?_afterMethodCall (r := .array ty base index) (by simp) hne]
    cases s.value? (.array ty base index) <;> rfl
  · by_contra hne
    rw [value?_afterMethodCall (r := .call ty m base arguments) (by simp) hne] at hsome
    cases hold : s.value? (.call ty m base arguments) <;> simp [hold, afterCall] at hsome
  · have htarget : (Value.of v.ty [q]).ty = v.ty ∧ (Value.of v.ty [q]).qualifiers.toList = [q] :=
      Value.eq_of_singleton_iff.1 rfl
    have hkept : (s.afterMethodCall t.oracle call false result).value? (.field base f) =
        some (.of v.ty [q]) :=
      (value?_field_afterMethodCall hcall).2 ⟨v, hv, Or.inr ⟨q, hq, htarget⟩⟩
    rw [hall base f _ hkept] at hbase
    cases hbase
  · obtain ⟨v, hv, ⟨-, hpath, -⟩ | ⟨q, hq, -⟩⟩ := (value?_field_afterMethodCall hcall).1 hw
    · rw [Receiver.isUnassignable, Bool.and_eq_true] at hpath
      exact hpath.2
    · by_contra hbase
      exact hold base f v hv (Bool.eq_false_iff.2 hbase) q hq

end Store

namespace Retention

open MonotonicField

private def link : Field := ⟨⟨20⟩, "link", box, box, false, false⟩

private def linkValue : Receiver := .field (.field (.this box) link) value

private def nonNull : Value := .of value.ty [.nonNull]

private def internedValue : Value := .of value.ty [.nonNull, .interned]

private def afterUnknownCall (s : Store) : Store :=
  s.afterMethodCall tables.oracle (.unknown .void) false none

private def thisValueKnown : Store := (Store.empty true).put thisValue (some internedValue)

private def linkValueKnown : Store := (Store.empty true).insert linkValue nonNull

/-- Of a fact about `this.value` the call leaves what is monotonic, and `this` is the same box
after the call. -/
theorem thisValue_afterMethodCall :
    (Receiver.unknown .void).isCallOrUnknown = true ∧
    (∀ base f w, (afterUnknownCall thisValueKnown).value? (.field base f) = some w →
      base.isUnassignable = true) ∧
    thisValueKnown.value? thisValue = some internedValue ∧
    (afterUnknownCall thisValueKnown).value? thisValue = some nonNull := by
  refine ⟨rfl, (Store.afterMethodCall_impure rfl).2.2.2.2 fun base f v hv hbase q _ => ?_,
    by decide, by decide⟩
  rcases Store.value?_put_eq_some (fun _ => by simp [thisValue]) hv with ⟨hkey, -⟩ | hempty
  · obtain ⟨rfl, rfl⟩ : base = .this box ∧ f = value := by simpa [thisValue] using hkey
    cases hbase
  · rw [Store.value?_empty] at hempty
    cases hempty

/-- The fact about `this.link.value` survives the call, which may assign `this.link`. -/
theorem linkValue_afterMethodCall :
    (afterUnknownCall linkValueKnown).value? linkValue = some nonNull ∧
    linkValue = .field (.field (.this box) link) value ∧
    (Receiver.field (.this box) link).isUnassignable = false := by
  decide

/-- `this` is box 1. Box 2 has a value and box 3 has none. -/
private def boxes (linked : Nat) : Memory Nat :=
  ⟨fun _ => 9, 1, fun _ => 9, fun _ _ => 9,
    fun o f => if f = link then linked else if o = 2 then 9 else 0, fun _ _ => 9⟩

/-- A callee that makes `this.link` box 3 leaves all values that are not null, and yet what the
store keeps about `this.link.value` is wrong after the call. -/
theorem boxes_not_satisfies_afterMethodCall :
    (boxes 2).Satisfies Memory.Aliased.NonNullHolds linkValueKnown ∧
    (∀ o, (boxes 2).fields o value ≠ 0 → (boxes 3).fields o value ≠ 0) ∧
    ¬(boxes 3).Satisfies Memory.Aliased.NonNullHolds (afterUnknownCall linkValueKnown) := by
  refine ⟨fun r v y _ hv hy _ => ?_, fun o h => h, fun hsat => ?_⟩
  · rw [linkValueKnown, Store.insert, if_pos (by decide)] at hv
    rcases Store.value?_put_eq_some (fun _ => by simp [linkValue]) hv with ⟨rfl, -⟩ | hempty
    · obtain rfl : 9 = y := Option.some.inj hy
      decide
    · rw [Store.value?_empty] at hempty
      cases hempty
  · exact hsat linkValue nonNull 0 rfl (by decide) rfl (by decide) rfl

end Retention

end FlowTyping
