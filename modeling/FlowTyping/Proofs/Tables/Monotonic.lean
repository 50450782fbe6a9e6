import FlowTyping.Receiver
import FlowTyping.Tables

/-!
# Monotonic qualifiers of fields

What it means that the value of a field has reached the target of a monotonic qualifier with which
the field is declared, and what of such a value survives a call.
-/

namespace FlowTyping

theorem Qualifier.eq_nonNull_of_monotonicTarget? {p q : Qualifier}
    (h : p.monotonicTarget? = some q) : q = nonNull := by
  cases p <;> cases h
  rfl

theorem Value.eq_of_singleton_iff {v : Value} {ty : Ty} {q : Qualifier} :
    v = .of ty [q] ↔ v.ty = ty ∧ v.qualifiers.toList = [q] := by
  have hone : (Value.of ty [q]).qualifiers = .ofList [q] := by cases q <;> rfl
  constructor
  · rintro rfl
    refine ⟨rfl, ?_⟩
    cases q <;> rfl
  · rintro ⟨hty, hlist⟩
    have hset : v.qualifiers = (Value.of ty [q]).qualifiers := by
      rw [hone, ← hlist, QualifierSet.ofList_toList]
    obtain ⟨ty', qualifiers⟩ := v
    obtain rfl : ty' = ty := hty
    obtain rfl : qualifiers = (Value.of ty' [q]).qualifiers := hset
    rfl

namespace Tables

variable {t : Tables} {f : Field} {v : Value} {q : Qualifier}

/-- A qualifier is what a declared qualifier of the field only ever moves towards. -/
def IsMonotonicTarget (t : Tables) (f : Field) (q : Qualifier) : Prop :=
  ∃ declared ∈ t.declaredQualifiers f, declared.monotonicTarget? = some q

instance : Decidable (t.IsMonotonicTarget f q) :=
  inferInstanceAs (Decidable (∃ declared ∈ t.declaredQualifiers f, _))

def IsMonotonicFinal (t : Tables) (f : Field) : Prop :=
  f.isFinal = true ∧ ∃ q, t.IsMonotonicTarget f q

def HasReached (t : Tables) (f : Field) (v : Value) (q : Qualifier) : Prop :=
  t.IsMonotonicTarget f q ∧ v.has q = true

theorem reachedTarget?_eq_none : t.reachedTarget? f v = none ↔ ∀ q, ¬t.HasReached f v q := by
  simp only [reachedTarget?, List.find?_eq_none, List.mem_filterMap, HasReached, not_and]
  exact Iff.rfl

theorem reachedTarget?_eq_some : t.reachedTarget? f v = some q ↔ t.HasReached f v q := by
  have hreached : ∀ p, t.reachedTarget? f v = some p → t.HasReached f v p := by
    intro p hp
    rw [reachedTarget?] at hp
    exact ⟨List.mem_filterMap.1 (List.mem_of_find?_eq_some hp), List.find?_some hp⟩
  refine ⟨hreached q, fun hq => ?_⟩
  cases hfound : t.reachedTarget? f v with
  | none => exact absurd hq (reachedTarget?_eq_none.1 hfound q)
  | some p =>
    obtain ⟨_, _, hp⟩ := (hreached p hfound).1
    obtain ⟨_, _, hq⟩ := hq.1
    rw [Qualifier.eq_nonNull_of_monotonicTarget? hp, Qualifier.eq_nonNull_of_monotonicTarget? hq]

theorem monotonicRetained_eq_some {w : Value} : t.monotonicRetained f v = some w ↔
    ∃ q, t.HasReached f v q ∧ w.ty = v.ty ∧ w.qualifiers.toList = [q] := by
  simp only [monotonicRetained, Option.map_eq_some_iff, reachedTarget?_eq_some,
    eq_comm (a := Value.of v.ty _), Value.eq_of_singleton_iff]

theorem monotonicRetained_eq_none :
    t.monotonicRetained f v = none ↔ ∀ q, ¬t.HasReached f v q := by
  rw [monotonicRetained, Option.map_eq_none_iff, reachedTarget?_eq_none]

theorem IsMonotonicTarget.eq_nonNull (h : t.IsMonotonicTarget f q) : q = .nonNull := by
  obtain ⟨_, -, htarget⟩ := h
  exact Qualifier.eq_nonNull_of_monotonicTarget? htarget

theorem isMonotonicUpdate_iff :
    t.isMonotonicUpdate f v = true ↔ t.IsMonotonicTarget f .nonNull ∧ v.has .nonNull = true := by
  rw [isMonotonicUpdate, Option.isSome_iff_exists]
  constructor
  · rintro ⟨q, hq⟩
    obtain ⟨htarget, hhas⟩ := reachedTarget?_eq_some.1 hq
    obtain rfl := htarget.eq_nonNull
    exact ⟨htarget, hhas⟩
  · rintro ⟨htarget, hhas⟩
    exact ⟨.nonNull, reachedTarget?_eq_some.2 ⟨htarget, hhas⟩⟩

theorem monotonicRetained_of_target (h : t.IsMonotonicTarget f .nonNull) :
    t.monotonicRetained f v = if v.has .nonNull then some (.of v.ty [.nonNull]) else none := by
  split
  · next hhas =>
    rw [monotonicRetained, reachedTarget?_eq_some.2 ⟨h, hhas⟩]
    rfl
  · next hhas =>
    refine monotonicRetained_eq_none.2 fun q hq => hhas ?_
    exact hq.1.eq_nonNull ▸ hq.2

theorem monotonicRetained_of_no_target (h : ∀ q, ¬t.IsMonotonicTarget f q) :
    t.monotonicRetained f v = none :=
  monotonicRetained_eq_none.2 fun q hq => h q hq.1

end Tables

namespace MonotonicField

def box : Ty := .declared "Box"

def value : Field := ⟨⟨21⟩, "value", box, .declared "Leaf", false, false⟩

def thisValue : Receiver := .field (.this box) value

/-- Once the field `value` of a box is not null it stays so. -/
def tables : Tables :=
  { Tables.empty with fields := [⟨value, [.monotonicNonNull], none⟩] }

end MonotonicField

end FlowTyping
