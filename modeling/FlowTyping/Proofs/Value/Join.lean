import FlowTyping.Value
import Mathlib.Tactic.Cases

/-!
# Joins of values

The join of values is commutative and associative. It is idempotent only up to the qualifiers
that a normalized value drops, which is enough for `v.lub w = w` to behave as an order on the
values that are joins themselves.
-/

namespace FlowTyping

namespace Ty

theorem lub_comm (s t : Ty) : s.lub t = t.lub s := by
  by_cases h : s = t
  · rw [h]
  · have h' : ¬t = s := fun he => h he.symm
    rw [lub, lub, if_neg h, if_neg h']
    cases s <;> cases t <;> simp [joinDistinct, Primitive.promote?_comm] at h ⊢

private theorem primitive_lub_assoc (p q r : Primitive) :
    ((primitive p).lub (primitive q)).lub (primitive r) =
      (primitive p).lub ((primitive q).lub (primitive r)) := by
  cases p <;> cases q <;> cases r <;> rfl

theorem primitive_lub_cases (p q : Primitive) :
    (∃ r, (primitive p).lub (primitive q) = primitive r) ∨
      (primitive p).lub (primitive q) = object := by
  by_cases h : p = q
  · exact Or.inl ⟨p, by simp [lub, h]⟩
  · cases hp : p.promote? q with
    | none => exact Or.inr (by simp [lub, h, joinDistinct, hp])
    | some r => exact Or.inl ⟨r, by simp [lub, h, joinDistinct, hp]⟩

theorem lub_assoc (s t u : Ty) : (s.lub t).lub u = s.lub (t.lub u) := by
  -- Only three primitive types are joined by computing; every other shape ends at `object`, or
  -- at one of the types themselves.
  cases s <;> cases t <;> cases u <;>
    first
    | exact primitive_lub_assoc _ _ _
    | grind [lub, joinDistinct, object, isReference, primitive_lub_cases]

end Ty

namespace Value

theorem joinQualifier_comm (p q : Option Qualifier) : joinQualifier p q = joinQualifier q p := by
  rcases p with _ | p <;> rcases q with _ | q
  · rfl
  · rfl
  · rfl
  · cases p <;> cases q <;> rfl

private def Within (h : Hierarchy) (q : Option Qualifier) : Prop :=
  ∀ p, q = some p → p.hierarchy = h

private theorem within_qualifier? (v : Value) (h : Hierarchy) : Within h (v.qualifier? h) :=
  fun _ hp => QualifierSet.hierarchy_of_strongest? hp

private theorem Within.joinQualifier {h : Hierarchy} {p q : Option Qualifier} (hp : Within h p) :
    Within h (joinQualifier p q) := by
  rcases p with _ | p
  · intro r hr
    cases hr
  · rcases q with _ | q
    · intro r hr
      cases hr
    · have hph := hp p rfl
      intro r hr
      subst hph
      cases p <;> cases q <;> simp [Value.joinQualifier, Qualifier.lub?, Qualifier.isSubtype,
        Qualifier.hierarchy, Qualifier.rank] at hr <;> subst hr <;> rfl

private theorem joinQualifier_assoc (p q r : Option Qualifier) :
    joinQualifier (joinQualifier p q) r = joinQualifier p (joinQualifier q r) := by
  rcases p with _ | p
  · rfl
  · rcases q with _ | q
    · rfl
    · rcases r with _ | r
      · cases p <;> cases q <;> rfl
      · cases p <;> cases q <;> cases r <;> rfl

private theorem joinQualifier_self (p : Option Qualifier) : joinQualifier p p = p := by
  rcases p with _ | p
  · rfl
  · cases p <;> rfl

private theorem strongest?_choose {pick : Hierarchy → Option Qualifier}
    (hpick : ∀ h, Within h (pick h)) (h : Hierarchy) :
    (QualifierSet.choose pick).strongest? h = pick h := by
  have hcontains : ∀ q, (QualifierSet.choose pick).contains q = true ↔
      pick q.hierarchy = some q := by
    intro q
    rw [QualifierSet.choose, QualifierSet.contains_ofPred, decide_eq_true_iff]
  cases hfound : (QualifierSet.choose pick).strongest? h with
  | some q =>
    have hq := (hcontains q).1 (QualifierSet.contains_of_strongest? hfound)
    rw [QualifierSet.hierarchy_of_strongest? hfound] at hq
    exact hq.symm
  | none =>
    cases hpicked : pick h with
    | none => rfl
    | some p =>
      have hp : p.hierarchy = h := hpick h p hpicked
      have hmem : p ∈ (QualifierSet.choose pick).toList := by
        rw [QualifierSet.mem_toList, hcontains, hp]
        exact hpicked
      have hnot := List.find?_eq_none.1 hfound p hmem
      exact absurd (decide_eq_true hp) hnot

@[simp] theorem qualifier?_lub (v w : Value) (h : Hierarchy) :
    (v.lub w).qualifier? h = joinQualifier (v.qualifier? h) (w.qualifier? h) :=
  strongest?_choose (fun h => (within_qualifier? v h).joinQualifier) h

@[simp] theorem qualifier?_mostSpecific (v w fallback : Value) (h : Hierarchy) :
    (v.mostSpecific w fallback).qualifier? h =
      sharperQualifier (v.qualifier? h) (w.qualifier? h) := by
  refine strongest?_choose (fun h => ?_) h
  have hv := within_qualifier? v h
  have hw := within_qualifier? w h
  cases hp : v.qualifier? h with
  | none => exact hw
  | some p =>
    cases hq : w.qualifier? h with
    | none =>
      rw [hp] at hv
      exact hv
    | some q =>
      intro r hr
      rw [sharperQualifier, Option.some.injEq] at hr
      split at hr
      · exact hv r (hp.trans (congrArg some hr))
      · exact hw r (hq.trans (congrArg some hr))

@[simp] theorem qualifier?_of (ty : Ty) (qualifiers : List Qualifier) (h : Hierarchy) :
    (of ty qualifiers).qualifier? h = (QualifierSet.ofList qualifiers).strongest? h :=
  strongest?_choose (fun _ _ hq => QualifierSet.hierarchy_of_strongest? hq) h

theorem normalized_iff {v : Value} : v.Normalized ↔ v.qualifiers = .choose v.qualifier? :=
  eq_comm

private theorem normalized_choose (ty : Ty) {pick : Hierarchy → Option Qualifier}
    (hpick : ∀ h, Within h (pick h)) : (Value.mk ty (.choose pick)).Normalized := by
  rw [normalized_iff]
  exact congrArg QualifierSet.choose (funext fun h => (strongest?_choose hpick h).symm)

theorem normalized_lub (v w : Value) : (v.lub w).Normalized :=
  normalized_choose _ fun h => (within_qualifier? v h).joinQualifier

theorem normalized_mostSpecific (v w fallback : Value) :
    (v.mostSpecific w fallback).Normalized := by
  rw [normalized_iff]
  exact congrArg QualifierSet.choose
    (funext fun h => (qualifier?_mostSpecific v w fallback h).symm)

theorem normalized_of (ty : Ty) (qualifiers : List Qualifier) : (of ty qualifiers).Normalized :=
  normalized_choose _ fun _ _ hq => QualifierSet.hierarchy_of_strongest? hq

theorem normalized_of? {ty : Ty} {qualifiers : List Qualifier} {v : Value}
    (h : of? ty qualifiers = some v) : v.Normalized := by
  rw [of?] at h
  split at h
  · cases h
  · cases h
    exact normalized_of ty qualifiers

theorem lub_comm (v w : Value) : v.lub w = w.lub v := by
  rw [lub, lub, Ty.lub_comm]
  congr 2
  exact funext fun h => joinQualifier_comm _ _

theorem lub_assoc (u v w : Value) : (u.lub v).lub w = u.lub (v.lub w) := by
  have hq : ∀ h, joinQualifier ((u.lub v).qualifier? h) (w.qualifier? h) =
      joinQualifier (u.qualifier? h) ((v.lub w).qualifier? h) := by
    intro h
    rw [qualifier?_lub, qualifier?_lub, joinQualifier_assoc]
  rw [lub, lub.eq_1 u (v.lub w)]
  congr 1
  · exact Ty.lub_assoc _ _ _
  · exact congrArg _ (funext hq)

theorem lub_self_lub (v w : Value) : (v.lub v).lub w = v.lub w := by
  have hq : ∀ h, joinQualifier ((v.lub v).qualifier? h) (w.qualifier? h) =
      joinQualifier (v.qualifier? h) (w.qualifier? h) := by
    intro h
    rw [qualifier?_lub, joinQualifier_self]
  rw [lub, lub.eq_1 v w]
  congr 1
  · rw [show (v.lub v).ty = v.ty.lub v.ty from rfl, Ty.lub_self]
  · exact congrArg _ (funext hq)

/-- A value says at least what `w` says: joining it with `w` adds nothing to `w`. -/
def Below (v w : Value) : Prop := v.lub w = w

instance (v w : Value) : Decidable (v.Below w) := inferInstanceAs (Decidable (_ = _))

theorem below_lub_left (v w : Value) : v.Below (v.lub w) := by
  rw [Below, ← lub_assoc, lub_self_lub]

theorem below_lub_right (v w : Value) : w.Below (v.lub w) := by
  rw [lub_comm v w]
  exact below_lub_left w v

theorem Below.trans {u v w : Value} (huv : u.Below v) (hvw : v.Below w) : u.Below w := by
  calc u.lub w = u.lub (v.lub w) := by rw [hvw]
    _ = (u.lub v).lub w := (lub_assoc u v w).symm
    _ = v.lub w := by rw [huv]
    _ = w := hvw

theorem lub_below {u v w : Value} (hu : u.Below w) (hv : v.Below w) : (u.lub v).Below w := by
  calc (u.lub v).lub w = u.lub (v.lub w) := lub_assoc u v w
    _ = u.lub w := by rw [hv]
    _ = w := hu

end Value

end FlowTyping
