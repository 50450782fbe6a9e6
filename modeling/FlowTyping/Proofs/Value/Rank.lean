import FlowTyping.Proofs.Value.Join

/-!
# Ranks of values

What a value knows of a hierarchy is a place in a chain, with nothing at the top. Joining two
values takes the higher place in each hierarchy and combining them the lower one, so the laws of
values that mix the two follow from those of maximum and minimum. The types form no chain, but no
type has more than `Ty.depth` types above it one after the other; `Value.depth` counts the
same for values.
-/

namespace FlowTyping

namespace Ty

/-- The second type is a supertype of the first, as far as their shape decides it. -/
def Below (s t : Ty) : Prop := s.lub t = t

instance (s t : Ty) : Decidable (s.Below t) := inferInstanceAs (Decidable (_ = _))

theorem below_lub_left (s t : Ty) : s.Below (s.lub t) := by
  rw [Below, ← lub_assoc, lub_self]

theorem below_lub_right (s t : Ty) : t.Below (s.lub t) := by
  rw [lub_comm s t]
  exact below_lub_left t s

theorem Below.trans {s t u : Ty} (hst : s.Below t) (htu : t.Below u) : s.Below u := by
  have hjoin : s.lub (t.lub u) = t.lub u := by rw [← lub_assoc, hst]
  rwa [htu] at hjoin

theorem lub_below_iff {s t u : Ty} : (s.lub t).Below u ↔ s.Below u ∧ t.Below u := by
  constructor
  · intro h
    exact ⟨(below_lub_left s t).trans h, (below_lub_right s t).trans h⟩
  · rintro ⟨hs, ht⟩
    rw [Below, lub_assoc, ht, hs]

theorem lowerTy_self (s t : Ty) : Value.lowerTy s t s = if t.Below s then t else s := by
  have hcomm := lub_comm s t
  unfold Below
  grind [Value.lowerTy]

/-- The greatest number of types that follow one another above a type. -/
def depth : Ty → Nat
  | primitive .byte => 6
  | primitive .short => 5
  | primitive .char => 5
  | primitive .int => 4
  | primitive .long => 3
  | primitive .float => 2
  | null => 2
  | declared name => if declared name = object then 0 else 1
  | _ => 1

private theorem primitive_depth_lt {p q : Primitive} (h : (primitive p).Below (primitive q))
    (hne : p ≠ q) : (primitive q).depth < (primitive p).depth := by
  revert h hne
  cases p <;> cases q <;> decide

private theorem primitive_depth_pos (p : Primitive) : 0 < (primitive p).depth := by
  cases p <;> decide

theorem depth_lt {s t : Ty} (h : s.Below t) (hne : s ≠ t) : t.depth < s.depth := by
  rw [Below, lub, if_neg hne] at h
  have hobject : object.depth = 0 := rfl
  cases s with
  | primitive p =>
    have hpos := primitive_depth_pos p
    cases t with
    | primitive q =>
      refine primitive_depth_lt ?_ fun he => hne (congrArg primitive he)
      rwa [Below, lub, if_neg hne]
    | _ => grind [joinDistinct, isReference, object]
  | _ => cases t <;> grind [joinDistinct, isReference, depth, object]

theorem isPrimitive_of_below {s t : Ty} (h : s.Below t) (ht : t.isPrimitive = true) :
    s.isPrimitive = true := by
  cases t with
  | primitive q =>
    rw [Below, lub] at h
    split at h
    · next he => exact he ▸ ht
    · cases s with
      | primitive p => rfl
      | _ => cases h
  | _ => cases ht

theorem depth_le {s t : Ty} (h : s.Below t) : t.depth ≤ s.depth := by
  by_cases hne : s = t
  · exact Nat.le_of_eq (congrArg depth hne.symm)
  · exact Nat.le_of_lt (depth_lt h hne)

end Ty

/-- The place of a qualifier in its chain; above all of them when there is none. -/
private def place : Option Qualifier → Nat
  | some q => q.rank
  | none => 3

namespace QualifierSet

/-- How little a set of qualifiers says about a hierarchy. -/
def rank (s : QualifierSet) (h : Hierarchy) : Nat := place (s.strongest? h)

theorem rank_le (s : QualifierSet) (h : Hierarchy) : s.rank h ≤ 3 := by
  rw [rank]
  rcases s.strongest? h with _ | q
  · exact Nat.le_refl 3
  · cases q <;> decide

theorem contains_nonNull_iff (s : QualifierSet) :
    s.contains .nonNull = true ↔ s.rank .nullness = 0 := by
  obtain ⟨a, b, c, d, e⟩ := s
  revert a b c d e
  decide

theorem isEmpty_toList_iff (s : QualifierSet) :
    s.toList.isEmpty = true ↔ s.rank .nullness = 3 ∧ s.rank .interning = 3 := by
  obtain ⟨a, b, c, d, e⟩ := s
  revert a b c d e
  decide

end QualifierSet

namespace Value

def rank (v : Value) (h : Hierarchy) : Nat := v.qualifiers.rank h

section Place

variable {p q : Option Qualifier} {h : Hierarchy}

private theorem place_join (hp : ∀ a, p = some a → a.hierarchy = h)
    (hq : ∀ a, q = some a → a.hierarchy = h) :
    place (joinQualifier p q) = max (place p) (place q) := by
  rcases p with _ | p
  · rcases q with _ | q
    · rfl
    · cases q <;> rfl
  · rcases q with _ | q
    · cases p <;> rfl
    · have hsame := (hp p rfl).trans (hq q rfl).symm
      cases p <;> cases q <;> first | rfl | cases hsame

private theorem place_sharper (hp : ∀ a, p = some a → a.hierarchy = h)
    (hq : ∀ a, q = some a → a.hierarchy = h) :
    place (sharperQualifier p q) = min (place p) (place q) := by
  rcases p with _ | p
  · rcases q with _ | q
    · rfl
    · cases q <;> rfl
  · rcases q with _ | q
    · cases p <;> rfl
    · have hsame := (hp p rfl).trans (hq q rfl).symm
      cases p <;> cases q <;> first | rfl | cases hsame

private theorem eq_of_place (hp : ∀ a, p = some a → a.hierarchy = h)
    (hq : ∀ a, q = some a → a.hierarchy = h) (he : place p = place q) : p = q := by
  rcases p with _ | p
  · rcases q with _ | q
    · rfl
    · cases q <;> cases he
  · rcases q with _ | q
    · cases p <;> cases he
    · have hsame := (hp p rfl).trans (hq q rfl).symm
      cases p <;> cases q <;>
        first | rfl | exact absurd hsame (by decide) | exact absurd he (by decide)

end Place

theorem rank_le (v : Value) (h : Hierarchy) : v.rank h ≤ 3 := v.qualifiers.rank_le h

@[simp] theorem rank_lub (v w : Value) (h : Hierarchy) :
    (v.lub w).rank h = max (v.rank h) (w.rank h) := by
  have hjoin : (v.lub w).rank h = place ((v.lub w).qualifier? h) := rfl
  rw [hjoin, qualifier?_lub]
  exact place_join (fun _ hp => QualifierSet.hierarchy_of_strongest? hp)
    fun _ hq => QualifierSet.hierarchy_of_strongest? hq

@[simp] theorem rank_mostSpecific (v w fallback : Value) (h : Hierarchy) :
    (v.mostSpecific w fallback).rank h = min (v.rank h) (w.rank h) := by
  have hsharper : (v.mostSpecific w fallback).rank h =
      place ((v.mostSpecific w fallback).qualifier? h) := rfl
  rw [hsharper, qualifier?_mostSpecific]
  exact place_sharper (fun _ hp => QualifierSet.hierarchy_of_strongest? hp)
    fun _ hq => QualifierSet.hierarchy_of_strongest? hq

theorem qualifier?_eq_iff_rank {v w : Value} {h : Hierarchy} :
    v.qualifier? h = w.qualifier? h ↔ v.rank h = w.rank h := by
  refine ⟨fun he => congrArg place he, fun he => ?_⟩
  exact eq_of_place (fun _ hp => QualifierSet.hierarchy_of_strongest? hp)
    (fun _ hq => QualifierSet.hierarchy_of_strongest? hq) he

theorem qualifiers_eq_of_rank {v w : Value} (hv : v.Normalized) (hw : w.Normalized)
    (hrank : ∀ h, v.rank h = w.rank h) : v.qualifiers = w.qualifiers := by
  rw [normalized_iff.1 hv, normalized_iff.1 hw]
  exact congrArg QualifierSet.choose (funext fun h => qualifier?_eq_iff_rank.2 (hrank h))

theorem ext_rank {v w : Value} (hv : v.Normalized) (hw : w.Normalized) (hty : v.ty = w.ty)
    (hrank : ∀ h, v.rank h = w.rank h) : v = w := by
  have hqualifiers := qualifiers_eq_of_rank hv hw hrank
  cases v
  cases w
  cases hty
  cases hqualifiers
  rfl

theorem below_iff {v w : Value} :
    v.Below w ↔ w.Normalized ∧ v.ty.Below w.ty ∧ ∀ h, v.rank h ≤ w.rank h := by
  constructor
  · intro h
    refine ⟨h ▸ normalized_lub v w, congrArg ty h, fun hier => ?_⟩
    have hmax := congrArg (rank · hier) h
    simp only [rank_lub] at hmax
    omega
  · rintro ⟨hw, hty, hrank⟩
    refine ext_rank (normalized_lub v w) hw hty fun h => ?_
    rw [rank_lub, Nat.max_eq_right (hrank h)]

theorem below_self_iff {v : Value} : v.Below v ↔ v.Normalized := by
  rw [below_iff]
  exact ⟨fun h => h.1, fun h => ⟨h, Ty.lub_self _, fun _ => Nat.le_refl _⟩⟩

theorem Normalized.lub_self {v : Value} (h : v.Normalized) : v.lub v = v :=
  below_self_iff.2 h

theorem Below.normalized {v w : Value} (h : v.Below w) : w.Normalized := (below_iff.1 h).1

@[simp] theorem rank_of_toList (ty : Ty) (s : QualifierSet) (h : Hierarchy) :
    (of ty s.toList).rank h = s.rank h := by
  have hqualifier := qualifier?_of ty s.toList h
  rw [QualifierSet.ofList_toList] at hqualifier
  exact congrArg place hqualifier

theorem has_nonNull_iff {v : Value} : v.has .nonNull = true ↔ v.rank .nullness = 0 :=
  v.qualifiers.contains_nonNull_iff

theorem has_nonNull_lub (v w : Value) :
    (v.lub w).has .nonNull = true ↔ v.has .nonNull = true ∧ w.has .nonNull = true := by
  rw [has_nonNull_iff, has_nonNull_iff, has_nonNull_iff, rank_lub]
  omega

theorem Below.has_nonNull {v w : Value} (h : v.Below w) (hw : w.has .nonNull = true) :
    v.has .nonNull = true := by
  rw [has_nonNull_iff] at hw ⊢
  have hrank := (below_iff.1 h).2.2 .nullness
  omega

theorem of_nonNull_lub (s t : Ty) :
    of (s.lub t) [.nonNull] = (of s [.nonNull]).lub (of t [.nonNull]) := rfl

/-! ### Combining with a fixed value -/

theorem ty_refine (existing incoming : Value) :
    (existing.refine incoming).ty =
      if existing.ty.Below incoming.ty then existing.ty else incoming.ty :=
  Ty.lowerTy_self incoming.ty existing.ty

@[simp] theorem rank_refine (existing incoming : Value) (h : Hierarchy) :
    (existing.refine incoming).rank h = min (incoming.rank h) (existing.rank h) :=
  rank_mostSpecific incoming existing incoming h

theorem normalized_refine (existing incoming : Value) : (existing.refine incoming).Normalized :=
  normalized_mostSpecific incoming existing incoming

theorem refine_below {existing incoming : Value} (h : incoming.Normalized) :
    (existing.refine incoming).Below incoming := by
  rw [below_iff, ty_refine]
  refine ⟨h, ?_, fun hier => ?_⟩
  · split
    · assumption
    · exact Ty.lub_self _
  · rw [rank_refine]
    exact Nat.min_le_left _ _

/-- Combining with what comes in keeps joins: either both types are below the incoming one, or
the join is not and the incoming type is what is left on both sides. -/
theorem refine_lub (v w incoming : Value) :
    (v.lub w).refine incoming = (v.refine incoming).lub (w.refine incoming) := by
  refine ext_rank (normalized_refine _ _) (normalized_lub _ _) ?_ fun h => ?_
  · have hjoin : (v.lub w).ty = v.ty.lub w.ty := rfl
    have hsplit : ((v.refine incoming).lub (w.refine incoming)).ty =
        (v.refine incoming).ty.lub (w.refine incoming).ty := rfl
    rw [hsplit, ty_refine, ty_refine, ty_refine, hjoin]
    by_cases hv : v.ty.Below incoming.ty
    · by_cases hw : w.ty.Below incoming.ty
      · rw [if_pos hv, if_pos hw, if_pos (Ty.lub_below_iff.2 ⟨hv, hw⟩)]
      · have hno : ¬(v.ty.lub w.ty).Below incoming.ty := fun h => hw (Ty.lub_below_iff.1 h).2
        rw [if_pos hv, if_neg hw, if_neg hno]
        exact hv.symm
    · have hno : ¬(v.ty.lub w.ty).Below incoming.ty := fun h => hv (Ty.lub_below_iff.1 h).1
      rw [if_neg hv, if_neg hno]
      split
      · next hw =>
        rw [Ty.lub_comm]
        exact hw.symm
      · exact (Ty.lub_self _).symm
  · rw [rank_refine, rank_lub, rank_lub, rank_refine, rank_refine]
    omega

theorem Below.lub {v v' w w' : Value} (hv : v.Below v') (hw : w.Below w') :
    (v.lub w).Below (v'.lub w') :=
  lub_below (hv.trans (below_lub_left v' w')) (hw.trans (below_lub_right v' w'))

/-! ### Values that may be unknown -/

/-- The order of values that may be unknown, with the unknown one on top. -/
def KnownBelow (v w : Option Value) : Prop := lub? v w = w

instance (v w : Option Value) : Decidable (KnownBelow v w) := inferInstanceAs (Decidable (_ = _))

section Known

variable {u v w v' w' : Option Value}

theorem lub?_comm (v w : Option Value) : lub? v w = lub? w v := by
  cases v <;> cases w <;> simp [lub?, lub_comm]

theorem lub?_assoc (u v w : Option Value) : lub? (lub? u v) w = lub? u (lub? v w) := by
  cases u <;> cases v <;> cases w <;> simp [lub?, lub_assoc]

@[simp] theorem lub?_none (v : Option Value) : lub? v none = none := by
  cases v <;> rfl

theorem lub?_self (h : ∀ a, v = some a → a.Normalized) : lub? v v = v := by
  cases v with
  | none => rfl
  | some a => exact congrArg some (h a rfl).lub_self

theorem knownBelow_iff : KnownBelow v w ↔ ∀ b, w = some b → ∃ a, v = some a ∧ a.Below b := by
  cases v <;> cases w <;> simp [KnownBelow, lub?, Below]

theorem knownBelow_none (v : Option Value) : KnownBelow v none := by
  cases v <;> rfl

theorem knownBelow_lub? (v w : Option Value) : KnownBelow v (lub? v w) := by
  cases v with
  | none => rfl
  | some a =>
    cases w with
    | none => rfl
    | some b => exact congrArg Option.some (below_lub_left a b)

theorem KnownBelow.some {a b : Value} (h : a.Below b) : KnownBelow (some a) (some b) :=
  congrArg Option.some h

theorem KnownBelow.trans (huv : KnownBelow u v) (hvw : KnownBelow v w) : KnownBelow u w := by
  have hjoin : lub? u (lub? v w) = lub? v w := by rw [← lub?_assoc, huv]
  rwa [hvw] at hjoin

theorem KnownBelow.normalized (h : KnownBelow v w) : ∀ b, w = Option.some b → b.Normalized := by
  intro b hb
  obtain ⟨a, -, hab⟩ := knownBelow_iff.1 h b hb
  exact hab.normalized

theorem knownBelow_self (h : ∀ a, v = Option.some a → a.Normalized) : KnownBelow v v :=
  lub?_self h

theorem KnownBelow.lub? (hv : KnownBelow v v') (hw : KnownBelow w w') :
    KnownBelow (lub? v w) (Value.lub? v' w') := by
  have hswap : Value.lub? (Value.lub? v w) (Value.lub? v' w') =
      Value.lub? (Value.lub? v v') (Value.lub? w w') := by
    rw [lub?_assoc, lub?_assoc, ← lub?_assoc w, lub?_comm w v', lub?_assoc v']
  rw [KnownBelow, hswap, hv, hw]

/-- Combining with a fixed value keeps joins. A side that knows nothing gives the fixed value,
which is above all that it can be combined to. -/
theorem moreSpecific?_lub? {fixed : Option Value}
    (hfixed : ∀ a, fixed = Option.some a → a.Normalized) (v w : Option Value) :
    Value.moreSpecific? fixed (Value.lub? v w) =
      Value.lub? (moreSpecific? fixed v) (moreSpecific? fixed w) := by
  cases fixed with
  | none => rfl
  | some a =>
    have ha := hfixed a rfl
    cases v with
    | none =>
      cases w with
      | none => exact congrArg Option.some ha.lub_self.symm
      | some c =>
        have habsorb : (c.refine a).Below a := refine_below ha
        exact congrArg Option.some ((lub_comm _ _).trans habsorb).symm
    | some b =>
      cases w with
      | none =>
        have habsorb : (b.refine a).Below a := refine_below ha
        exact congrArg Option.some habsorb.symm
      | some c => exact congrArg Option.some (refine_lub b c a)

theorem KnownBelow.moreSpecific? {fixed : Option Value}
    (hfixed : ∀ a, fixed = Option.some a → a.Normalized) (h : KnownBelow v w) :
    KnownBelow (moreSpecific? fixed v) (Value.moreSpecific? fixed w) := by
  rw [KnownBelow, ← moreSpecific?_lub? hfixed, h]

end Known

/-! ### Depth -/

/-- The greatest number of values that follow one another above a value; a value that is not
normalized lies below the one with the same ranks. -/
def depth (v : Value) : Nat :=
  v.ty.depth + (3 - v.rank .nullness) + (3 - v.rank .interning) + if v.Normalized then 0 else 1

theorem depth_lt {v w : Value} (h : v.Below w) (hne : v ≠ w) : w.depth < v.depth := by
  obtain ⟨hw, hty, hrank⟩ := below_iff.1 h
  have htyDepth := Ty.depth_le hty
  have hnullness := hrank .nullness
  have hinterning := hrank .interning
  have hbound := w.rank_le .nullness
  have hbound' := w.rank_le .interning
  simp only [depth, if_pos hw]
  by_cases hv : v.Normalized
  · simp only [if_pos hv]
    by_cases htyEq : v.ty = w.ty
    · -- Two normalized values of one type differ in some rank.
      have hdiffer : ¬(v.rank .nullness = w.rank .nullness ∧
          v.rank .interning = w.rank .interning) := by
        rintro ⟨hsame, hsame'⟩
        refine hne (ext_rank hv hw htyEq fun hier => ?_)
        cases hier
        · exact hsame
        · exact hsame'
      omega
    · have htyLt := Ty.depth_lt hty htyEq
      omega
  · simp only [if_neg hv]
    omega

theorem depth_le {v w : Value} (h : v.Below w) : w.depth ≤ v.depth := by
  by_cases hne : v = w
  · exact Nat.le_of_eq (congrArg depth hne.symm)
  · exact Nat.le_of_lt (depth_lt h hne)

end Value

end FlowTyping
