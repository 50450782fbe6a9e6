import FlowTyping.Proofs.Contract.Outcomes

/-!
# Refining by several values

What is known of one receiver is refined by the values that several contracts bring for it, one
after the other: `Value.refineBy`. Each hierarchy ends up at the lowest rank that occurs. So does
the type if all types that occur compare; if they do not, the order of the values may matter, unless
all of them have one type. A store refined by facts refines each receiver by what the facts bring
for it: `Store.value?_refineAll`.
-/

namespace FlowTyping

open Value (KnownNormalized)

namespace Ty

variable {s t : Ty}

def refinedBy (t incoming : Ty) : Ty := if t.Below incoming then t else incoming

theorem Below.antisymm (hst : s.Below t) (hts : t.Below s) : s = t := by
  rw [Below, lub_comm] at hts
  exact hts.symm.trans hst

end Ty

namespace Value

variable {known before after : Option Value} {vs ws : List Value} {v w : Value} {ty : Ty}
  {q : Qualifier}

/-- How little is known of a hierarchy, of a value that may be unknown. -/
def rank? (v : Option Value) (h : Hierarchy) : Nat := v.elim 3 (·.rank h)

theorem rank?_le (v : Option Value) (h : Hierarchy) : rank? v h ≤ 3 := by
  cases v with
  | none => exact Nat.le_refl 3
  | some v => exact v.rank_le h

theorem rank?_lub? (v w : Option Value) (h : Hierarchy) :
    rank? (lub? v w) h = max (rank? v h) (rank? w h) := by
  have hv := rank?_le v h
  have hw := rank?_le w h
  cases v with
  | none => exact (Nat.max_eq_left hw).symm
  | some v =>
    cases w with
    | none => exact (Nat.max_eq_right hv).symm
    | some w => exact rank_lub v w h

theorem rank?_moreSpecific? (v w : Option Value) (h : Hierarchy) :
    rank? (moreSpecific? v w) h = min (rank? v h) (rank? w h) := by
  have hv := rank?_le v h
  have hw := rank?_le w h
  cases v with
  | none => exact (Nat.min_eq_right hw).symm
  | some v =>
    cases w with
    | none => exact (Nat.min_eq_left hv).symm
    | some w => exact rank_mostSpecific v w v h

theorem rank_of_nonNull (ty : Ty) (h : Hierarchy) :
    (of ty [.nonNull]).rank h = if h = .nullness then 0 else 3 := by
  cases h <;> rfl

theorem rank_eq_of_has (hv : v.Normalized) (hw : w.Normalized) (hvq : v.has q = true)
    (hwq : w.has q = true) : v.rank q.hierarchy = w.rank q.hierarchy :=
  qualifier?_eq_iff_rank.1
    (((has_iff_qualifier? hv q).1 hvq).trans ((has_iff_qualifier? hw q).1 hwq).symm)

theorem exists_has_of_rank_lt {h : Hierarchy} (hv : v.Normalized) (hlt : v.rank h < 3) :
    ∃ q, q.hierarchy = h ∧ v.has q = true := by
  cases hq : v.qualifier? h with
  | none =>
    have hnothing : v.qualifier? h = (of v.ty []).qualifier? h := by
      rw [hq]
      cases h <;> rfl
    have hrank : v.rank h = 3 := by
      rw [qualifier?_eq_iff_rank.1 hnothing]
      cases h <;> rfl
    omega
  | some q =>
    have hhierarchy : q.hierarchy = h := QualifierSet.hierarchy_of_strongest? hq
    exact ⟨q, hhierarchy, (has_iff_qualifier? hv q).2 (hhierarchy ▸ hq)⟩

theorem known_ext (hty : before.map (·.ty) = after.map (·.ty))
    (hqualifiers : before.map (·.qualifiers) = after.map (·.qualifiers)) : before = after := by
  cases before with
  | none =>
    cases after with
    | none => rfl
    | some w => cases hty
  | some v =>
    cases after with
    | none => cases hty
    | some w =>
      obtain ⟨t, qualifiers⟩ := v
      obtain ⟨t', qualifiers'⟩ := w
      cases hty
      cases hqualifiers
      rfl

theorem map_qualifiers_eq (hv : KnownNormalized before) (hw : KnownNormalized after)
    (hsome : after.isSome = before.isSome) (hrank : ∀ h, rank? after h = rank? before h) :
    after.map (·.qualifiers) = before.map (·.qualifiers) := by
  cases before with
  | none => rw [Option.isSome_eq_false_iff.1 hsome |> Option.isNone_iff_eq_none.1]
  | some v =>
    obtain ⟨w, rfl⟩ := Option.isSome_iff_exists.1 hsome
    exact congrArg some (qualifiers_eq_of_rank (hw w rfl) (hv v rfl) hrank)

theorem moreSpecific?_moreSpecific? (hv : KnownNormalized before) (known : Option Value) :
    moreSpecific? before (moreSpecific? before known) = moreSpecific? before known := by
  cases before with
  | none => rfl
  | some v =>
    have hty : ∀ w : Value, (v.mostSpecific (v.mostSpecific w v) v).ty =
        (v.mostSpecific w v).ty := fun w => Ty.lowerTy_lowerTy v.ty w.ty
    cases known with
    | none =>
      refine congrArg some (ext_rank (normalized_mostSpecific v v v) (hv v rfl) ?_ fun h => ?_)
      · exact if_pos rfl
      · rw [rank_mostSpecific, Nat.min_self]
    | some w =>
      refine congrArg some (ext_rank (normalized_mostSpecific _ _ _) (normalized_mostSpecific _ _ _)
        (hty w) fun h => ?_)
      simp only [rank_mostSpecific]
      omega

theorem eq_of_sharperQualifier {p p' : Option Qualifier} (h : sharperQualifier p p' = some q) :
    p = some q ∨ p' = some q := by
  cases p with
  | none => exact Or.inr h
  | some a =>
    cases p' with
    | none => exact Or.inl h
    | some b =>
      rw [sharperQualifier] at h
      split at h
      · exact Or.inl h
      · exact Or.inr h

/-! ### Refining by several values -/

/-- What is known after some values have refined it, one after the other. -/
def refineBy (known : Option Value) (values : List Value) : Option Value :=
  values.foldl (fun known v => moreSpecific? (some v) known) known

theorem refineBy_append (known : Option Value) (vs ws : List Value) :
    refineBy known (vs ++ ws) = refineBy (refineBy known vs) ws :=
  List.foldl_append

theorem refineBy_concat (known : Option Value) (vs : List Value) (v : Value) :
    refineBy known (vs ++ [v]) = moreSpecific? (some v) (refineBy known vs) :=
  List.foldl_append

theorem isSome_refineBy (known : Option Value) (vs : List Value) :
    (refineBy known vs).isSome = (known.isSome || !vs.isEmpty) := by
  induction vs using List.reverseRecOn with
  | nil => simp [refineBy]
  | append_singleton vs v _ =>
    rw [refineBy_concat]
    cases refineBy known vs <;> simp [moreSpecific?]

theorem knownNormalized_refineBy (hknown : KnownNormalized known) (hvs : ∀ v ∈ vs, v.Normalized) :
    KnownNormalized (refineBy known vs) := by
  induction vs using List.reverseRecOn with
  | nil => exact hknown
  | append_singleton vs v ih =>
    rw [refineBy_concat]
    exact (hvs v (by simp)).known.moreSpecific? (ih fun w hw => hvs w (List.mem_append_left _ hw))

def lowestRank (vs : List Value) (h : Hierarchy) : Nat :=
  rank? (refineBy none vs) h

theorem rank?_refineBy (known : Option Value) (vs : List Value) (h : Hierarchy) :
    rank? (refineBy known vs) h = min (lowestRank vs h) (rank? known h) := by
  have hle := rank?_le known h
  induction vs using List.reverseRecOn with
  | nil => exact (Nat.min_eq_right hle).symm
  | append_singleton vs v ih =>
    rw [lowestRank, refineBy_concat, refineBy_concat, rank?_moreSpecific?, rank?_moreSpecific?, ih,
      lowestRank]
    omega

theorem lowestRank_le (hv : v ∈ vs) (h : Hierarchy) : lowestRank vs h ≤ v.rank h := by
  induction vs using List.reverseRecOn with
  | nil => cases hv
  | append_singleton vs w ih =>
    rw [lowestRank, refineBy_concat, rank?_moreSpecific?]
    rcases List.mem_append.1 hv with hv | hv
    · exact Nat.le_trans (Nat.min_le_right _ _) (ih hv)
    · obtain rfl := List.mem_singleton.1 hv
      exact Nat.min_le_left _ _

theorem has_nonNull_refineBy (h : refineBy (some v) vs = some w) (hv : v.has .nonNull = true) :
    w.has .nonNull = true := by
  have hrank : w.rank .nullness = min (lowestRank vs .nullness) (v.rank .nullness) :=
    (congrArg (rank? · .nullness) h).symm.trans (rank?_refineBy (some v) vs .nullness)
  rw [has_nonNull_iff, hrank, has_nonNull_iff.1 hv, Nat.min_zero]

theorem exists_of_has_refineBy (hknown : KnownNormalized known) (hvs : ∀ v ∈ vs, v.Normalized)
    (h : refineBy known vs = some w) (hq : w.has q = true) :
    (∃ v, known = some v ∧ v.has q = true) ∨ ∃ v ∈ vs, v.has q = true := by
  induction vs using List.reverseRecOn generalizing w with
  | nil => exact Or.inl ⟨w, h, hq⟩
  | append_singleton vs v ih =>
    have hearlier : ∀ u ∈ vs, u.Normalized := fun u hu => hvs u (List.mem_append_left _ hu)
    have hw : w.Normalized := knownNormalized_refineBy hknown hvs w h
    have hv : v.Normalized := hvs v (by simp)
    rw [refineBy_concat] at h
    have hsharper : sharperQualifier (v.qualifier? q.hierarchy)
        ((refineBy known vs).bind (·.qualifier? q.hierarchy)) = some q := by
      rw [← qualifier?_moreSpecific?, h]
      exact (has_iff_qualifier? hw q).1 hq
    rcases eq_of_sharperQualifier hsharper with hlast | hbefore
    · exact Or.inr ⟨v, by simp, (has_iff_qualifier? hv q).2 hlast⟩
    · obtain ⟨u, hu, huq⟩ := Option.bind_eq_some_iff.1 hbefore
      have hunormal : u.Normalized := knownNormalized_refineBy hknown hearlier u hu
      rcases ih hearlier hu ((has_iff_qualifier? hunormal q).2 huq) with hfirst | ⟨x, hx, hxq⟩
      · exact Or.inl hfirst
      · exact Or.inr ⟨x, List.mem_append_left _ hx, hxq⟩

theorem isSome_lub?_refineBy (h : known.isSome = true) (vs ws : List Value) :
    (lub? (refineBy known vs) (refineBy known ws)).isSome = true := by
  have hknown : ∀ values, (refineBy known values).isSome = true := fun values => by
    rw [isSome_refineBy, h]
    rfl
  obtain ⟨v, hv⟩ := Option.isSome_iff_exists.1 (hknown vs)
  obtain ⟨w, hw⟩ := Option.isSome_iff_exists.1 (hknown ws)
  rw [hv, hw]
  rfl

theorem rank?_lub?_refineBy_le (known : Option Value) (vs ws : List Value) (h : Hierarchy) :
    rank? (lub? (refineBy known vs) (refineBy known ws)) h ≤ rank? known h := by
  rw [rank?_lub?, rank?_refineBy, rank?_refineBy]
  omega

/-- Values of one type leave that type, unless the type that was known is below it. -/
theorem ty_refineBy (hty : ∀ v ∈ vs, v.ty = ty) (hne : vs ≠ []) :
    (refineBy known vs).map (·.ty) =
      some (known.elim ty fun v => v.ty.refinedBy ty) := by
  induction vs using List.reverseRecOn with
  | nil => exact absurd rfl hne
  | append_singleton vs v ih =>
    have hv : v.ty = ty := hty v (by simp)
    rw [refineBy_concat]
    by_cases hvs : vs = []
    · subst hvs
      cases known with
      | none => exact congrArg some hv
      | some w => exact congrArg some (hv ▸ ty_refine w v)
    · have hearlier := ih (fun w hw => hty w (List.mem_append_left _ hw)) hvs
      obtain ⟨w, hw, hwty⟩ := Option.map_eq_some_iff.1 hearlier
      have hbelow : w.ty.Below ty := by
        rw [hwty]
        cases known with
        | none => exact Ty.lub_self ty
        | some u =>
          simp only [Option.elim_some, Ty.refinedBy]
          split
          · assumption
          · exact Ty.lub_self ty
      rw [← hwty, hw]
      have hkept : (w.refine v).ty = w.ty := by rw [ty_refine, hv, if_pos hbelow]
      exact congrArg some hkept

theorem refineBy_toList (known : Option Value) (vs : List Value) :
    refineBy none (known.toList ++ vs) = refineBy known vs := by
  cases known <;> rfl

/-- All types of some values compare. -/
def TypesCompare (vs : List Value) : Prop := ∀ v ∈ vs, ∀ w ∈ vs, v.ty.Comparable w.ty

/-- A type is the lowest among those of some values. -/
def LowestType (t : Ty) (vs : List Value) : Prop :=
  (∀ v ∈ vs, t.Below v.ty) ∧ ∃ v ∈ vs, t = v.ty

theorem TypesCompare.mono (h : TypesCompare ws) (hsub : ∀ v ∈ vs, ∃ w ∈ ws, v.ty = w.ty) :
    TypesCompare vs := by
  intro v hv w hw
  obtain ⟨v', hv', hvv'⟩ := hsub v hv
  obtain ⟨w', hw', hww'⟩ := hsub w hw
  rw [hvv', hww']
  exact h v' hv' w' hw'

/-- Where all types compare, refining leaves the lowest of them. -/
theorem lowestType_refineBy (hchain : TypesCompare vs) (h : refineBy none vs = some w) :
    LowestType w.ty vs := by
  induction vs using List.reverseRecOn generalizing w with
  | nil => cases h
  | append_singleton vs v ih =>
    have hlast : v ∈ vs ++ [v] := by simp
    have hearlier : ∀ u ∈ vs, u ∈ vs ++ [v] := fun u => List.mem_append_left _
    rw [refineBy_concat] at h
    cases hbefore : refineBy none vs with
    | none =>
      have hempty : vs = [] := by
        have hsome := isSome_refineBy none vs
        rw [hbefore] at hsome
        simpa using hsome
      subst hempty
      cases h
      simp [LowestType, Ty.Below]
    | some u =>
      obtain ⟨hlow, u', hu', hty⟩ := ih
        (hchain.mono fun a ha => ⟨a, hearlier a ha, rfl⟩) hbefore
      rw [hbefore] at h
      have hw : w.ty = if u.ty.Below v.ty then u.ty else v.ty :=
        (congrArg ty (Option.some.inj h)).symm.trans (ty_refine u v)
      rw [hw]
      split
      · next hbelow =>
        refine ⟨fun a ha => ?_, u', hearlier u' hu', hty⟩
        rcases List.mem_append.1 ha with ha | ha
        · exact hlow a ha
        · exact List.mem_singleton.1 ha ▸ hbelow
      · next hnot =>
        have habove : v.ty.Below u.ty :=
          hty ▸ (hchain v hlast u' (hearlier u' hu')).resolve_right (hty ▸ hnot)
        refine ⟨fun a ha => ?_, v, hlast, rfl⟩
        rcases List.mem_append.1 ha with ha | ha
        · exact habove.trans (hlow a ha)
        · exact List.mem_singleton.1 ha ▸ Ty.lub_self v.ty

theorem known_append_subset (hsub : vs ⊆ ws) (known : Option Value) :
    known.toList ++ vs ⊆ known.toList ++ ws :=
  List.append_subset.2 ⟨List.subset_append_left _ _,
    List.Subset.trans hsub (List.subset_append_right _ _)⟩

theorem TypesCompare.lowestType (hchain : TypesCompare (known.toList ++ ws)) (hsub : vs ⊆ ws)
    (h : refineBy known vs = some w) : LowestType w.ty (known.toList ++ vs) :=
  lowestType_refineBy (hchain.mono fun v hv => ⟨v, known_append_subset hsub known hv, rfl⟩)
    ((refineBy_toList known vs).trans h)

theorem ty_of_refineBy_none (hty : ∀ v ∈ vs, v.ty = ty) (h : refineBy none vs = some w) :
    w.ty = ty := by
  have hne : vs ≠ [] := by
    rintro rfl
    cases h
  have htype : (refineBy none vs).map (·.ty) = some ty := ty_refineBy hty hne
  rw [h] at htype
  exact Option.some.inj htype

theorem ty_of_refineBy_some (hty : ∀ v ∈ vs, v.ty = ty) (h : refineBy (some v) vs = some w) :
    w.ty = if vs = [] then v.ty else v.ty.refinedBy ty := by
  split
  · next hnil =>
    subst hnil
    cases h
    rfl
  · next hne =>
    have htype : (refineBy (some v) vs).map (·.ty) = some (v.ty.refinedBy ty) :=
      ty_refineBy hty hne
    rw [h] at htype
    exact Option.some.inj htype

end Value

/-! ### Refining a store -/

namespace Store

variable {s t : Store} {r : Receiver} {facts : List (Receiver × Value)}

/-- What some facts say of a receiver, as far as the store takes it in. -/
def brought (s : Store) (facts : List (Receiver × Value)) (r : Receiver) : List Value :=
  (facts.filter fun fact => SameSlot r fact.1 ∧ s.tracks fact.1 = true).map (·.2)

theorem mem_brought {v : Value} : v ∈ s.brought facts r ↔
    ∃ fact ∈ facts, (SameSlot r fact.1 ∧ s.tracks fact.1 = true) ∧ fact.2 = v := by
  simp [brought, and_assoc]

theorem brought_ne_nil_iff : s.brought facts r ≠ [] ↔
    ∃ fact ∈ facts, SameSlot r fact.1 ∧ s.tracks fact.1 = true := by
  simp [brought, List.filter_eq_nil_iff]

theorem brought_congr (h : s.sequential = t.sequential) (facts : List (Receiver × Value))
    (r : Receiver) : s.brought facts r = t.brought facts r := by
  simp only [brought, tracks_congr h]

theorem brought_concat (fact : Receiver × Value) : s.brought (facts ++ [fact]) r =
    s.brought facts r ++ if SameSlot r fact.1 ∧ s.tracks fact.1 = true then [fact.2] else [] := by
  simp only [brought, List.filter_append, List.map_append]
  split <;> simp_all

theorem value?_refineAll (s : Store) (facts : List (Receiver × Value)) (r : Receiver) :
    (Setting.refineAll s facts).value? r = Value.refineBy (s.value? r) (s.brought facts r) := by
  induction facts using List.reverseRecOn with
  | nil => rfl
  | append_singleton facts fact ih =>
    have hflag : (Setting.refineAll s facts).sequential = s.sequential :=
      sequential_refineAll s facts
    rw [refineAll_concat, value?_refine, ih, tracks_congr hflag]
    by_cases hboth : SameSlot r fact.1 ∧ s.tracks fact.1 = true
    · rw [if_pos hboth, brought_concat, if_pos hboth, Value.refineBy_concat]
    · rw [if_neg hboth, brought_concat, if_neg hboth, List.append_nil]

end Store

end FlowTyping
