import FlowTyping.Proofs.Contract.Refinement

/-!
# Contracts that are applied again

The contracts of a call refine what the call has left, first those that hold in any case and then,
in a branch of its own, those for each outcome. When the branches are joined and the call is
repeated, each branch ends up with the qualifiers that it had: joining gives up no more than the
contracts bring back, `Value.qualifiers_refineBy_again`. Types are not as lucky. A branch of which
no contract speaks has no way back from the supertype at which a type joins with one that does not
compare: `Value.ty_refineBy_again_iff`.
-/

namespace FlowTyping

open Value (KnownNormalized)

namespace Value

variable {before after joined : Option Value} {always this other : List Value} {v w : Value}
  {ty : Ty}

/-- What a call leaves of what its first run ended with, against what the first run had left: no
more than there was, of the type that it had, and nothing that was there is gone. -/
structure Survives (before joined after : Option Value) : Prop where
  sound : after.isSome = true → joined.isSome = true
  kept : before.isSome = true → after.isSome = true
  ty : ∀ v w, after = some v → joined = some w → v.ty = w.ty

/-- A hierarchy is only lost where the first run had lost it as well. -/
def RanksSurvive (before joined after : Option Value) : Prop :=
  ∀ h, rank? after h = rank? joined h ∨ rank? before h = 3 ∧ rank? after h = 3

namespace Survives

theorem self (hsome : before.isSome = true → joined.isSome = true) :
    Survives before joined joined where
  sound := id
  kept := hsome
  ty v w hv hw := by
    rw [hv] at hw
    exact congrArg Value.ty (Option.some.inj hw)

theorem none (joined : Option Value) : Survives none joined none where
  sound h := by cases h
  kept h := by cases h
  ty v w hv _ := by cases hv

end Survives

theorem other_subset (always this other : List Value) : always ++ other ⊆ always ++ this ++ other :=
  List.append_subset.2 ⟨fun _ hv => List.mem_append_left _ (List.mem_append_left _ hv),
    List.subset_append_right _ _⟩

theorem rank?_refineBy_again (hranks : RanksSurvive before
      (lub? (refineBy before (always ++ this)) (refineBy before (always ++ other))) after)
    (h : Hierarchy) :
    rank? (refineBy after (always ++ this)) h = rank? (refineBy before (always ++ this)) h := by
  have hrank := hranks h
  rw [rank?_lub?] at hrank
  simp only [refineBy_append, rank?_refineBy] at hrank ⊢
  omega

section Again

variable (hsurvives : Survives before
    (lub? (refineBy before (always ++ this)) (refineBy before (always ++ other))) after)

include hsurvives

theorem isSome_refineBy_again :
    (refineBy after (always ++ this)).isSome = (refineBy before (always ++ this)).isSome := by
  rw [isSome_refineBy, isSome_refineBy]
  have hkept := hsurvives.kept
  have hjoined := hsurvives.sound
  cases hb : before.isSome with
  | true => rw [hkept hb]
  | false =>
    cases ha : after.isSome with
    | false => rfl
    | true =>
      have hboth : (refineBy before (always ++ this)).isSome = true := by
        cases hthis : refineBy before (always ++ this) with
        | none =>
          rw [hthis] at hjoined
          exact absurd (hjoined ha) (by simp [lub?])
        | some v => rfl
      rw [isSome_refineBy, hb] at hboth
      exact hboth.symm

theorem ty_of_survives (hw : after = some w) :
    ∃ t e, refineBy before (always ++ this) = some t ∧
      refineBy before (always ++ other) = some e ∧ w.ty = t.ty.lub e.ty := by
  obtain ⟨j, hj⟩ := Option.isSome_iff_exists.1 (hsurvives.sound (congrArg Option.isSome hw))
  have hwty : w.ty = j.ty := hsurvives.ty w j hw hj
  cases ht : refineBy before (always ++ this) with
  | none => rw [ht] at hj; cases hj
  | some t =>
    cases he : refineBy before (always ++ other) with
    | none => rw [ht, he] at hj; cases hj
    | some e =>
      rw [ht, he] at hj
      exact ⟨t, e, rfl, rfl, hwty.trans (congrArg Value.ty (Option.some.inj hj)).symm⟩

theorem exists_of_survives (hsome : before = some v) :
    ∃ t e w, refineBy before (always ++ this) = some t ∧
      refineBy before (always ++ other) = some e ∧ after = some w ∧ w.ty = t.ty.lub e.ty := by
  obtain ⟨w, hw⟩ := Option.isSome_iff_exists.1 (hsurvives.kept (congrArg Option.isSome hsome))
  obtain ⟨t, e, ht, he, hty⟩ := ty_of_survives hsurvives hw
  exact ⟨t, e, w, ht, he, hw, hty⟩

theorem ty_of_survives_none (hty : ∀ v ∈ always ++ this ++ other, v.ty = ty)
    (hnone : before = none) (hw : after = some w) : w.ty = ty := by
  obtain ⟨t, e, ht, he, hjoin⟩ := ty_of_survives hsurvives hw
  rw [hnone] at ht he
  have htty : t.ty = ty := ty_of_refineBy_none (fun v hv => hty v (List.mem_append_left _ hv)) ht
  have hety : e.ty = ty := by
    refine ty_of_refineBy_none (fun v hv => hty v ?_) he
    simp only [List.mem_append] at hv ⊢
    tauto
  rw [hjoin, htty, hety, Ty.lub_self]

/-- The type of a branch that the contracts speak of is the same again. -/
theorem ty_refineBy_again_of_ne (hty : ∀ v ∈ always ++ this ++ other, v.ty = ty)
    (hne : always ++ this ≠ []) :
    (refineBy after (always ++ this)).map (·.ty) =
      (refineBy before (always ++ this)).map (·.ty) := by
  have hthis : ∀ v ∈ always ++ this, v.ty = ty := fun v hv => hty v (List.mem_append_left _ hv)
  rw [ty_refineBy hthis hne, ty_refineBy hthis hne]
  congr 1
  cases hb : before with
  | none =>
    cases ha : after with
    | none => rfl
    | some w =>
      have hw : w.ty = ty := ty_of_survives_none hsurvives hty hb ha
      rw [Option.elim_some, hw]
      exact if_pos (Ty.lub_self ty)
  | some b =>
    obtain ⟨t, e, w, ht, he, rfl, hw⟩ := exists_of_survives hsurvives hb
    have hother : ∀ v ∈ always ++ other, v.ty = ty := by
      intro v hv
      refine hty v ?_
      simp only [List.mem_append] at hv ⊢
      tauto
    rw [hb] at ht he
    have htty := ty_of_refineBy_some hthis ht
    have hety := ty_of_refineBy_some hother he
    rw [if_neg hne] at htty
    rw [Option.elim_some, Option.elim_some, hw, htty]
    by_cases hbelow : b.ty.Below ty
    · -- A type that is below that of the contracts stays, in both branches.
      have hkept : b.ty.refinedBy ty = b.ty := if_pos hbelow
      rw [hkept, ite_self] at hety
      rw [hkept, hety, Ty.lub_self, hkept]
    · have hlost : b.ty.refinedBy ty = ty := if_neg hbelow
      rw [hlost]
      unfold Ty.refinedBy
      split
      · next hback => exact hback.antisymm (Ty.below_lub_left ty e.ty)
      · rfl

/-- A branch that no contract speaks of keeps its type if no contract speaks of the other branch
either, or if the type that came in there compares with the one that was known. -/
theorem ty_survives_iff (hty : ∀ v ∈ other, v.ty = ty) (hspoken : always ++ this = []) :
    after.map (·.ty) = before.map (·.ty) ↔
      ∀ v, before = some v → other ≠ [] → ty.Comparable v.ty := by
  have hsome := isSome_refineBy_again hsurvives
  obtain ⟨rfl, rfl⟩ := List.append_eq_nil_iff.1 hspoken
  cases hb : before with
  | none =>
    have hafter : after = none := by simpa [hb, refineBy] using hsome
    simp [hafter]
  | some v =>
    obtain ⟨t, e, w, ht, he, rfl, hw⟩ := exists_of_survives hsurvives hb
    rw [hb] at ht he
    obtain rfl : v = t := Option.some.inj ht
    have hety := ty_of_refineBy_some hty he
    simp only [Option.map_some, hw, Option.some.injEq, hety, forall_eq']
    by_cases hother : other = []
    · simp [hother]
    · simp only [hother, if_false, ne_eq, not_false_eq_true, forall_const]
      by_cases hbelow : v.ty.Below ty
      · have hkept : v.ty.refinedBy ty = v.ty := if_pos hbelow
        rw [hkept]
        exact iff_of_true (Ty.lub_self _) (Or.inr hbelow)
      · have hlost : v.ty.refinedBy ty = ty := if_neg hbelow
        rw [hlost, Ty.lub_comm]
        exact ⟨Or.inl, fun hcompares => hcompares.resolve_right hbelow⟩

theorem exists_ty_of_survives (hchain : TypesCompare (before.toList ++ (always ++ this ++ other)))
    (hw : after = some w) :
    ∃ v ∈ before.toList ++ (always ++ this ++ other), w.ty = v.ty := by
  obtain ⟨t, e, ht, he, hty⟩ := ty_of_survives hsurvives hw
  obtain ⟨-, x, hx, htx⟩ := hchain.lowestType (List.subset_append_left _ _) ht
  obtain ⟨-, y, hy, hey⟩ := hchain.lowestType (other_subset always this other) he
  have hx' : x ∈ before.toList ++ (always ++ this ++ other) :=
    known_append_subset (List.subset_append_left _ _) before hx
  have hy' : y ∈ before.toList ++ (always ++ this ++ other) :=
    known_append_subset (other_subset always this other) before hy
  rw [htx, hey] at hty
  rcases hchain x hx' y hy' with hxy | hyx
  · exact ⟨y, hy', hty.trans hxy⟩
  · exact ⟨x, hx', hty.trans ((Ty.lub_comm _ _).trans hyx)⟩

/-- The type of a branch is the same again if all types that were known before or that the contracts
bring compare. -/
theorem ty_refineBy_again_of_compare
    (hchain : TypesCompare (before.toList ++ (always ++ this ++ other))) :
    (refineBy after (always ++ this)).map (·.ty) =
      (refineBy before (always ++ this)).map (·.ty) := by
  have hsome := isSome_refineBy_again hsurvives
  cases hfirst : refineBy before (always ++ this) with
  | none =>
    rw [hfirst] at hsome
    rw [Option.isNone_iff_eq_none.1 (Option.isSome_eq_false_iff.1 hsome)]
  | some v =>
    obtain ⟨a, ha⟩ := Option.isSome_iff_exists.1 (hsome.trans (congrArg Option.isSome hfirst))
    obtain ⟨hvlow, x, hx, hvx⟩ := hchain.lowestType (List.subset_append_left _ _) hfirst
    have hagain : TypesCompare (after.toList ++ (always ++ this)) := hchain.mono fun u hu => by
      rcases List.mem_append.1 hu with hu | hu
      · exact exists_ty_of_survives hsurvives hchain (Option.mem_toList.1 hu)
      · exact ⟨u, List.mem_append_right _ (List.mem_append_left _ hu), rfl⟩
    obtain ⟨halow, z, hz, haz⟩ := hagain.lowestType (List.Subset.refl _) ha
    rw [ha, Option.map_some, Option.map_some]
    refine congrArg some (Ty.Below.antisymm ?_ ?_)
    · rw [hvx]
      rcases List.mem_append.1 hx with hx | hx
      · -- The lowest type is the one that was known, so the other branch is no higher.
        obtain ⟨t, e, u, ht, he, hu, huty⟩ := exists_of_survives hsurvives (Option.mem_toList.1 hx)
        obtain rfl : v = t := Option.some.inj (hfirst.symm.trans ht)
        have hex : e.ty.Below x.ty := (hchain.lowestType (other_subset always this other) he).1 x
          (List.mem_append_left _ hx)
        have hux : u.ty = x.ty := by
          rw [huty, hvx, Ty.lub_comm]
          exact hex
        exact hux ▸ halow u (List.mem_append_left _ (Option.mem_toList.2 hu))
      · exact halow x (List.mem_append_right _ hx)
    · rw [haz]
      rcases List.mem_append.1 hz with hz | hz
      · obtain ⟨t, e, ht, -, hzty⟩ := ty_of_survives hsurvives (Option.mem_toList.1 hz)
        obtain rfl : v = t := Option.some.inj (hfirst.symm.trans ht)
        rw [hzty]
        exact Ty.below_lub_left v.ty e.ty
      · exact hvlow z (List.mem_append_right _ hz)

/-- Repeating a call gives each branch the qualifiers that it had, if no hierarchy is lost. -/
theorem qualifiers_refineBy_again (hbefore : KnownNormalized before)
    (hafter : KnownNormalized after) (hvalues : ∀ v ∈ always ++ this, v.Normalized)
    (hranks : RanksSurvive before
      (lub? (refineBy before (always ++ this)) (refineBy before (always ++ other))) after) :
    (refineBy after (always ++ this)).map (·.qualifiers) =
      (refineBy before (always ++ this)).map (·.qualifiers) :=
  map_qualifiers_eq (knownNormalized_refineBy hbefore hvalues)
    (knownNormalized_refineBy hafter hvalues) (isSome_refineBy_again hsurvives)
    (rank?_refineBy_again hranks)

/-- If the contracts bring one type, repeating a call gives each branch the type that it had, unless
only contracts for the other outcome speak of the receiver and the type that is known does not
compare with theirs. -/
theorem ty_refineBy_again_iff (hty : ∀ v ∈ always ++ this ++ other, v.ty = ty) :
    (refineBy after (always ++ this)).map (·.ty) =
        (refineBy before (always ++ this)).map (·.ty) ↔
      ∀ v, refineBy before (always ++ this) = some v → other ≠ [] →
        always ++ this ≠ [] ∨ ty.Comparable v.ty := by
  by_cases hne : always ++ this ≠ []
  · exact iff_of_true (ty_refineBy_again_of_ne hsurvives hty hne) fun _ _ _ => Or.inl hne
  · have hspoken : always ++ this = [] := not_not.1 hne
    have hself : ∀ known : Option Value, refineBy known (always ++ this) = known :=
      fun known => congrArg (refineBy known) hspoken
    rw [hself, hself, ty_survives_iff hsurvives
      (fun v hv => hty v (List.mem_append_right _ hv)) hspoken]
    simp [hspoken]

end Again

/-! ### Where only a target is left -/

/-- Where a call leaves only that a value is not null, of what its first run ended with, the
contracts bring the qualifiers of a branch back exactly if they bring all others that it had. -/
theorem qualifiers_refineBy_target {values : List Value} (hbefore : KnownNormalized before)
    (hvalues : ∀ v ∈ values, v.Normalized) (hv : refineBy before values = some v)
    (hw : refineBy (some (.of ty [.nonNull])) values = some w)
    (hnonNull : v.has .nonNull = true) :
    w.qualifiers = v.qualifiers ↔
      ∀ q, v.has q = true → q = .nonNull ∨ ∃ u ∈ values, u.has q = true := by
  have htarget : KnownNormalized (some (.of ty [.nonNull])) := (normalized_of _ _).known
  have hvnormal : v.Normalized := knownNormalized_refineBy hbefore hvalues v hv
  have hwnormal : w.Normalized := knownNormalized_refineBy htarget hvalues w hw
  constructor
  · intro hsame q hq
    have hwq : w.has q = true := by
      rw [has, hsame]
      exact hq
    rcases exists_of_has_refineBy htarget hvalues hw hwq with ⟨u, hu, huq⟩ | hbrought
    · obtain rfl := Option.some.inj hu
      exact Or.inl (List.mem_singleton.1 (has_of.1 huq).1)
    · exact Or.inr hbrought
  · intro hbrought
    refine qualifiers_eq_of_rank hwnormal hvnormal fun h => ?_
    have hvrank : v.rank h = min (lowestRank values h) (rank? before h) := by
      have hrank := rank?_refineBy before values h
      rw [hv] at hrank
      exact hrank
    have hwrank : w.rank h = min (lowestRank values h) (if h = .nullness then 0 else 3) := by
      have hrank := rank?_refineBy (some (.of ty [.nonNull])) values h
      rw [hw] at hrank
      exact hrank.trans (congrArg _ (rank_of_nonNull ty h))
    have hle : lowestRank values h ≤ 3 := rank?_le _ h
    by_cases hnullness : h = .nullness
    · rw [hwrank, if_pos hnullness, hnullness, has_nonNull_iff.1 hnonNull, Nat.min_zero]
    · rw [if_neg hnullness] at hwrank
      -- What the branch had of another hierarchy is among what the contracts bring.
      have hlowest : lowestRank values h ≤ v.rank h := by
        rcases Nat.lt_or_ge (v.rank h) 3 with hlt | hge
        · obtain ⟨q, rfl, hq⟩ := exists_has_of_rank_lt hvnormal hlt
          rcases hbrought q hq with rfl | ⟨u, hu, huq⟩
          · exact absurd rfl hnullness
          · rw [rank_eq_of_has hvnormal (hvalues u hu) hq huq]
            exact lowestRank_le hu q.hierarchy
        · exact Nat.le_trans hle hge
      omega

end Value

end FlowTyping
