import FlowTyping.Proofs.Store.Semilattice

/-!
# Normalized stores

A value is normalized when it has at most one qualifier in each hierarchy. A value that is built
from a list of qualifiers is: it keeps the most specific one of each hierarchy. Joins and
refinements of values are normalized, whatever is joined or refined, so that an operation on a
store can only bring in a second qualifier of a hierarchy with a value of its own:
`Store.Normalized.apply`.
-/

namespace FlowTyping

namespace QualifierSet

theorem strongest?_eq_some {s : QualifierSet} {p : Qualifier} :
    s.strongest? p.hierarchy = some p ↔ s.contains p = true ∧
      ∀ q, s.contains q = true → q.hierarchy = p.hierarchy → p.isSubtype q = true := by
  have hquantified : (∀ q, s.contains q = true → q.hierarchy = p.hierarchy →
      p.isSubtype q = true) ↔ ∀ q ∈ Qualifier.all, s.contains q = true →
        q.hierarchy = p.hierarchy → p.isSubtype q = true :=
    ⟨fun h q _ => h q, fun h q => h q q.mem_all⟩
  rw [hquantified]
  clear hquantified
  obtain ⟨a, b, c, d, e⟩ := s
  revert a b c d e
  cases p <;> decide

theorem isSome_strongest? {s : QualifierSet} {q : Qualifier} (hq : s.contains q = true) :
    (s.strongest? q.hierarchy).isSome = true := by
  rw [strongest?, List.find?_isSome]
  exact ⟨q, mem_toList.2 hq, decide_eq_true rfl⟩

end QualifierSet

namespace Value

/-- A value that may be unknown is normalized if it is known. -/
def KnownNormalized (v : Option Value) : Prop := ∀ a, v = some a → a.Normalized

variable {v w : Option Value}

theorem knownNormalized_none : KnownNormalized none := fun _ ha => by cases ha

theorem Normalized.known {a : Value} (h : a.Normalized) : KnownNormalized (some a) :=
  fun _ hb => Option.some.inj hb ▸ h

theorem knownNormalized_of? (ty : Ty) (qualifiers : List Qualifier) :
    KnownNormalized (of? ty qualifiers) :=
  fun _ ha => normalized_of? ha

theorem knownNormalized_lub? (v w : Option Value) : KnownNormalized (lub? v w) := by
  cases v with
  | none => exact knownNormalized_none
  | some a =>
    cases w with
    | none => exact knownNormalized_none
    | some b => exact (normalized_lub a b).known

theorem KnownNormalized.moreSpecific? (hv : KnownNormalized v) (hw : KnownNormalized w) :
    KnownNormalized (moreSpecific? v w) := by
  cases v with
  | none => exact hw
  | some a =>
    cases w with
    | none => exact hv
    | some b => exact (normalized_mostSpecific a b a).known

theorem has_iff_qualifier? {a : Value} (h : a.Normalized) (q : Qualifier) :
    a.has q = true ↔ a.qualifier? q.hierarchy = some q := by
  rw [has, normalized_iff.1 h, QualifierSet.choose, QualifierSet.contains_ofPred]
  exact decide_eq_true_iff

/-- A value is normalized exactly if it has at most one qualifier in each hierarchy. -/
theorem normalized_iff_unique {a : Value} :
    a.Normalized ↔ ∀ p q, a.has p = true → a.has q = true → p.hierarchy = q.hierarchy → p = q := by
  constructor
  · intro h p q hp hq hsame
    rw [has_iff_qualifier? h, hsame] at hp
    rw [has_iff_qualifier? h] at hq
    exact Option.some.inj (hp.symm.trans hq)
  · intro h
    refine (QualifierSet.ext_contains fun q => ?_ : a.qualifiers.normalize = a.qualifiers)
    rw [QualifierSet.normalize, QualifierSet.choose, QualifierSet.contains_ofPred,
      Bool.eq_iff_iff, decide_eq_true_iff, QualifierSet.strongest?_eq_some]
    exact ⟨And.left, fun hq => ⟨hq, fun r hr hsame => h r q hr hq hsame ▸ r.isSubtype_refl⟩⟩

/-- A value that is built from a list keeps those qualifiers that are at or below every listed one
of their hierarchy. -/
theorem has_of {ty : Ty} {qualifiers : List Qualifier} {p : Qualifier} :
    (of ty qualifiers).has p = true ↔ p ∈ qualifiers ∧
      ∀ q ∈ qualifiers, q.hierarchy = p.hierarchy → p.isSubtype q = true := by
  rw [has_iff_qualifier? (normalized_of ty qualifiers), qualifier?_of,
    QualifierSet.strongest?_eq_some]
  simp only [QualifierSet.contains_ofList, List.contains_iff_mem]

theorem exists_has_of (ty : Ty) {qualifiers : List Qualifier} {q : Qualifier}
    (hq : q ∈ qualifiers) : ∃ p, (of ty qualifiers).has p = true ∧ p.hierarchy = q.hierarchy := by
  have hlisted : (QualifierSet.ofList qualifiers).contains q = true := by
    rw [QualifierSet.contains_ofList]
    exact List.contains_iff_mem.2 hq
  obtain ⟨p, hp⟩ := Option.isSome_iff_exists.1 (QualifierSet.isSome_strongest? hlisted)
  have hsame : p.hierarchy = q.hierarchy := QualifierSet.hierarchy_of_strongest? hp
  refine ⟨p, ?_, hsame⟩
  rw [has_iff_qualifier? (normalized_of ty qualifiers), qualifier?_of, hsame, hp]

end Value

open Value (KnownNormalized knownNormalized_none)

namespace StoreOp

/-- The values that an operation brings along are normalized. The other store of a join may be any
store. -/
def Normalized : StoreOp → Prop
  | insert _ v => v.Normalized
  | refine _ v => v.Normalized
  | replace _ v => KnownNormalized v
  | setParameter _ v => KnownNormalized v
  | setThis v => KnownNormalized v
  | assign _ v => KnownNormalized v
  | call _ _ v => KnownNormalized v
  | mapFields f => ∀ r v w, v.Normalized → f r v = some w → w.Normalized
  | _ => True

end StoreOp

theorem Store.normalized_lub (s t : Store) : (s.lub t).Normalized := by
  intro slot w hw
  rw [known_lub] at hw
  exact Value.knownNormalized_lub? _ _ w hw

namespace Store.Normalized

variable {s t : Store} {oracle : StoreOracle}

theorem value? (h : s.Normalized) (r : Receiver) : KnownNormalized (s.value? r) := by
  rw [value?_eq_known]
  exact h r.slot

theorem set (h : s.Normalized) (r : Receiver) {v : Option Value} (hv : KnownNormalized v) :
    (s.put r v).Normalized := by
  intro slot w hw
  rw [known_put] at hw
  split at hw
  · exact hv w hw
  · exact h slot w hw

theorem mapFacts (h : s.Normalized) {f : Receiver → Value → Option Value}
    (hf : ∀ r v w, v.Normalized → f r v = some w → w.Normalized) : (s.mapFacts f).Normalized := by
  intro slot w hw
  rw [known_mapFacts, Option.bind_eq_some_iff] at hw
  obtain ⟨v, hv, hw⟩ := hw
  cases slot with
  | none => exact Option.some.inj hw ▸ h none v hv
  | some r => exact hf r v w (h (some r) v hv) hw

theorem retain (h : s.Normalized) (keep : Receiver → Bool) : (s.retain keep).Normalized :=
  h.mapFacts fun r v w hv hw => by
    split at hw
    · exact Option.some.inj hw ▸ hv
    · cases hw

theorem insert (h : s.Normalized) (r : Receiver) {v : Value} (hv : v.Normalized) :
    (s.insert r v).Normalized := by
  rw [Store.insert]
  split
  · exact h.set r hv.known
  · exact h

theorem refine (h : s.Normalized) (r : Receiver) {v : Value} (hv : v.Normalized) :
    (s.refine r v).Normalized := by
  rw [refine_eq]
  split
  · exact h.set r (hv.known.moreSpecific? (h.value? r))
  · exact h

theorem replace (h : s.Normalized) (r : Receiver) {v : Option Value} (hv : KnownNormalized v) :
    (s.replace r v).Normalized := by
  have hclear : (s.clear r).Normalized := h.set r knownNormalized_none
  cases v with
  | none => exact hclear
  | some v => exact hclear.insert r (hv v rfl)

/-- A write weakens facts by joining them, and records the written value. -/
theorem assign (h : s.Normalized) (oracle : StoreOracle) (target : Receiver) {value : Option Value}
    (hv : KnownNormalized value) : (s.assign oracle target value).Normalized := by
  by_cases hlocal : ∃ x, target = .localVariable x
  · obtain ⟨x, rfl⟩ := hlocal
    exact (h.retain _).set _ hv
  · cases hheap : target.isHeapLocation with
    | false =>
      rw [assign_of_untracked (fun x he => hlocal ⟨x, he⟩) hheap]
      exact h.retain _
    | true =>
      have hkept : (s.keptByWrite oracle target value).Normalized := by
        cases target with
        | field base f =>
          refine h.mapFacts fun r old w hold hw => ?_
          by_cases hr : ∃ base' f', r = .field base' f'
          · obtain ⟨base', f', rfl⟩ := hr
            rw [afterFieldWrite] at hw
            split at hw
            · cases hw
            · split at hw
              · obtain ⟨v, -, rfl⟩ := Option.map_eq_some_iff.1 hw
                exact Value.normalized_lub v old
              · exact Option.some.inj hw ▸ hold
          · rw [afterFieldWrite_of_ne fun base' f' he => hr ⟨base', f', he⟩] at hw
            split at hw
            · cases hw
            · exact Option.some.inj hw ▸ hold
        | _ => exact h.retain _
      rw [assign_heapLocation hheap]
      split
      · exact hkept.set target hv
      · exact hkept

theorem afterCall (h : s.Normalized)
    (horacle : ∀ f v w, oracle.monotonicRetained f v = some w → w.Normalized) :
    (s.mapFacts (Store.afterCall oracle)).Normalized := by
  refine h.mapFacts fun r old w hold hw => ?_
  cases r with
  | field base f =>
    rw [Store.afterCall] at hw
    cases hretained : oracle.monotonicRetained f old with
    | some kept =>
      rw [hretained] at hw
      exact Option.some.inj hw ▸ horacle f old kept hretained
    | none =>
      simp only [hretained] at hw
      split at hw
      · exact Option.some.inj hw ▸ hold
      · cases hw
  | array ty base index => cases hw
  | call ty m base arguments => cases hw
  | _ => exact Option.some.inj hw ▸ hold

theorem apply (h : s.Normalized)
    (horacle : ∀ f v w, oracle.monotonicRetained f v = some w → w.Normalized) (op : StoreOp)
    (hop : op.Normalized) : (op.apply oracle s).Normalized := by
  cases op with
  | insert r v => exact h.insert r hop
  | refine r v => exact h.refine r hop
  | clear r => exact h.set r knownNormalized_none
  | replace r v => exact h.replace r hop
  | setParameter x v =>
    cases v with
    | none => exact h
    | some v => exact h.set _ hop
  | setThis v =>
    cases v with
    | none => exact h
    | some v => exact h.set (.this .object) hop
  | assign target value => exact h.assign oracle target hop
  | call r sideEffectFree result =>
    cases sideEffectFree with
    | true => exact h.replace r hop
    | false => exact (h.afterCall horacle).replace r hop
  | lub other => exact normalized_lub s other
  | widen previous => exact normalized_lub s previous
  | withoutTransient => exact h.retain _
  | mapFields f =>
    refine h.mapFacts fun r v w hv hw => ?_
    cases r with
    | field base g => exact hop _ v w hv hw
    | _ => exact Option.some.inj hw ▸ hv

end Store.Normalized

end FlowTyping
