import FlowTyping.Proofs.EntryStore.Facts
import FlowTyping.Proofs.Value.Rank
import Mathlib.Data.List.Induction

/-!
# Contracts as a greatest lower bound

Contracts refine a store one after the other, yet their order does not show. What is known of a
tracked receiver in a hierarchy afterwards is the most specific of what was known before and what
the contracts about the receiver state: `Store.qualifier?_refineAll`. The type of a refined value
does depend on the values that are refined in, but all contracts about a receiver bring the type
of that receiver. Only `this` is one slot for receivers of several types, so contracts that denote
it at different types are left out.
-/

namespace FlowTyping

namespace Qualifier

/-- The most specific of the qualifiers with a property, and nothing only if none has it. -/
def IsMostSpecific (P : Qualifier → Prop) : Option Qualifier → Prop
  | some q => P q ∧ ∀ p, P p → q.isSubtype p = true
  | none => ∀ p, ¬P p

variable {P Q : Qualifier → Prop} {a b : Option Qualifier}

theorem IsMostSpecific.unique (ha : IsMostSpecific P a) (hb : IsMostSpecific P b) : a = b := by
  cases a with
  | none =>
    cases b with
    | none => rfl
    | some q => exact absurd hb.1 (ha q)
  | some p =>
    cases b with
    | none => exact absurd ha.1 (hb p)
    | some q => exact congrArg some (isSubtype_antisymm (ha.2 q hb.1) (hb.2 p ha.1))

theorem isMostSpecific_eq (a : Option Qualifier) : IsMostSpecific (fun q => a = some q) a := by
  cases a with
  | none => exact fun p hp => by cases hp
  | some q => exact ⟨rfl, fun p hp => Option.some.inj hp ▸ q.isSubtype_refl⟩

theorem IsMostSpecific.congr (ha : IsMostSpecific P a) (h : ∀ q, P q ↔ Q q) :
    IsMostSpecific Q a := by
  have hPQ : P = Q := funext fun q => propext (h q)
  exact hPQ ▸ ha

theorem IsMostSpecific.sharper {h : Hierarchy} (ha : IsMostSpecific P a) (hb : IsMostSpecific Q b)
    (hP : ∀ q, P q → q.hierarchy = h) (hQ : ∀ q, Q q → q.hierarchy = h) :
    IsMostSpecific (fun q => P q ∨ Q q) (Value.sharperQualifier a b) := by
  cases a with
  | none => exact hb.congr fun q => ⟨Or.inr, fun hor => hor.resolve_left (ha q)⟩
  | some p =>
    cases b with
    | none =>
      have hleft : IsMostSpecific (fun q => P q ∨ Q q) (some p) :=
        IsMostSpecific.congr ha fun q => ⟨Or.inl, fun hor => hor.resolve_right (hb q)⟩
      exact hleft
    | some q =>
      have hsame : p.hierarchy = q.hierarchy := (hP p ha.1).trans (hQ q hb.1).symm
      rw [Value.sharperQualifier]
      split
      · next hle =>
        exact ⟨Or.inl ha.1, fun r hr => hr.elim (ha.2 r) fun hr => isSubtype_trans hle (hb.2 r hr)⟩
      · next hnot =>
        have hle : q.isSubtype p = true := by
          simp only [isSubtype, hsame, Bool.and_eq_true, decide_eq_true_iff, true_and] at hnot ⊢
          omega
        exact ⟨Or.inr hb.1, fun r hr => hr.elim (fun hr => isSubtype_trans hle (ha.2 r hr)) (hb.2 r)⟩

end Qualifier

theorem Ty.lowerTy_lowerTy (s t : Ty) :
    Value.lowerTy s (Value.lowerTy s t s) s = Value.lowerTy s t s := by
  grind [Value.lowerTy]

namespace Value

variable {v w : Value}

theorem qualifier?_moreSpecific? (v : Value) (w : Option Value) (h : Hierarchy) :
    (moreSpecific? (some v) w).bind (·.qualifier? h) =
      sharperQualifier (v.qualifier? h) (w.bind (·.qualifier? h)) := by
  cases w with
  | none => cases hv : v.qualifier? h <;> simp [moreSpecific?, sharperQualifier, hv]
  | some w => exact qualifier?_mostSpecific v w v h

theorem eq_of_qualifier? (hv : v.Normalized) (hw : w.Normalized) (hty : v.ty = w.ty)
    (h : ∀ h, v.qualifier? h = w.qualifier? h) : v = w :=
  ext_rank hv hw hty fun hier => qualifier?_eq_iff_rank.1 (h hier)

end Value

namespace Store

variable {s : Store} {r : Receiver} {facts facts' : List (Receiver × Value)}

theorem sameSlot_iff_slot {r r' : Receiver} : SameSlot r r' ↔ r.slot = r'.slot := by
  cases r <;> cases r' <;> simp [SameSlot, Receiver.slot]

theorem SameSlot.symm {r r' : Receiver} (h : SameSlot r r') : SameSlot r' r :=
  sameSlot_iff_slot.2 (sameSlot_iff_slot.1 h).symm

theorem SameSlot.trans {a b c : Receiver} (hab : SameSlot a b) (hbc : SameSlot b c) :
    SameSlot a c :=
  sameSlot_iff_slot.2 ((sameSlot_iff_slot.1 hab).trans (sameSlot_iff_slot.1 hbc))

/-- What is known of a receiver in a hierarchy. -/
def qualifier? (s : Store) (r : Receiver) (h : Hierarchy) : Option Qualifier :=
  (s.value? r).bind (·.qualifier? h)

theorem hierarchy_of_qualifier? {h : Hierarchy} {q : Qualifier} (hq : s.qualifier? r h = some q) :
    q.hierarchy = h := by
  obtain ⟨v, -, hv⟩ := Option.bind_eq_some_iff.1 hq
  exact QualifierSet.hierarchy_of_strongest? hv

theorem qualifier?_refine (s : Store) (r' : Receiver) (v : Value) (r : Receiver) (h : Hierarchy) :
    (s.refine r' v).qualifier? r h =
      if SameSlot r r' ∧ s.tracks r' = true then
        Value.sharperQualifier (v.qualifier? h) (s.qualifier? r h)
      else s.qualifier? r h := by
  rw [qualifier?, value?_refine]
  split
  · exact Value.qualifier?_moreSpecific? v (s.value? r) h
  · rfl

theorem refineAll_concat (s : Store) (facts : List (Receiver × Value)) (fact : Receiver × Value) :
    Setting.refineAll s (facts ++ [fact]) =
      (Setting.refineAll s facts).refine fact.1 fact.2 := by
  rw [Setting.refineAll, Setting.refineAll, List.foldl_append, List.foldl_cons, List.foldl_nil]

/-- Refining a tracked receiver by some facts leaves, in each hierarchy, the most specific of what
was known and what the facts about the receiver say. -/
theorem qualifier?_refineAll (ht : s.tracks r = true) (facts : List (Receiver × Value))
    (h : Hierarchy) :
    Qualifier.IsMostSpecific
      (fun q => s.qualifier? r h = some q ∨
        ∃ fact ∈ facts, SameSlot r fact.1 ∧ fact.2.qualifier? h = some q)
      ((Setting.refineAll s facts).qualifier? r h) := by
  induction facts using List.reverseRecOn with
  | nil =>
    refine (Qualifier.isMostSpecific_eq (s.qualifier? r h)).congr fun q => ?_
    simp
  | append_singleton facts fact ih =>
    have ht' : (Setting.refineAll s facts).tracks r = true :=
      (tracks_congr (sequential_refineAll s facts) r).trans ht
    rw [refineAll_concat, qualifier?_refine]
    by_cases hslot : SameSlot r fact.1
    · have hcounts : (Setting.refineAll s facts).tracks fact.1 = true :=
        tracks_of_sameSlot hslot _ ▸ ht'
      rw [if_pos ⟨hslot, hcounts⟩]
      have hnew : ∀ q, fact.2.qualifier? h = some q → q.hierarchy = h :=
        fun q hq => QualifierSet.hierarchy_of_strongest? hq
      have hold : ∀ q, (s.qualifier? r h = some q ∨
          ∃ fact ∈ facts, SameSlot r fact.1 ∧ fact.2.qualifier? h = some q) → q.hierarchy = h := by
        rintro q (hq | ⟨fact', -, -, hq⟩)
        · exact hierarchy_of_qualifier? hq
        · exact QualifierSet.hierarchy_of_strongest? hq
      refine ((Qualifier.isMostSpecific_eq _).sharper ih hnew hold).congr fun q => ?_
      simp only [List.mem_append, List.mem_singleton]
      grind
    · rw [if_neg fun hboth => hslot hboth.1]
      refine ih.congr fun q => ?_
      simp only [List.mem_append, List.mem_singleton]
      grind

theorem value?_refineAll_of_untracked (ht : s.tracks r = false) (facts : List (Receiver × Value)) :
    (Setting.refineAll s facts).value? r = s.value? r := by
  induction facts using List.reverseRecOn with
  | nil => rfl
  | append_singleton facts fact ih =>
    rw [refineAll_concat, value?_refine, if_neg, ih]
    rintro ⟨hslot, hcounts⟩
    rw [← tracks_of_sameSlot hslot, tracks_congr (sequential_refineAll s facts), ht] at hcounts
    cases hcounts

theorem refined_of_refineAll {ty : Ty} (ht : s.tracks r = true)
    (hty : ∀ fact ∈ facts, SameSlot r fact.1 → fact.2.Normalized ∧ fact.2.ty = ty)
    (hsome : ∃ fact ∈ facts, SameSlot r fact.1) :
    ∃ v, (Setting.refineAll s facts).value? r = some v ∧ v.Normalized ∧
      v.ty = (s.value? r).elim ty fun w => Value.lowerTy ty w.ty ty := by
  induction facts using List.reverseRecOn with
  | nil => simp at hsome
  | append_singleton facts fact ih =>
    have hearlier : ∀ fact' ∈ facts, SameSlot r fact'.1 → fact'.2.Normalized ∧ fact'.2.ty = ty :=
      fun fact' hmem => hty fact' (List.mem_append_left _ hmem)
    rw [refineAll_concat, value?_refine]
    by_cases hslot : SameSlot r fact.1
    · have hcounts : (Setting.refineAll s facts).tracks fact.1 = true := by
        rw [← tracks_of_sameSlot hslot, tracks_congr (sequential_refineAll s facts), ht]
      obtain ⟨hnormal, htype⟩ := hty fact (by simp) hslot
      rw [if_pos ⟨hslot, hcounts⟩]
      by_cases hsome' : ∃ fact ∈ facts, SameSlot r fact.1
      · obtain ⟨v, hv, -, hvty⟩ := ih hearlier hsome'
        refine ⟨_, by rw [hv]; rfl, Value.normalized_mostSpecific _ _ _, ?_⟩
        change Value.lowerTy fact.2.ty v.ty fact.2.ty = _
        rw [htype, hvty]
        cases s.value? r with
        | none => exact Value.lowerTy.eq_1 ty ty ty ▸ if_pos rfl
        | some w => exact Ty.lowerTy_lowerTy ty w.ty
      · have hnone : ∀ fact' ∈ facts, ¬SameSlot r fact'.1 :=
          fun fact' hmem hslot' => hsome' ⟨fact', hmem, hslot'⟩
        rw [value?_refineAll_of_ne hnone]
        cases s.value? r with
        | none => exact ⟨fact.2, rfl, hnormal, htype⟩
        | some w =>
          refine ⟨_, rfl, Value.normalized_mostSpecific _ _ _, ?_⟩
          change Value.lowerTy fact.2.ty w.ty fact.2.ty = _
          rw [htype]
          rfl
    · rw [if_neg fun hboth => hslot hboth.1]
      refine ih hearlier ?_
      obtain ⟨fact', hmem, hslot'⟩ := hsome
      rcases List.mem_append.1 hmem with hmem | hmem
      · exact ⟨fact', hmem, hslot'⟩
      · rw [List.mem_singleton.1 hmem] at hslot'
        exact absurd hslot' hslot

/-- Receivers of one slot that facts are about bring one type. -/
def OneType (facts : List (Receiver × Value)) : Prop :=
  ∀ fact ∈ facts, ∀ fact' ∈ facts, SameSlot fact.1 fact'.1 → fact.2.ty = fact'.2.ty

theorem get?_this_refineAll (s : Store) (facts : List (Receiver × Value)) (ty : Ty) :
    (Setting.refineAll s facts).facts.get? (.this ty) = s.facts.get? (.this ty) := by
  induction facts using List.reverseRecOn with
  | nil => rfl
  | append_singleton facts fact ih =>
    rw [refineAll_concat, refine_eq]
    split
    · rw [← ih]
      cases fact.1 <;> simp [put]
    · exact ih

theorem agrees_of_value? {t : Store} (hflag : s.sequential = t.sequential)
    (hhidden : ∀ ty, s.facts.get? (.this ty) = t.facts.get? (.this ty))
    (h : ∀ r, s.value? r = t.value? r) : s.agrees t = true := by
  refine agrees_iff.2 ⟨hflag, h (.this .object), fun r => ?_⟩
  by_cases hslot : r.slot = some r
  · have hr := h r
    rw [value?_eq_known, value?_eq_known, hslot] at hr
    exact hr
  · cases r with
    | this ty => exact hhidden ty
    | _ => exact absurd rfl hslot

/-- Neither the order nor the repetition of facts matters, as long as facts about one receiver
bring one type. -/
theorem refineAll_agrees (hmem : ∀ fact, fact ∈ facts ↔ fact ∈ facts') (hone : OneType facts)
    (hnormal : ∀ fact ∈ facts, fact.2.Normalized) (s : Store) :
    (Setting.refineAll s facts).agrees (Setting.refineAll s facts') = true := by
  refine agrees_of_value? (by simp) (fun ty => ?_) fun r => ?_
  · rw [get?_this_refineAll, get?_this_refineAll]
  · cases ht : s.tracks r with
    | false => rw [value?_refineAll_of_untracked ht, value?_refineAll_of_untracked ht]
    | true =>
      by_cases hsome : ∃ fact ∈ facts, SameSlot r fact.1
      · obtain ⟨first, hfirst, hslot⟩ := hsome
        have hty : ∀ fact ∈ facts, SameSlot r fact.1 →
            fact.2.Normalized ∧ fact.2.ty = first.2.ty := fun fact hfact hr =>
          ⟨hnormal fact hfact, hone fact hfact first hfirst (hr.symm.trans hslot)⟩
        have hty' : ∀ fact ∈ facts', SameSlot r fact.1 →
            fact.2.Normalized ∧ fact.2.ty = first.2.ty :=
          fun fact hfact => hty fact ((hmem fact).2 hfact)
        obtain ⟨v, hv, hvnormal, hvty⟩ := refined_of_refineAll ht hty ⟨first, hfirst, hslot⟩
        obtain ⟨w, hw, hwnormal, hwty⟩ :=
          refined_of_refineAll ht hty' ⟨first, (hmem first).1 hfirst, hslot⟩
        rw [hv, hw, Value.eq_of_qualifier? hvnormal hwnormal (hvty.trans hwty.symm)]
        intro h
        have hleft := qualifier?_refineAll ht facts h
        have hright := qualifier?_refineAll ht facts' h
        simp only [← hmem] at hright
        simpa [qualifier?, hv, hw] using hleft.unique hright
      · have hnone : ∀ fact ∈ facts, ¬SameSlot r fact.1 :=
          fun fact hfact hr => hsome ⟨fact, hfact, hr⟩
        rw [value?_refineAll_of_ne hnone,
          value?_refineAll_of_ne fun fact hfact => hnone fact ((hmem fact).2 hfact)]

end Store

/-- Where contracts are applied: where a method is declared, or at a call, for one outcome. -/
inductive ContractSite where
  | declaration (m : Method) (parameters : List Variable)
  | call (g : Graph) (site : CallSite) (kind : ContractKind)

namespace ContractSite

def context (st : Setting) : ContractSite → ExpressionContext
  | .declaration m parameters => .ofDeclaration m parameters
  | .call g site _ => .ofCall g st.tables.isDeterministic site

def contracts (st : Setting) : ContractSite → List Contract
  | .declaration m _ => st.contractsAt m .precondition
  | .call _ site kind => st.contractsAt site.method kind

def apply (st : Setting) : ContractSite → Store → Store
  | .declaration m parameters => st.assumePreconditions m parameters
  | .call g site kind => st.assumeAtCall g site kind

theorem apply_eq (st : Setting) (site : ContractSite) (s : Store) :
    site.apply st s =
      Setting.refineAll s (st.contractFacts (site.context st) (site.contracts st)) := by
  cases site <;> rfl

end ContractSite

namespace Setting

/-- A contract can be read in a context and is about what a receiver stands for. -/
def States (st : Setting) (context : ExpressionContext) (c : Contract) (r : Receiver) : Prop :=
  ∃ r', st.reader context c.expression = .ok r' ∧ Store.SameSlot r r'

def readable (st : Setting) (context : ExpressionContext) (cs : List Contract) : List Contract :=
  cs.filter fun c => (st.reader context c.expression).toOption.isSome

/-- The type at which a contract is about `this`, if it is. -/
def thisType? (st : Setting) (context : ExpressionContext) (c : Contract) : Option Ty :=
  match st.reader context c.expression with
  | .ok (.this ty) => some ty
  | _ => none

/-- Contracts that are about `this` are about it at one type. -/
def OneThis (st : Setting) (context : ExpressionContext) (cs : List Contract) : Prop :=
  ∀ ty ∈ cs.filterMap (st.thisType? context), ∀ ty' ∈ cs.filterMap (st.thisType? context), ty = ty'

instance (st : Setting) (context : ExpressionContext) (cs : List Contract) :
    Decidable (st.OneThis context cs) :=
  inferInstanceAs (Decidable (∀ ty ∈ cs.filterMap (st.thisType? context),
    ∀ ty' ∈ cs.filterMap (st.thisType? context), ty = ty'))

/-- A store that says of each receiver what another one says and what some contracts state. -/
structure Meets (st : Setting) (context : ExpressionContext) (cs : List Contract)
    (s s' : Store) : Prop where
  mostSpecific : ∀ r, s.tracks r = true → ∀ h, Qualifier.IsMostSpecific
    (fun q => s.qualifier? r h = some q ∨
      ∃ c ∈ cs, st.States context c r ∧ c.qualifier = q ∧ q.hierarchy = h)
    (s'.qualifier? r h)
  unnamed : ∀ r, (∀ c ∈ cs, ¬st.States context c r) → s'.value? r = s.value? r
  untracked : ∀ r, s.tracks r = false → s'.value? r = s.value? r
  sequential : s'.sequential = s.sequential

variable {st st' : Setting} {context : ExpressionContext} {cs cs' : List Contract}

theorem contractFact_toOption_eq_some {c : Contract} {fact : Receiver × Value} :
    (st.contractFact context c).toOption = some fact ↔
      ∃ r, st.reader context c.expression = .ok r ∧ fact = (r, .of r.ty [c.qualifier]) := by
  rw [contractFact]
  cases st.reader context c.expression with
  | error e => simp [Except.toOption]
  | ok r => simp [Except.toOption, eq_comm]

theorem mem_contractFacts {fact : Receiver × Value} :
    fact ∈ st.contractFacts context cs ↔
      ∃ c ∈ cs, ∃ r, st.reader context c.expression = .ok r ∧
        fact = (r, .of r.ty [c.qualifier]) := by
  simp only [contractFacts, List.mem_filterMap, contractFact_toOption_eq_some]

theorem contractFacts_readable (st : Setting) (context : ExpressionContext) (cs : List Contract) :
    st.contractFacts context (st.readable context cs) = st.contractFacts context cs := by
  rw [contractFacts, readable, List.filterMap_filter, contractFacts]
  congr 1
  funext c
  rw [contractFact]
  cases st.reader context c.expression <;> rfl

theorem contractFacts_congr (hreader : st'.reader = st.reader) (context : ExpressionContext)
    (cs : List Contract) : st'.contractFacts context cs = st.contractFacts context cs := by
  simp only [contractFacts, contractFact, hreader]

theorem qualifier?_of_singleton (ty : Ty) (p q : Qualifier) (h : Hierarchy) :
    (Value.of ty [p]).qualifier? h = some q ↔ p = q ∧ q.hierarchy = h := by
  rw [Value.qualifier?_of]
  cases p <;> cases q <;> cases h <;> decide

theorem meets_refineAll (st : Setting) (context : ExpressionContext) (cs : List Contract)
    (s : Store) : st.Meets context cs s (refineAll s (st.contractFacts context cs)) where
  mostSpecific r ht h := by
    refine (Store.qualifier?_refineAll ht (st.contractFacts context cs) h).congr fun q => ?_
    refine or_congr_right ⟨?_, ?_⟩
    · rintro ⟨fact, hfact, hslot, hq⟩
      obtain ⟨c, hc, r', hr', rfl⟩ := mem_contractFacts.1 hfact
      exact ⟨c, hc, ⟨r', hr', hslot⟩, (qualifier?_of_singleton r'.ty c.qualifier q h).1 hq⟩
    · rintro ⟨c, hc, ⟨r', hr', hslot⟩, hq⟩
      exact ⟨_, mem_contractFacts.2 ⟨c, hc, r', hr', rfl⟩, hslot,
        (qualifier?_of_singleton r'.ty c.qualifier q h).2 hq⟩
  unnamed r hr := by
    refine Store.value?_refineAll_of_ne (fun fact hfact hslot => ?_) s
    obtain ⟨c, hc, r', hr', rfl⟩ := mem_contractFacts.1 hfact
    exact hr c hc ⟨r', hr', hslot⟩
  untracked r ht := Store.value?_refineAll_of_untracked ht _
  sequential := Store.sequential_refineAll s _

theorem oneType_contractFacts (h : st.OneThis context cs) :
    Store.OneType (st.contractFacts context cs) := by
  intro fact hfact fact' hfact' hslot
  obtain ⟨c, hc, r, hr, rfl⟩ := mem_contractFacts.1 hfact
  obtain ⟨c', hc', r', hr', rfl⟩ := mem_contractFacts.1 hfact'
  change r.ty = r'.ty
  by_cases hthis : ∃ ty, r = .this ty
  · obtain ⟨ty, rfl⟩ := hthis
    cases r' with
    | this ty' =>
      exact h ty (List.mem_filterMap.2 ⟨c, hc, by rw [thisType?, hr]⟩)
        ty' (List.mem_filterMap.2 ⟨c', hc', by rw [thisType?, hr']⟩)
    | _ => cases hslot
  · have hsame : r = r' := by
      cases r with
      | this ty => exact absurd ⟨ty, rfl⟩ hthis
      | _ => cases r' <;> exact hslot
    rw [hsame]

/-- Contracts take what is known of each receiver to the greatest lower bound with what they state.
Contracts that cannot be read do not count; nor do the order and the repetition of those that can,
as long as all that are about `this` are so at one type. -/
theorem contracts_meet (st : Setting) (site : ContractSite) (s : Store) :
    st.Meets (site.context st) (site.contracts st) s (site.apply st s) ∧
      ∀ st', st'.reader = st.reader → site.context st' = site.context st →
        (st.readable (site.context st) (site.contracts st') =
            st.readable (site.context st) (site.contracts st) →
          site.apply st' s = site.apply st s) ∧
        (st.OneThis (site.context st) (site.contracts st) →
          (∀ c, c ∈ st.readable (site.context st) (site.contracts st') ↔
            c ∈ st.readable (site.context st) (site.contracts st)) →
          (site.apply st' s).agrees (site.apply st s) = true) := by
  rw [site.apply_eq]
  refine ⟨meets_refineAll st _ _ s, fun st' hreader hcontext => ?_⟩
  have hfacts : ∀ cs, st'.contractFacts (site.context st') cs =
      st.contractFacts (site.context st) (st.readable (site.context st) cs) := fun cs => by
    rw [hcontext, contractFacts_congr hreader, contractFacts_readable]
  rw [site.apply_eq, hfacts, ← contractFacts_readable st _ (site.contracts st)]
  refine ⟨fun hsame => by rw [hsame], fun hone hmem => ?_⟩
  have hone' : st.OneThis (site.context st)
      (st.readable (site.context st) (site.contracts st')) := by
    have hkept : ∀ ty ∈ (st.readable (site.context st) (site.contracts st')).filterMap
        (st.thisType? (site.context st)),
        ty ∈ (site.contracts st).filterMap (st.thisType? (site.context st)) := by
      intro ty hty
      obtain ⟨c, hc, hthis⟩ := List.mem_filterMap.1 hty
      exact List.mem_filterMap.2 ⟨c, (List.mem_filter.1 ((hmem c).1 hc)).1, hthis⟩
    exact fun ty hty ty' hty' => hone ty (hkept ty hty) ty' (hkept ty' hty')
  refine Store.refineAll_agrees (fun fact => ?_) (oneType_contractFacts hone') ?_ s
  · simp only [mem_contractFacts, hmem]
  · intro fact hfact
    obtain ⟨c, -, r, -, rfl⟩ := mem_contractFacts.1 hfact
    exact Value.normalized_of r.ty [c.qualifier]

end Setting

namespace LinkedArgument

private def element : Ty := .declared "app.Node"

private def next : Field := ⟨⟨20⟩, "next", element, element, false, false⟩

private def link : Method := ⟨⟨30⟩, "link", element, .void, false, false⟩

private def head : Variable := ⟨⟨10⟩, "head", .localVariable, element, none⟩

private def nodeAt (index : Nat) (kind : NodeKind) : Node := ⟨⟨index⟩, element, none, true, kind⟩

private def graph : Graph where
  code := .fragment ⟨0⟩
  parameters := []
  nodes := [nodeAt 0 .thisLiteral, nodeAt 1 (.localVariable head),
    nodeAt 2 (.methodInvocation link ⟨0⟩ [⟨1⟩])]
  blocks := [⟨⟨0⟩, [⟨0⟩, ⟨1⟩, ⟨2⟩], some (.goto ⟨1⟩), [], [⟨1⟩]⟩, ⟨⟨1⟩, [], none, [⟨0⟩], []⟩]
  entry := ⟨0⟩
  exit := ⟨1⟩

private def site : ContractSite := .call graph ⟨link, ⟨0⟩, [⟨1⟩], none⟩ .postcondition

private def ensures (expression : String) (q : Qualifier) : Contract :=
  ⟨.postcondition, expression, q⟩

private def settingWith (cs : List Contract) : Setting :=
  .ofTables { Tables.empty with
    fields := [⟨next, [], none⟩]
    methods := [⟨⟨30⟩, cs, false, false, []⟩] } .empty .default

private def stated : List Contract :=
  [ensures "#1.next" .nullable, ensures "this.next" .nonNull, ensures "#1.next" .nonNull,
    ensures "#1.next" .interned]

private def restated : List Contract :=
  [ensures "#1.next" .interned, ensures "#1.next" .nonNull, ensures "#1." .unknownInterned,
    ensures "#1.next" .nullable, ensures "this.next" .nonNull, ensures "#1.next" .nonNull]

private def headNext : Receiver := .field (.localVariable head) next

/-- The contracts agree on `head.next`, whose qualifiers are the lowest of those they name. -/
theorem link_refines_next :
    let st := settingWith stated
    let st' := settingWith restated
    let s := site.apply st (.empty true)
    graph.check = .ok () ∧
    s.qualifier? headNext .nullness = some .nonNull ∧
    s.qualifier? headNext .interning = some .interned ∧
    st.OneThis (site.context st) (site.contracts st) ∧
    (site.apply st' (.empty true)).agrees s = true := by
  have hone : (settingWith stated).OneThis (site.context (settingWith stated))
      (site.contracts (settingWith stated)) := by decide
  have hreadable : ∀ c,
      c ∈ (settingWith stated).readable (site.context (settingWith stated))
        (site.contracts (settingWith restated)) ↔
      c ∈ (settingWith stated).readable (site.context (settingWith stated))
        (site.contracts (settingWith stated)) := by
    have hfirst : (settingWith stated).readable (site.context (settingWith stated))
        (site.contracts (settingWith stated)) = stated := by decide
    have hsecond : (settingWith stated).readable (site.context (settingWith stated))
        (site.contracts (settingWith restated)) =
        restated.filter (·.expression ≠ "#1.") := by decide
    intro c
    rw [hfirst, hsecond]
    simp [stated, restated, ensures]
    tauto
  exact ⟨rfl, by decide, by decide, hone,
    ((Setting.contracts_meet (settingWith stated) site (.empty true)).2 (settingWith restated)
      rfl rfl).2 hone hreadable⟩

end LinkedArgument

end FlowTyping
