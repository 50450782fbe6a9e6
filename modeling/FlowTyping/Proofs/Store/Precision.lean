import FlowTyping.Proofs.Value.Join
import FlowTyping.Stores

/-!
# The precision order of stores

A store is below another of the same semantics when it knows all that the other knows, each value
at least as precisely. The join of stores is an upper bound and the least one. The order is not
reflexive on values that are not normalized, hence `AtMost` beside `Below`.
-/

namespace FlowTyping

namespace Store

theorem value?_lub (s t : Store) (r : Receiver) :
    (s.lub t).value? r = Value.lub? (s.value? r) (t.value? r) := by
  cases r
  case this τ =>
    simp only [lub, upperBound, value?]
    cases s.thisValue <;> cases t.thisValue <;> rfl
  all_goals
    simp only [lub, upperBound, value?, FinMap.merge, FinMap.get?_filterMap]
    cases s.facts.get? _ <;> cases t.facts.get? _ <;> rfl

@[simp] theorem sequential_lub (s t : Store) : (s.lub t).sequential = s.sequential := rfl

theorem agrees_refl (s : Store) : s.agrees s = true := by
  simp [agrees_iff]

theorem agrees_trans {s t u : Store} (hst : s.agrees t = true) (htu : t.agrees u = true) :
    s.agrees u = true := by
  rw [agrees_iff] at hst htu ⊢
  exact ⟨hst.1.trans htu.1, hst.2.1.trans htu.2.1, fun r => (hst.2.2 r).trans (htu.2.2 r)⟩

theorem agrees_symm {s t : Store} (h : s.agrees t = true) : t.agrees s = true := by
  rw [agrees_iff] at h ⊢
  exact ⟨h.1.symm, h.2.1.symm, fun r => (h.2.2 r).symm⟩

theorem value?_eq_of_agrees {s t : Store} (h : s.agrees t = true) (r : Receiver) :
    s.value? r = t.value? r := by
  rw [agrees_iff] at h
  cases r
  case this τ => exact h.2.1
  all_goals exact h.2.2 _

theorem agrees_lub {s s' t t' : Store} (hs : s.agrees s' = true) (ht : t.agrees t' = true) :
    (s.lub t).agrees (s'.lub t') = true := by
  rw [agrees_iff] at hs ht ⊢
  refine ⟨hs.1, ?_, fun r => ?_⟩
  · simp only [lub, upperBound, hs.2.1, ht.2.1]
  · simp only [lub, upperBound, FinMap.merge, FinMap.get?_filterMap, hs.2.2 r, ht.2.2 r]

/-- The stores have the same semantics, and each fact of the second is one of the first whose
value is at least as precise. -/
structure Below (s t : Store) : Prop where
  sequential_eq : s.sequential = t.sequential
  value : ∀ r w, t.value? r = some w → ∃ v, s.value? r = some v ∧ v.Below w

theorem below_lub_left (s t : Store) : s.Below (s.lub t) := by
  refine ⟨rfl, fun r w hw => ?_⟩
  rw [value?_lub] at hw
  cases hs : s.value? r with
  | none => simp [hs, Value.lub?] at hw
  | some v =>
    cases ht : t.value? r with
    | none => simp [hs, ht, Value.lub?] at hw
    | some v' =>
      simp only [hs, ht, Value.lub?, Option.some.injEq] at hw
      exact ⟨v, rfl, hw ▸ Value.below_lub_left v v'⟩

theorem below_lub_right {s t : Store} (h : t.sequential = s.sequential) : t.Below (s.lub t) := by
  refine ⟨h, fun r w hw => ?_⟩
  rw [value?_lub] at hw
  cases hs : s.value? r with
  | none => simp [hs, Value.lub?] at hw
  | some v =>
    cases ht : t.value? r with
    | none => simp [hs, ht, Value.lub?] at hw
    | some v' =>
      simp only [hs, ht, Value.lub?, Option.some.injEq] at hw
      exact ⟨v', rfl, hw ▸ Value.below_lub_right v v'⟩

theorem Below.trans {s t u : Store} (hst : s.Below t) (htu : t.Below u) : s.Below u := by
  refine ⟨hst.sequential_eq.trans htu.sequential_eq, fun r w hw => ?_⟩
  obtain ⟨v, hv, hvw⟩ := htu.value r w hw
  obtain ⟨v', hv', hv'v⟩ := hst.value r v hv
  exact ⟨v', hv', hv'v.trans hvw⟩

theorem lub_below {s t u : Store} (hs : s.Below u) (ht : t.Below u) : (s.lub t).Below u := by
  refine ⟨hs.sequential_eq, fun r w hw => ?_⟩
  obtain ⟨v, hv, hvw⟩ := hs.value r w hw
  obtain ⟨v', hv', hv'w⟩ := ht.value r w hw
  refine ⟨v.lub v', ?_, Value.lub_below hvw hv'w⟩
  rw [value?_lub, hv, hv', Value.lub?]

theorem Below.of_agrees_left {s t u : Store} (hst : s.agrees t = true) (htu : t.Below u) :
    s.Below u := by
  refine ⟨(agrees_iff.1 hst).1.trans htu.sequential_eq, fun r w hw => ?_⟩
  rw [value?_eq_of_agrees hst]
  exact htu.value r w hw

theorem Below.of_agrees_right {s t u : Store} (hst : s.Below t) (htu : t.agrees u = true) :
    s.Below u := by
  refine ⟨hst.sequential_eq.trans (agrees_iff.1 htu).1, fun r w hw => ?_⟩
  rw [← value?_eq_of_agrees htu] at hw
  exact hst.value r w hw

/-- Below or equal: a value that is no join need not be below itself. -/
def AtMost (s t : Store) : Prop := s.agrees t = true ∨ s.Below t

theorem AtMost.sequential_eq {s t : Store} (h : s.AtMost t) : s.sequential = t.sequential :=
  h.elim (fun hagree => (agrees_iff.1 hagree).1) Below.sequential_eq

theorem AtMost.trans_below {s t u : Store} (hst : s.AtMost t) (htu : t.Below u) : s.Below u := by
  rcases hst with hst | hst
  · exact Below.of_agrees_left hst htu
  · exact hst.trans htu

theorem below_foldl_lub {flag : Bool} {s : Store} {rest : List Store} (hrest : rest ≠ [])
    (hflag : ∀ x ∈ s :: rest, x.sequential = flag) :
    ∀ x ∈ s :: rest, x.Below (rest.foldl lub s) := by
  induction rest generalizing s with
  | nil => exact absurd rfl hrest
  | cons t rest ih =>
    have hs : s.sequential = flag := hflag s List.mem_cons_self
    have ht : t.sequential = flag := hflag t (List.mem_cons_of_mem _ List.mem_cons_self)
    have hst : s.Below (s.lub t) := below_lub_left s t
    have hts : t.Below (s.lub t) := below_lub_right (ht.trans hs.symm)
    rw [List.foldl_cons]
    by_cases hnil : rest = []
    · subst hnil
      intro x hx
      rcases List.mem_cons.1 hx with rfl | hx
      · exact hst
      · obtain rfl := List.mem_singleton.1 hx
        exact hts
    · have hall : ∀ x ∈ s.lub t :: rest, x.Below (rest.foldl lub (s.lub t)) := by
        refine ih hnil fun x hx => ?_
        rcases List.mem_cons.1 hx with rfl | hx
        · exact hs
        · exact hflag x (List.mem_cons_of_mem _ (List.mem_cons_of_mem _ hx))
      have hjoin := hall (s.lub t) List.mem_cons_self
      intro x hx
      rcases List.mem_cons.1 hx with rfl | hx
      · exact hst.trans hjoin
      · rcases List.mem_cons.1 hx with rfl | hx
        · exact hts.trans hjoin
        · exact hall x (List.mem_cons_of_mem _ hx)

theorem foldl_lub_below {s u : Store} {rest : List Store} (h : ∀ x ∈ s :: rest, x.Below u) :
    (rest.foldl lub s).Below u := by
  induction rest generalizing s with
  | nil => exact h s List.mem_cons_self
  | cons t rest ih =>
    refine ih fun x hx => ?_
    rcases List.mem_cons.1 hx with rfl | hx
    · have ht := h t (List.mem_cons_of_mem _ List.mem_cons_self)
      exact lub_below (h s List.mem_cons_self) ht
    · exact h x (List.mem_cons_of_mem _ (List.mem_cons_of_mem _ hx))

/-- A join of stores grows with its members, and with more of them. A single store is not a join,
so it is compared with a single store only. -/
theorem foldl_lub_atMost {flag : Bool} {s s' : Store} {rest rest' : List Store}
    (hsingle : rest' = [] → rest = [])
    (hflag : ∀ x ∈ s' :: rest', x.sequential = flag)
    (h : ∀ x ∈ s :: rest, ∃ y ∈ s' :: rest', x.AtMost y) :
    (rest.foldl lub s).AtMost (rest'.foldl lub s') := by
  by_cases hnil : rest' = []
  · obtain ⟨y, hy, hsy⟩ := h s List.mem_cons_self
    rw [hnil, List.mem_singleton] at hy
    rw [hsingle hnil, hnil]
    exact hy ▸ hsy
  · refine Or.inr (foldl_lub_below fun x hx => ?_)
    obtain ⟨y, hy, hxy⟩ := h x hx
    exact hxy.trans_below (below_foldl_lub hnil hflag y hy)

end Store

namespace Stores

/-- Below branch by branch; a single store counts as both branches. -/
def Below (s t : Stores) : Prop :=
  s.thenStore.Below t.thenStore ∧ s.elseStore.Below t.elseStore

def AtMost (s t : Stores) : Prop := s.agrees t = true ∨ s.Below t

/-- Both branches have the given semantics. -/
def HasFlag (s : Stores) (flag : Bool) : Prop :=
  s.thenStore.sequential = flag ∧ s.elseStore.sequential = flag

theorem agrees_refl (s : Stores) : s.agrees s = true := by
  cases s <;> simp [agrees, Store.agrees_refl]

theorem agrees_iff {s t : Stores} : s.agrees t = true ↔ s.isConditional = t.isConditional ∧
    s.thenStore.agrees t.thenStore = true ∧ s.elseStore.agrees t.elseStore = true := by
  cases s <;> cases t <;> simp [agrees, isConditional, thenStore, elseStore]

theorem agrees_trans {s t u : Stores} (hst : s.agrees t = true) (htu : t.agrees u = true) :
    s.agrees u = true := by
  rw [agrees_iff] at hst htu ⊢
  exact ⟨hst.1.trans htu.1, Store.agrees_trans hst.2.1 htu.2.1,
    Store.agrees_trans hst.2.2 htu.2.2⟩

theorem agrees_symm {s t : Stores} (h : s.agrees t = true) : t.agrees s = true := by
  rw [agrees_iff] at h ⊢
  exact ⟨h.1.symm, Store.agrees_symm h.2.1, Store.agrees_symm h.2.2⟩

theorem agrees_branches {s t : Stores} (h : s.agrees t = true) :
    s.thenStore.agrees t.thenStore = true ∧ s.elseStore.agrees t.elseStore = true ∧
      s.merged.agrees t.merged = true := by
  cases s <;> cases t <;> simp only [agrees, Bool.and_eq_true] at h
  · exact ⟨h, h, h⟩
  · cases h
  · cases h
  · exact ⟨h.1, h.2, Store.agrees_lub h.1 h.2⟩

theorem HasFlag.of_agrees {s t : Stores} {flag : Bool} (h : s.agrees t = true)
    (ht : t.HasFlag flag) : s.HasFlag flag := by
  obtain ⟨hthen, helse, -⟩ := agrees_branches h
  exact ⟨(Store.agrees_iff.1 hthen).1.trans ht.1, (Store.agrees_iff.1 helse).1.trans ht.2⟩

theorem HasFlag.merged {s : Stores} {flag : Bool} (h : s.HasFlag flag) :
    s.merged.sequential = flag := by
  cases s <;> exact h.1

theorem AtMost.of_agrees {s s' t t' : Stores} (hs : s.agrees s' = true) (h : s'.AtMost t')
    (ht : t'.agrees t = true) : s.AtMost t := by
  rcases h with h | h
  · exact Or.inl (agrees_trans (agrees_trans hs h) ht)
  · obtain ⟨hsthen, hselse, -⟩ := agrees_branches hs
    obtain ⟨htthen, htelse, -⟩ := agrees_branches ht
    exact Or.inr ⟨(Store.Below.of_agrees_left hsthen h.1).of_agrees_right htthen,
      (Store.Below.of_agrees_left hselse h.2).of_agrees_right htelse⟩

private theorem below_merged {s : Store} {t : Stores} {flag : Bool} (ht : t.HasFlag flag)
    (h : s.Below t.thenStore ∨ s.Below t.elseStore) : s.Below t.merged := by
  cases t with
  | regular t => exact h.elim id id
  | conditional t e =>
    rcases h with h | h
    · exact h.trans (Store.below_lub_left t e)
    · exact h.trans (Store.below_lub_right (ht.2.trans ht.1.symm))

theorem AtMost.merged {s t : Stores} {flag : Bool} (ht : t.HasFlag flag) (h : s.AtMost t) :
    s.merged.AtMost t.merged := by
  rcases h with h | h
  · exact Or.inl (agrees_branches h).2.2
  · have hthen := below_merged ht (Or.inl h.1)
    have helse := below_merged ht (Or.inr h.2)
    cases s with
    | regular s => exact Or.inr hthen
    | conditional s e => exact Or.inr (Store.lub_below hthen helse)

theorem AtMost.thenStore {s t : Stores} (h : s.AtMost t) : s.thenStore.AtMost t.thenStore :=
  h.imp (fun h => (agrees_branches h).1) fun h => h.1

theorem AtMost.elseStore {s t : Stores} (h : s.AtMost t) : s.elseStore.AtMost t.elseStore :=
  h.imp (fun h => (agrees_branches h).2.1) fun h => h.2

end Stores

end FlowTyping
