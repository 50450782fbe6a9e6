import FlowTyping.Proofs.Contract.Meet
import FlowTyping.Proofs.Graph.LambdaBody
import FlowTyping.Proofs.Store.Normalized

/-!
# What one outcome of a call promises

After a call the store splits: the contracts for either outcome refine a copy of what is known in
any case. Where the branches meet again, nothing is left of what only one outcome promises:
`Setting.ForgetsOutcome`. A receiver that is known in one branch only is lost. One that was known
before is refined in at most one branch; a refined value lies at or below the value that it refines
in every hierarchy, so their join has the qualifiers from before. It has the type from before if
that compares with the types of the receivers that the contracts name.
-/

namespace FlowTyping

open Value (KnownNormalized)

/-- One of two types is a supertype of the other, as far as their shape decides it. -/
def Ty.Comparable (s t : Ty) : Prop := s.Below t ∨ t.Below s

instance (s t : Ty) : Decidable (s.Comparable t) :=
  inferInstanceAs (Decidable (s.Below t ∨ t.Below s))

namespace Value

variable {v w : Value}

/-- The same qualifier in each hierarchy, and the same set of them if there were no others. -/
def KeepsQualifiers (w v : Value) : Prop :=
  (∀ h, w.qualifier? h = v.qualifier? h) ∧ (v.Normalized → w.qualifiers = v.qualifiers)

theorem keepsQualifiers_lub (hrank : ∀ h, w.rank h ≤ v.rank h) : (w.lub v).KeepsQualifiers v := by
  have hsame : ∀ h, (w.lub v).rank h = v.rank h := by
    intro h
    rw [rank_lub, Nat.max_eq_right (hrank h)]
  exact ⟨fun h => qualifier?_eq_iff_rank.2 (hsame h),
    fun hv => qualifiers_eq_of_rank (normalized_lub w v) hv hsame⟩

theorem ty_refine_below {t : Ty} (hw : w.ty.Below t) (hcompares : v.ty.Comparable t) :
    (w.refine v).ty.Below t := by
  rw [ty_refine]
  split
  · exact hw
  · next hnot =>
    rcases hcompares with hbelow | habove
    · exact hbelow
    · exact absurd (hw.trans habove) hnot

end Value

namespace Store

variable {s s' : Store} {r : Receiver} {v : Value}

/-- What is known stays known while facts refine it. The value only moves down in each hierarchy,
and its type does so too if all types that come in compare with it. -/
theorem exists_value?_refineAll (hv : s.value? r = some v) (facts : List (Receiver × Value)) :
    ∃ w, (Setting.refineAll s facts).value? r = some w ∧ (∀ h, w.rank h ≤ v.rank h) ∧
      ((∀ fact ∈ facts, SameSlot r fact.1 → fact.2.ty.Comparable v.ty) → w.ty.Below v.ty) := by
  induction facts using List.reverseRecOn with
  | nil => exact ⟨v, hv, fun _ => Nat.le_refl _, fun _ => Ty.lub_self _⟩
  | append_singleton facts fact ih =>
    obtain ⟨w, hw, hrank, hty⟩ := ih
    have hearlier : (∀ fact' ∈ facts ++ [fact], SameSlot r fact'.1 →
        fact'.2.ty.Comparable v.ty) → w.ty.Below v.ty :=
      fun hall => hty fun fact' hmem => hall fact' (List.mem_append_left _ hmem)
    rw [refineAll_concat, value?_refine, hw]
    split
    · next hboth =>
      refine ⟨w.refine fact.2, rfl, fun h => ?_, fun hall => ?_⟩
      · rw [Value.rank_refine]
        exact Nat.le_trans (Nat.min_le_right _ _) (hrank h)
      · exact Value.ty_refine_below (hearlier hall) (hall fact (by simp) hboth.1)
    · exact ⟨w, rfl, hrank, hearlier⟩

/-- A store joined with one that says the same of a receiver, or more, as refining does. -/
theorem exists_value?_lub (hs : s.value? r = some v) (facts : List (Receiver × Value))
    (hs' : s'.value? r = some v) :
    ∃ w, ((Setting.refineAll s facts).lub s').value? r = some w ∧ w.KeepsQualifiers v ∧
      ((∀ fact ∈ facts, SameSlot r fact.1 → fact.2.ty.Comparable v.ty) → w.ty = v.ty) := by
  obtain ⟨w, hw, hrank, hty⟩ := exists_value?_refineAll hs facts
  refine ⟨w.lub v, ?_, Value.keepsQualifiers_lub hrank, fun hall => hty hall⟩
  rw [value?_lub, hw, hs']
  rfl

end Store

namespace Setting

/-- The receivers that the contracts for one outcome of a call name, as far as they can be read. -/
def promised (st : Setting) (g : Graph) (call : CallSite) (outcome : Bool) : List Receiver :=
  (st.contractFacts (.ofCall g st.tables.isDeterministic call)
    (st.contractsAt call.method (.conditionalPostcondition outcome))).map (·.1)

/-- A contract for one outcome of a call is about what a receiver stands for. -/
def Promises (st : Setting) (g : Graph) (call : CallSite) (outcome : Bool) (r : Receiver) : Prop :=
  ∃ r' ∈ st.promised g call outcome, Store.SameSlot r r'

instance (st : Setting) (g : Graph) (call : CallSite) (outcome : Bool) (r : Receiver) :
    Decidable (st.Promises g call outcome r) :=
  inferInstanceAs (Decidable (∃ r' ∈ st.promised g call outcome, Store.SameSlot r r'))

/-- The store after a call of which the outcome does not count yet: what the callee may change is
dropped, the result is recorded, and the postconditions are taken in. -/
def returnedStore (st : Setting) (g : Graph) (node : Node) (call : CallSite) (stores : Stores) :
    Store :=
  let s := stores.merged
  let r := st.receiverOf g node.id
  st.assumeAtCall g call .postcondition (s.afterMethodCall st.tables.oracle r
    (st.config.assumeSideEffectFree || st.tables.isSideEffectFree call.method)
    (Value.moreSpecific? (st.tableValue node) (s.value? r)))

/-- The store after a call that had a given outcome. -/
def outcomeStore (st : Setting) (g : Graph) (node : Node) (call : CallSite) (stores : Stores)
    (outcome : Bool) : Store :=
  st.assumeAtCall g call (.conditionalPostcondition outcome) (st.returnedStore g node call stores)

/-- What the join of the stores after either outcome of a call knows, against what is known
whatever the outcome. Only `this` can be named at several types, all of which then have to compare
with the type that is known. -/
structure ForgetsOutcome (st : Setting) (g : Graph) (call : CallSite) (s joined : Store) :
    Prop where
  unknown : ∀ r, (∃ outcome, ¬st.Promises g call outcome r) → s.value? r = none →
    joined.value? r = none
  known : ∀ r v, (∃ outcome, ¬st.Promises g call outcome r) → s.value? r = some v →
    ∃ w, joined.value? r = some w ∧ w.KeepsQualifiers v ∧
      ((∀ outcome, ∀ r' ∈ st.promised g call outcome, Store.SameSlot r r' →
        r'.ty.Comparable v.ty) → w.ty = v.ty)
  unnamed : ∀ r, (∀ outcome, ¬st.Promises g call outcome r) → KnownNormalized (s.value? r) →
    joined.value? r = s.value? r

variable {st : Setting} {g : Graph} {values : NodeValues} {node : Node} {stores : Stores}
  {call : CallSite} {m : Method} {receiver : NodeId} {arguments : List NodeId} {s : Store}
  {r : Receiver} {outcome : Bool}

theorem value?_assumeAtCall_of_not_promises (h : ¬st.Promises g call outcome r) (s : Store) :
    (st.assumeAtCall g call (.conditionalPostcondition outcome) s).value? r = s.value? r :=
  Store.value?_refineAll_of_ne (fun _ hfact hslot => h ⟨_, List.mem_map_of_mem hfact, hslot⟩) s

theorem fact_comparable {ty : Ty} (h : ∀ r' ∈ st.promised g call outcome, Store.SameSlot r r' →
    r'.ty.Comparable ty) :
    ∀ fact ∈ st.contractFacts (.ofCall g st.tables.isDeterministic call)
      (st.contractsAt call.method (.conditionalPostcondition outcome)),
      Store.SameSlot r fact.1 → fact.2.ty.Comparable ty := by
  intro fact hfact hslot
  have hnamed : fact.1 ∈ st.promised g call outcome := List.mem_map_of_mem hfact
  obtain ⟨c, -, r', -, rfl⟩ := mem_contractFacts.1 hfact
  exact h r' hnamed hslot

/-- What is promised for one outcome is forgotten where it is joined with the other. -/
theorem forgetsOutcome_lub (st : Setting) (g : Graph) (call : CallSite) (s : Store) :
    st.ForgetsOutcome g call s
      ((st.assumeAtCall g call (.conditionalPostcondition true) s).lub
        (st.assumeAtCall g call (.conditionalPostcondition false) s)) where
  unknown r hone hnone := by
    obtain ⟨outcome, hnot⟩ := hone
    have hbranch := (value?_assumeAtCall_of_not_promises hnot s).trans hnone
    rw [Store.value?_lub]
    cases outcome with
    | false => rw [hbranch, Value.lub?_none]
    | true => rw [hbranch]; rfl
  known r v hone hsome := by
    obtain ⟨outcome, hnot⟩ := hone
    have hbranch := (value?_assumeAtCall_of_not_promises hnot s).trans hsome
    cases outcome with
    | false =>
      obtain ⟨w, hw, hkept, hty⟩ := Store.exists_value?_lub hsome _ hbranch
      exact ⟨w, hw, hkept, fun hall => hty (fact_comparable (hall true))⟩
    | true =>
      obtain ⟨w, hw, hkept, hty⟩ := Store.exists_value?_lub hsome _ hbranch
      refine ⟨w, ?_, hkept, fun hall => hty (fact_comparable (hall false))⟩
      rw [Store.value?_lub, Value.lub?_comm, ← Store.value?_lub]
      exact hw
  unnamed r hnot hnormal := by
    rw [Store.value?_lub, value?_assumeAtCall_of_not_promises (hnot true),
      value?_assumeAtCall_of_not_promises (hnot false)]
    exact Value.lub?_self hnormal

end Setting

namespace CheckedNext

private def item : Ty := .declared "app.Item"

private def next : Field := ⟨⟨20⟩, "next", item, item, false, false⟩

private def last : Field := ⟨⟨21⟩, "last", item, item, false, false⟩

private def hasNext : Method := ⟨⟨30⟩, "hasNext", item, .primitive .boolean, false, false⟩

private def call : Node :=
  ⟨⟨1⟩, .primitive .boolean, none, true, .methodInvocation hasNext ⟨0⟩ []⟩

/-- `this.hasNext()` -/
private def graph : Graph where
  code := .fragment ⟨0⟩
  parameters := []
  nodes := [⟨⟨0⟩, item, none, true, .thisLiteral⟩, call]
  blocks := [⟨⟨0⟩, [⟨0⟩, ⟨1⟩], some (.goto ⟨1⟩), [], [⟨1⟩]⟩, ⟨⟨1⟩, [], none, [⟨0⟩], []⟩]
  entry := ⟨0⟩
  exit := ⟨1⟩

private def ensuresIfTrue (expression : String) (q : Qualifier) : Contract :=
  ⟨.conditionalPostcondition true, expression, q⟩

/-- If the call returns true, both fields are not null and the first one is interned. -/
private def setting : Setting :=
  .ofTables { Tables.empty with
    fields := [⟨next, [], none⟩, ⟨last, [], none⟩]
    methods := [⟨⟨30⟩, [ensuresIfTrue "this.next" .nonNull, ensuresIfTrue "this.next" .interned,
      ensuresIfTrue "this.last" .nonNull], true, false, []⟩] } .empty .default

private def thisNext : Receiver := .field (.this item) next

private def thisLast : Receiver := .field (.this item) last

/-- `this.next` may be null. -/
private def stores : Stores :=
  .regular ((Store.empty true).put thisNext (some (.of item [.nullable])))

end CheckedNext

end FlowTyping
