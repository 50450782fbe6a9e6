import FlowTyping.Proofs.Contract.FieldChain
import FlowTyping.Proofs.Receiver.Occurrence
import FlowTyping.Proofs.Store.RepeatedCall
import FlowTyping.Proofs.Store.WellFormed
import FlowTyping.Proofs.Transfer.Lookups
import FlowTyping.Proofs.Transfer.Monotone

/-!
# Visiting a call again

A call that is visited a second time, on the stores that the first visit left, drops what the callee
may change once more and applies the contracts once more, to the join of the two branches. Its value
is the same again, since no contract of a call speaks of the call itself. Each branch knows the same
receivers again. A qualifier may be lost where a field has newly reached a monotonic target, and a
type where only contracts for the other outcome speak of the receiver: `Setting.RepeatsBranch`.
-/

namespace FlowTyping

open Value (KnownNormalized RanksSurvive refineBy Survives)

namespace Receiver

theorem not_mem_children (r : Receiver) : r ∉ r.children :=
  induct_children (P := fun r => r ∉ r.children) (fun r hparts hr => hparts r hr hr) r

end Receiver

namespace Graph

variable {g : Graph} {n : NodeId} {isDeterministic : Method → Bool}

theorem Acyclic.grounded (hacyclic : g.Acyclic) (n : NodeId) : g.Grounded isDeterministic n := by
  induction hcard : (g.below g.OperandOf n).card using Nat.strong_induction_on generalizing n with
  | _ size ih =>
    apply Acc.intro
    rintro part ⟨node, hnode, hpart⟩
    have hoperand : g.OperandOf part n :=
      ⟨node, hnode, NodeKind.mem_operands_of_mem_receiverParts hpart⟩
    exact ih _ (hcard ▸ card_below_lt (hacyclic n) hnode hoperand) part rfl

end Graph

/-! ### Visiting a call -/

namespace Setting

variable {st : Setting} {g : Graph} {call : CallSite} {kind : ContractKind} {s s' : Store}
  {r k : Receiver} {fields : List Field} {node : Node} {m : Method} {receiver : NodeId}
  {arguments : List NodeId} {stores : Stores} {outcome : Bool}

def callFacts (st : Setting) (g : Graph) (call : CallSite) (kind : ContractKind) :
    List (Receiver × Value) :=
  st.contractFacts (.ofCall g st.tables.isDeterministic call) (st.contractsAt call.method kind)

/-- The values that contracts of a call for one time bring for a receiver. -/
def contractValues (st : Setting) (g : Graph) (call : CallSite) (kind : ContractKind) (s : Store)
    (r : Receiver) : List Value :=
  s.brought (st.callFacts g call kind) r

/-- The values that contracts of a call bring for a receiver where the call has one outcome. -/
def branchValues (st : Setting) (g : Graph) (call : CallSite) (outcome : Bool) (s : Store)
    (r : Receiver) : List Value :=
  st.contractValues g call .postcondition s r ++
    st.contractValues g call (.conditionalPostcondition outcome) s r

/-- Contracts of a call for one time refine what a store knows of a receiver. -/
def Refines (st : Setting) (g : Graph) (call : CallSite) (kind : ContractKind) (s : Store)
    (r : Receiver) : Prop :=
  ∃ fact ∈ st.callFacts g call kind, Store.SameSlot r fact.1 ∧ s.tracks fact.1 = true

instance : Decidable (st.Refines g call kind s r) :=
  inferInstanceAs (Decidable (∃ fact ∈ st.callFacts g call kind, _))

/-- The contracts that a call applies name a receiver as it is, and not `this` at another type. -/
def NamesAsIs (st : Setting) (g : Graph) (call : CallSite) (r : Receiver) : Prop :=
  ∀ kind, kind ≠ .precondition → ∀ fact ∈ st.callFacts g call kind,
    Store.SameSlot r fact.1 → fact.1 = r

/-- A call meets a receiver at a type: that of its value before the call, or that at which a
contract names it. -/
def SeenAt (st : Setting) (g : Graph) (call : CallSite) (s : Store) (r : Receiver) (ty : Ty) :
    Prop :=
  (∃ v, s.value? r = some v ∧ v.ty = ty) ∨
    ∃ kind, kind ≠ .precondition ∧ ∃ fact ∈ st.callFacts g call kind,
      Store.SameSlot r fact.1 ∧ fact.1.ty = ty

theorem namesAsIs_of_ne_this (hr : ∀ ty, r ≠ .this ty) (g : Graph) (call : CallSite) :
    st.NamesAsIs g call r := by
  intro kind _ fact _ hslot
  exact (Store.sameSlot_iff_eq fact.1 hr).1 hslot.symm

theorem contractValues_ne_nil_iff :
    st.contractValues g call kind s r ≠ [] ↔ st.Refines g call kind s r :=
  Store.brought_ne_nil_iff

theorem contractValues_congr (h : s.sequential = s'.sequential) (kind : ContractKind) :
    st.contractValues g call kind s r = st.contractValues g call kind s' r :=
  Store.brought_congr h _ r

theorem value?_assumeAtCall (kind : ContractKind) (s : Store) (r : Receiver) :
    (st.assumeAtCall g call kind s).value? r =
      refineBy (s.value? r) (st.contractValues g call kind s r) :=
  Store.value?_refineAll s _ r

@[simp] theorem sequential_assumeAtCall (kind : ContractKind) (s : Store) :
    (st.assumeAtCall g call kind s).sequential = s.sequential :=
  Store.sequential_refineAll s _

theorem normalized_contractValues : ∀ v ∈ st.contractValues g call kind s r, v.Normalized := by
  intro v hv
  obtain ⟨fact, hfact, -, rfl⟩ := Store.mem_brought.1 hv
  exact normalized_contractFacts fact hfact

theorem normalized_branchValues : ∀ v ∈ st.branchValues g call outcome s r, v.Normalized := by
  intro v hv
  rcases List.mem_append.1 hv with hv | hv <;> exact normalized_contractValues v hv

theorem ty_contractValues (hnames : st.NamesAsIs g call r) (hkind : kind ≠ .precondition) :
    ∀ v ∈ st.contractValues g call kind s r, v.ty = r.ty := by
  intro v hv
  obtain ⟨fact, hfact, ⟨hslot, -⟩, rfl⟩ := Store.mem_brought.1 hv
  have hnamed : fact.1 = r := hnames kind hkind fact hfact hslot
  obtain ⟨c, -, r', -, rfl⟩ := mem_contractFacts.1 hfact
  exact congrArg Receiver.ty hnamed

theorem seenAt_contractValues (hkind : kind ≠ .precondition) :
    ∀ v ∈ st.contractValues g call kind s r, st.SeenAt g call s' r v.ty := by
  intro v hv
  obtain ⟨fact, hfact, ⟨hslot, -⟩, rfl⟩ := Store.mem_brought.1 hv
  refine Or.inr ⟨kind, hkind, fact, hfact, hslot, ?_⟩
  obtain ⟨c, -, r', -, rfl⟩ := mem_contractFacts.1 hfact
  rfl

/-! ### The receiver of a call -/

theorem receiverOf_invocation (st : Setting) (hacyclic : g.Acyclic)
    (hnode : g.node? node.id = some node)
    (hkind : node.kind = .methodInvocation m receiver arguments) :
    st.receiverOf g node.id = .unknown node.ty ∨
      let context : ExpressionContext :=
        .ofCall g st.tables.isDeterministic ⟨m, receiver, arguments, node.tree⟩
      st.receiverOf g node.id = .call node.ty m context.receiver context.arguments := by
  have hgrounded : g.Grounded st.tables.isDeterministic node.id := hacyclic.grounded node.id
  have hreceiver := Receiver.ofNode_eq_succ hgrounded
  rw [receiverOf, hreceiver, Receiver.ofNodeWithin]
  simp only [hnode, hkind]
  split
  · exact Or.inr rfl
  · exact Or.inl rfl

theorem pathReader_ne_call {context : ExpressionContext} {e : String} {ty : Ty} :
    pathReader fields context e ≠ .ok (.call ty m context.receiver context.arguments) := by
  intro hread
  have hself := Receiver.not_mem_children (.call ty m context.receiver context.arguments)
  rw [Receiver.children, List.mem_cons, not_or] at hself
  rcases pathReader_cases hread with hthis | hargument | ⟨base, f, hfield⟩
  · exact hself.1 hthis
  · exact hself.2 hargument
  · cases hfield

theorem not_refines_self (hreader : st.reader = pathReader fields) (hacyclic : g.Acyclic)
    (hnode : g.node? node.id = some node)
    (hkind : node.kind = .methodInvocation m receiver arguments) (kind : ContractKind) (s : Store) :
    ¬st.Refines g ⟨m, receiver, arguments, node.tree⟩ kind s (st.receiverOf g node.id) := by
  rintro ⟨fact, hfact, hslot, htracks⟩
  obtain ⟨c, -, r, hread, rfl⟩ := mem_contractFacts.1 hfact
  rcases receiverOf_invocation st hacyclic hnode hkind with hunknown | hcall
  · rw [hunknown] at hslot
    cases hslot
    cases htracks
  · rw [hcall] at hslot
    cases hslot
    rw [hreader] at hread
    exact pathReader_ne_call hread

/-! ### The stores after a call -/

def callValue (st : Setting) (g : Graph) (node : Node) (s : Store) : Option Value :=
  Value.moreSpecific? (st.tableValue node) (s.value? (st.receiverOf g node.id))

/-- Whether a call is taken to have no side effects. -/
def isPure (st : Setting) (m : Method) : Bool :=
  st.config.assumeSideEffectFree || st.tables.isSideEffectFree m

@[simp] theorem sequential_returnedStore :
    (st.returnedStore g node call stores).sequential = stores.merged.sequential := by
  rw [returnedStore, sequential_assumeAtCall, Store.sequential_afterMethodCall]

@[simp] theorem sequential_outcomeStore :
    (st.outcomeStore g node call stores outcome).sequential = stores.merged.sequential := by
  rw [outcomeStore, sequential_assumeAtCall, sequential_returnedStore]

/-- What a call leaves of what is known before it of another receiver. -/
def leftByCall (st : Setting) (m : Method) (k : Receiver) (s : Store) : Option Value :=
  st.tables.leftByCall (st.isPure m) k (s.value? k)

/-- What is known of another receiver after a call that is visited on a store, for one outcome: what
the call has left, refined by the postconditions and by those for the outcome. -/
def inBranch (st : Setting) (g : Graph) (call : CallSite) (k : Receiver) (s : Store)
    (outcome : Bool) : Option Value :=
  refineBy (st.leftByCall call.method k s) (st.branchValues g call outcome s k)

theorem value?_outcomeStore_of_ne (hk : ¬Store.SameSlot k (st.receiverOf g node.id))
    (hflag : s.sequential = stores.merged.sequential) :
    (st.outcomeStore g node call stores outcome).value? k =
      refineBy (st.leftByCall call.method k stores.merged)
        (st.branchValues g call outcome s k) := by
  have hreturned : (st.returnedStore g node call stores).value? k =
      refineBy (st.leftByCall call.method k stores.merged)
        (st.contractValues g call .postcondition s k) := by
    rw [returnedStore, value?_assumeAtCall, Store.value?_afterMethodCall_of_ne st.tables hk,
      contractValues_congr (Store.sequential_afterMethodCall _ _ _ _ _),
      ← contractValues_congr hflag]
    rfl
  rw [outcomeStore, value?_assumeAtCall, hreturned, contractValues_congr sequential_returnedStore,
    ← contractValues_congr hflag, branchValues, Value.refineBy_append]

/-- After a call, its value is known of the call itself where calls are tracked. -/
theorem value?_outcomeStore_self
    (hself : ∀ kind (s : Store), ¬st.Refines g call kind s (st.receiverOf g node.id)) :
    (st.outcomeStore g node call stores outcome).value? (st.receiverOf g node.id) =
      if stores.merged.tracks (st.receiverOf g node.id) then st.callValue g node stores.merged
      else none := by
  have hnil : ∀ kind (s : Store), st.contractValues g call kind s (st.receiverOf g node.id) = [] :=
    fun kind s => Decidable.not_not.1 fun hne => hself kind s (contractValues_ne_nil_iff.1 hne)
  have htracks : ∀ s : Store, s.sequential = stores.merged.sequential →
      s.tracks (st.receiverOf g node.id) = stores.merged.tracks (st.receiverOf g node.id) :=
    fun s hs => Store.tracks_congr hs _
  rw [outcomeStore, value?_assumeAtCall, hnil, returnedStore, value?_assumeAtCall, hnil,
    Store.afterMethodCall]
  refine (Store.value?_replace _ _ _ _).trans ?_
  rw [if_pos (Store.sameSlot_self _), htracks]
  · rfl
  · split <;> rfl

theorem callValue_again
    (hself : ∀ kind (s : Store), ¬st.Refines g call kind s (st.receiverOf g node.id))
    (hunknown : stores.merged.tracks (st.receiverOf g node.id) = false →
      stores.merged.value? (st.receiverOf g node.id) = none)
    (hnormal : stores.merged.Normalized) :
    st.callValue g node
        ((st.outcomeStore g node call stores true).lub (st.outcomeStore g node call stores false)) =
      st.callValue g node stores.merged := by
  have htable : KnownNormalized (st.tableValue node) := fun _ hv => normalized_tableValue hv
  have hvalue : KnownNormalized (st.callValue g node stores.merged) :=
    htable.moreSpecific? (hnormal.value? _)
  rw [callValue, Store.value?_lub, value?_outcomeStore_self hself, value?_outcomeStore_self hself]
  cases htracks : stores.merged.tracks (st.receiverOf g node.id) with
  | true =>
    rw [if_pos rfl, Value.lub?_self hvalue, callValue]
    exact Value.moreSpecific?_moreSpecific? htable _
  | false =>
    rw [callValue, hunknown htracks]
    rfl

/-- A receiver of which a call has newly established that it has reached a monotonic target. -/
def NewlyReachedBy (st : Setting) (m : Method) (before after : Store) (r : Receiver) : Prop :=
  st.isPure m = false ∧ st.tables.NewlyReached r (before.value? r) (after.value? r)

/-- What a branch of a call is that is visited first on one store and then on another. -/
structure RepeatsBranch (st : Setting) (g : Graph) (call : CallSite) (outcome : Bool)
    (before joined first again : Store) : Prop where
  sequential : again.sequential = first.sequential
  known : ∀ r, (again.value? r).isSome = (first.value? r).isSome
  qualifiers : ∀ r, ¬st.NewlyReachedBy call.method before joined r →
    (again.value? r).map (·.qualifiers) = (first.value? r).map (·.qualifiers)
  /-- Of a newly reached target the contracts bring the other qualifiers back, or they are lost.
  The loss is a defect: a call cuts even a field that no code can assign to its target. -/
  newlyReached : ∀ r, st.NewlyReachedBy call.method before joined r →
    ∃ v w, first.value? r = some v ∧ again.value? r = some w ∧
      v.has .nonNull = true ∧ w.has .nonNull = true ∧
      (w.qualifiers = v.qualifiers ↔ ∀ q, v.has q = true → q = .nonNull ∨
        ∃ u ∈ st.branchValues g call outcome before r, u.has q = true)
  ty : ∀ r, (∀ s t, st.SeenAt g call before r s → st.SeenAt g call before r t → s.Comparable t) →
    (again.value? r).map (·.ty) = (first.value? r).map (·.ty)
  ty_iff : ∀ r, st.NamesAsIs g call r →
    ((again.value? r).map (·.ty) = (first.value? r).map (·.ty) ↔
      ∀ v, first.value? r = some v →
        st.Refines g call (.conditionalPostcondition !outcome) before r →
          st.Refines g call .postcondition before r ∨
            st.Refines g call (.conditionalPostcondition outcome) before r ∨
            r.ty.Comparable v.ty)

def callStores (st : Setting) (g : Graph) (node : Node) (call : CallSite) (stores : Stores) :
    Stores :=
  .conditional (st.outcomeStore g node call stores true) (st.outcomeStore g node call stores false)

section Other

/-! ### Receivers other than the call -/

variable (hk : ¬Store.SameSlot k (st.receiverOf g node.id)) (hnormal : stores.merged.Normalized)

include hk in
/-- The branches of a call join in either order. -/
theorem value?_merged_callStores (outcome : Bool) :
    (st.callStores g node call stores).merged.value? k =
      Value.lub? (st.inBranch g call k stores.merged outcome)
        (st.inBranch g call k stores.merged !outcome) := by
  have hjoin : (st.callStores g node call stores).merged.value? k =
      Value.lub? ((st.outcomeStore g node call stores true).value? k)
        ((st.outcomeStore g node call stores false).value? k) :=
    Store.value?_lub _ _ k
  rw [hjoin, value?_outcomeStore_of_ne hk rfl, value?_outcomeStore_of_ne hk rfl, ← inBranch,
    ← inBranch]
  cases outcome with
  | true => rfl
  | false => exact Value.lub?_comm _ _

include hk in
theorem survives_leftByCall (outcome : Bool) :
    Survives (st.leftByCall call.method k stores.merged)
      (Value.lub? (st.inBranch g call k stores.merged outcome)
        (st.inBranch g call k stores.merged !outcome))
      (st.leftByCall call.method k (st.callStores g node call stores).merged) := by
  rw [← value?_merged_callStores hk outcome]
  refine Tables.survives_leftByCall ?_ ?_ <;> rw [value?_merged_callStores hk outcome]
  · exact fun hsome => Value.isSome_lub?_refineBy hsome _ _
  · exact fun h => Value.rank?_lub?_refineBy_le _ _ _ h

include hk in
theorem ranksSurvive_leftByCall (outcome : Bool)
    (hleft : ¬st.NewlyReachedBy call.method stores.merged
      (st.callStores g node call stores).merged k) :
    RanksSurvive (st.leftByCall call.method k stores.merged)
      (Value.lub? (st.inBranch g call k stores.merged outcome)
        (st.inBranch g call k stores.merged !outcome))
      (st.leftByCall call.method k (st.callStores g node call stores).merged) := by
  rw [← value?_merged_callStores hk outcome]
  refine Tables.ranksSurvive_leftByCall (fun h => ?_) fun himpure hreached =>
    hleft ⟨himpure, hreached⟩
  rw [value?_merged_callStores hk outcome]
  exact Value.rank?_lub?_refineBy_le _ _ _ h

theorem seenAt_of_mem (outcome : Bool) {v : Value}
    (hv : v ∈ (st.leftByCall call.method k stores.merged).toList ++
      (st.contractValues g call .postcondition s k ++
        st.contractValues g call (.conditionalPostcondition outcome) s k ++
        st.contractValues g call (.conditionalPostcondition !outcome) s k)) :
    st.SeenAt g call stores.merged k v.ty := by
  simp only [List.mem_append, Option.mem_toList] at hv
  rcases hv with hv | (hv | hv) | hv
  · exact Or.inl (Tables.ty_leftByCall hv)
  · exact seenAt_contractValues (by simp) v hv
  · exact seenAt_contractValues (by simp) v hv
  · exact seenAt_contractValues (by simp) v hv

include hk

theorem value?_again_of_ne (outcome : Bool) :
    (st.outcomeStore g node call (st.callStores g node call stores) outcome).value? k =
      refineBy (st.leftByCall call.method k (st.callStores g node call stores).merged)
        (st.branchValues g call outcome stores.merged k) :=
  value?_outcomeStore_of_ne hk sequential_outcomeStore.symm

theorem isSome_again_of_ne (outcome : Bool) :
    ((st.outcomeStore g node call (st.callStores g node call stores) outcome).value? k).isSome =
      ((st.outcomeStore g node call stores outcome).value? k).isSome := by
  rw [value?_again_of_ne hk, value?_outcomeStore_of_ne hk rfl]
  exact Value.isSome_refineBy_again (survives_leftByCall hk outcome)

include hnormal in
theorem qualifiers_again_of_ne (outcome : Bool)
    (hleft : ¬st.NewlyReachedBy call.method stores.merged
      (st.callStores g node call stores).merged k) :
    ((st.outcomeStore g node call (st.callStores g node call stores) outcome).value? k).map
        (·.qualifiers) =
      ((st.outcomeStore g node call stores outcome).value? k).map (·.qualifiers) := by
  have hjoined : KnownNormalized ((st.callStores g node call stores).merged.value? k) := by
    rw [value?_merged_callStores hk outcome]
    exact Value.knownNormalized_lub? _ _
  rw [value?_again_of_ne hk, value?_outcomeStore_of_ne hk rfl]
  exact Value.qualifiers_refineBy_again (survives_leftByCall hk outcome)
    (Tables.knownNormalized_leftByCall (hnormal.value? k))
    (Tables.knownNormalized_leftByCall hjoined) normalized_branchValues
    (ranksSurvive_leftByCall hk outcome hleft)

include hnormal in
theorem newlyReached_again_of_ne (outcome : Bool)
    (hleft : st.NewlyReachedBy call.method stores.merged
      (st.callStores g node call stores).merged k) :
    ∃ v w, (st.outcomeStore g node call stores outcome).value? k = some v ∧
      (st.outcomeStore g node call (st.callStores g node call stores) outcome).value? k = some w ∧
      v.has .nonNull = true ∧ w.has .nonNull = true ∧
      (w.qualifiers = v.qualifiers ↔ ∀ q, v.has q = true → q = .nonNull ∨
        ∃ u ∈ st.branchValues g call outcome stores.merged k, u.has q = true) := by
  obtain ⟨himpure, hreached⟩ := hleft
  obtain ⟨j, hj, hnonNull, htarget⟩ := Tables.leftByCall_newlyReached hreached
  have hafter : st.leftByCall call.method k (st.callStores g node call stores).merged =
      some (.of j.ty [.nonNull]) := by
    rw [leftByCall, himpure]
    exact htarget
  rw [value?_again_of_ne hk, hafter]
  obtain ⟨w, hw⟩ : ∃ w, refineBy (some (.of j.ty [.nonNull]))
      (st.branchValues g call outcome stores.merged k) = some w := by
    rw [← Option.isSome_iff_exists, Value.isSome_refineBy]
    rfl
  rw [value?_merged_callStores hk outcome] at hj
  rw [value?_outcomeStore_of_ne hk rfl, ← inBranch]
  cases hthis : st.inBranch g call k stores.merged outcome with
  | none =>
    rw [hthis] at hj
    cases hj
  | some v =>
    have hv : v.has .nonNull = true := by
      cases hother : st.inBranch g call k stores.merged !outcome with
      | none =>
        rw [hthis, hother] at hj
        cases hj
      | some e =>
        rw [hthis, hother] at hj
        cases hj
        exact ((Value.has_nonNull_lub v e).1 hnonNull).1
    exact ⟨v, w, rfl, hw, hv, Value.has_nonNull_refineBy hw rfl,
      Value.qualifiers_refineBy_target (Tables.knownNormalized_leftByCall (hnormal.value? k))
        normalized_branchValues hthis hw hv⟩

theorem ty_again_of_ne (outcome : Bool)
    (hchain : ∀ s t, st.SeenAt g call stores.merged k s → st.SeenAt g call stores.merged k t →
      s.Comparable t) :
    ((st.outcomeStore g node call (st.callStores g node call stores) outcome).value? k).map
        (·.ty) =
      ((st.outcomeStore g node call stores outcome).value? k).map (·.ty) := by
  rw [value?_again_of_ne hk, value?_outcomeStore_of_ne hk rfl]
  refine Value.ty_refineBy_again_of_compare (survives_leftByCall hk outcome) fun v hv w hw => ?_
  exact hchain v.ty w.ty (seenAt_of_mem outcome hv) (seenAt_of_mem outcome hw)

theorem ty_again_iff_of_ne (outcome : Bool) (hnames : st.NamesAsIs g call k) :
    ((st.outcomeStore g node call (st.callStores g node call stores) outcome).value? k).map
        (·.ty) =
      ((st.outcomeStore g node call stores outcome).value? k).map (·.ty) ↔
      ∀ v, (st.outcomeStore g node call stores outcome).value? k = some v →
        st.Refines g call (.conditionalPostcondition !outcome) stores.merged k →
          st.Refines g call .postcondition stores.merged k ∨
            st.Refines g call (.conditionalPostcondition outcome) stores.merged k ∨
            k.ty.Comparable v.ty := by
  let brings := fun kind => st.contractValues g call kind stores.merged k
  have hty : ∀ v ∈ brings .postcondition ++ brings (.conditionalPostcondition outcome) ++
      brings (.conditionalPostcondition !outcome), v.ty = k.ty := by
    intro v hv
    simp only [List.mem_append] at hv
    rcases hv with (hv | hv) | hv <;> exact ty_contractValues hnames (by simp) v hv
  have hrefines : ∀ kind, brings kind ≠ [] ↔ st.Refines g call kind stores.merged k :=
    fun kind => contractValues_ne_nil_iff
  rw [value?_again_of_ne hk, value?_outcomeStore_of_ne hk rfl]
  refine (Value.ty_refineBy_again_iff (survives_leftByCall hk outcome) hty).trans ?_
  simp only [← hrefines, ne_eq, List.append_eq_nil_iff, not_and_or, or_assoc]
  exact Iff.rfl

end Other

theorem value?_of_untracked_call (hwell : s.WellFormed st.tables s.sequential)
    (hcall : r.isCallOrUnknown = true) (htracks : s.tracks r = false) : s.value? r = none := by
  refine Option.eq_none_iff_forall_not_mem.2 fun v hv => ?_
  cases r with
  | call ty m base arguments =>
    rw [Store.tracks, hwell.insertable _ v hv, Bool.true_and] at htracks
    exact hwell.concurrent htracks _ v hv
  | unknown ty => cases hwell.partitioned _ v hv
  | localVariable _ => cases hcall
  | field _ _ => cases hcall
  | this _ => cases hcall
  | className _ => cases hcall
  | array _ _ _ => cases hcall
  | literal _ _ => cases hcall

/-- A call that is visited again, on the stores that it has left, has its value again, and each
branch is repeated. -/
theorem invocation_again (hreader : st.reader = pathReader fields) (hacyclic : g.Acyclic)
    (hnode : g.node? node.id = some node)
    (hkind : node.kind = .methodInvocation m receiver arguments)
    (hwell : stores.merged.WellFormed st.tables stores.merged.sequential)
    (hnormal : stores.merged.Normalized) :
    let call : CallSite := ⟨m, receiver, arguments, node.tree⟩
    let after := st.callStores g node call stores
    st.callValue g node after.merged = st.callValue g node stores.merged ∧
      ∀ outcome, st.RepeatsBranch g call outcome stores.merged after.merged
        (st.outcomeStore g node call stores outcome)
        (st.outcomeStore g node call after outcome) := by
  intro call after
  have hself : ∀ kind (s : Store), ¬st.Refines g call kind s (st.receiverOf g node.id) :=
    fun kind s => not_refines_self hreader hacyclic hnode hkind kind s
  have hcall : (st.receiverOf g node.id).isCallOrUnknown = true := by
    rcases receiverOf_invocation st hacyclic hnode hkind with hunknown | hcall
    · rw [hunknown]
      rfl
    · rw [hcall]
      rfl
  have hvalue : st.callValue g node after.merged = st.callValue g node stores.merged :=
    callValue_again hself (value?_of_untracked_call hwell hcall) hnormal
  -- What is known of the call itself is its value, in each branch.
  have hown : ∀ outcome, (st.outcomeStore g node call after outcome).value?
      (st.receiverOf g node.id) =
        (st.outcomeStore g node call stores outcome).value? (st.receiverOf g node.id) := by
    intro outcome
    have hflag : after.merged.sequential = stores.merged.sequential := sequential_outcomeStore
    rw [value?_outcomeStore_self hself, value?_outcomeStore_self hself, hvalue,
      Store.tracks_congr hflag]
  have hne : ∀ k, Store.SameSlot k (st.receiverOf g node.id) → k = st.receiverOf g node.id :=
    fun k hk => (Store.sameSlot_call hcall).1 hk
  refine ⟨hvalue, fun outcome => ?_⟩
  exact {
    sequential := by
      rw [sequential_outcomeStore, sequential_outcomeStore]
      exact sequential_outcomeStore
    known := fun k => by
      by_cases hk : Store.SameSlot k (st.receiverOf g node.id)
      · rw [hne k hk, hown]
      · exact isSome_again_of_ne hk outcome
    qualifiers := fun k hleft => by
      by_cases hk : Store.SameSlot k (st.receiverOf g node.id)
      · rw [hne k hk, hown]
      · exact qualifiers_again_of_ne hk hnormal outcome hleft
    newlyReached := fun k hleft => by
      refine newlyReached_again_of_ne (fun hk => ?_) hnormal outcome hleft
      obtain ⟨-, -, base, f, hfield, -⟩ := hleft
      rw [← hne k hk, hfield] at hcall
      cases hcall
    ty := fun k hchain => by
      by_cases hk : Store.SameSlot k (st.receiverOf g node.id)
      · rw [hne k hk, hown]
      · exact ty_again_of_ne hk outcome hchain
    ty_iff := fun k hnames => by
      by_cases hk : Store.SameSlot k (st.receiverOf g node.id)
      · obtain rfl := hne k hk
        exact iff_of_true (by rw [hown]) fun _ _ hrefines => absurd hrefines (hself _ _)
      · exact ty_again_iff_of_ne hk outcome hnames }

end Setting

end FlowTyping
