import FlowTyping.Proofs.EntryStore.Facts
import FlowTyping.Proofs.Fixpoint.Run
import FlowTyping.Proofs.Transfer.Equality

/-!
# Comparisons of values that were read earlier

A comparison compares the values that its operands had when they were read, and refines the stores
that hold by now. In between an operand may have been written, as in `this.next == this.advance()`,
and what was known of it may have been dropped. The comparison leaves the receiver of an operand
alone exactly if the value of the other operand does not say strictly more than what was read, or
cannot be recorded, or is known already: `Setting.visit_comparing_keeps`. Whether the operand still
holds what was read plays no part.
-/

namespace FlowTyping

namespace Stores

variable {stores stores' : Stores} {r : Receiver}

def equal (stores : Stores) (notEqual : Bool) : Store :=
  if notEqual then stores.elseStore else stores.thenStore

def unequal (stores : Stores) (notEqual : Bool) : Store :=
  if notEqual then stores.thenStore else stores.elseStore

/-- What either branch knows of a receiver. -/
def values? (stores : Stores) (r : Receiver) : Option Value × Option Value :=
  (stores.thenStore.value? r, stores.elseStore.value? r)

/-- The branches know of a receiver what the branches of other stores know, in either order. -/
def SameUpToExchange (stores stores' : Stores) (r : Receiver) : Prop :=
  stores'.values? r = stores.values? r ∨ stores'.values? r = (stores.values? r).swap

instance (stores stores' : Stores) (r : Receiver) : Decidable (stores.SameUpToExchange stores' r) :=
  inferInstanceAs (Decidable (_ ∨ _))

/-- Where the branch for different operands knows the same, only the other branch counts. -/
theorem sameUpToExchange_iff (notEqual : Bool)
    (h : (stores'.unequal notEqual).value? r = (stores.unequal notEqual).value? r) :
    stores.SameUpToExchange stores' r ↔
      (stores'.equal notEqual).value? r = (stores.equal notEqual).value? r := by
  rw [SameUpToExchange, values?, values?, Prod.swap_prod_mk, Prod.mk.injEq, Prod.mk.injEq]
  cases notEqual with
  | false =>
    have hdiffer : stores'.elseStore.value? r = stores.elseStore.value? r := h
    change _ ↔ stores'.thenStore.value? r = stores.thenStore.value? r
    rw [hdiffer]
    exact ⟨fun hor => hor.elim And.left fun hex => hex.1.trans hex.2, fun heq => Or.inl ⟨heq, rfl⟩⟩
  | true =>
    have hdiffer : stores'.thenStore.value? r = stores.thenStore.value? r := h
    change _ ↔ stores'.elseStore.value? r = stores.elseStore.value? r
    rw [hdiffer]
    exact ⟨fun hor => hor.elim And.right fun hex => hex.2.trans hex.1, fun heq => Or.inl ⟨rfl, heq⟩⟩

theorem sameUpToExchange_swap :
    stores.swap.SameUpToExchange stores' r ↔ stores.SameUpToExchange stores' r := by
  have hswap : stores.swap.values? r = (stores.values? r).swap := rfl
  rw [SameUpToExchange, SameUpToExchange, hswap, Prod.swap_swap]
  exact or_comm

end Stores

theorem Graph.comparedStores_sameUpToExchange (g : Graph) (left right : NodeId) (notEqual : Bool)
    {stores stores' : Stores} {r : Receiver} :
    (g.comparedStores left right notEqual stores).SameUpToExchange stores' r ↔
      stores.SameUpToExchange stores' r := by
  rw [comparedStores]
  split
  · exact Stores.sameUpToExchange_swap
  · exact Iff.rfl

namespace Setting

variable {st : Setting} {g : Graph} {n o left right : NodeId} {read : Node} {values : NodeValues}
  {stores : Stores} {r : Receiver}

/-- Gives the receivers of the second operand the value of the first, if that says strictly more. -/
def equated (st : Setting) (g : Graph) (first : Option Value) (second : NodeId)
    (secondValue : Option Value) (s : Store) : Store :=
  match first with
  | none => s
  | some v =>
    if v.isStrictlyMorePrecise secondValue then insertAll s (st.refinedByEquality g second) v
    else s

theorem equal_strengthen (first : Option Value) (second : NodeId) (secondValue : Option Value)
    (notEqual : Bool) (stores : Stores) :
    (st.strengthen g first second secondValue notEqual stores).equal notEqual =
      st.equated g first second secondValue (stores.equal notEqual) := by
  cases first with
  | none => rfl
  | some v =>
    rw [strengthen, equated]
    split
    · cases st.refinedByEquality g second with
      | nil => rfl
      | cons r receivers => cases notEqual <;> rfl
    · rfl

theorem unequal_strengthen (first : Option Value) (second : NodeId) (secondValue : Option Value)
    (notEqual : Bool) (stores : Stores) :
    (st.strengthen g first second secondValue notEqual stores).unequal notEqual =
      stores.unequal notEqual := by
  cases first with
  | none => rfl
  | some v =>
    rw [strengthen]
    split
    · cases st.refinedByEquality g second with
      | nil => rfl
      | cons r receivers => cases notEqual <;> rfl
    · rfl

theorem sequential_insertAll (s : Store) (receivers : List Receiver) (v : Value) :
    (insertAll s receivers v).sequential = s.sequential := by
  induction receivers generalizing s with
  | nil => rfl
  | cons r receivers ih => exact (ih _).trans (Store.sequential_insert s r v)

theorem value?_insertAll_of_ne {receivers : List Receiver}
    (h : ∀ r' ∈ receivers, ¬Store.SameSlot r r') (s : Store) (v : Value) :
    (insertAll s receivers v).value? r = s.value? r := by
  induction receivers generalizing s with
  | nil => rfl
  | cons r' receivers ih =>
    have hstep : (s.insert r' v).value? r = s.value? r := by
      rw [Store.value?_insert, if_neg fun hboth => h r' List.mem_cons_self hboth.1]
    exact (ih (fun r'' hr'' => h r'' (List.mem_cons_of_mem _ hr'')) _).trans hstep

theorem sequential_equated (first : Option Value) (second : NodeId) (secondValue : Option Value)
    (s : Store) : (st.equated g first second secondValue s).sequential = s.sequential := by
  unfold equated
  split
  · rfl
  · split
    · exact sequential_insertAll s _ _
    · rfl

theorem value?_equated_of_ne
    (h : ∀ part ∈ g.assignedParts o, ¬Store.SameSlot r (st.receiverOf g part))
    (first secondValue : Option Value) (s : Store) :
    (st.equated g first o secondValue s).value? r = s.value? r := by
  unfold equated
  split
  · rfl
  · split
    · refine value?_insertAll_of_ne (fun r' hr' => ?_) s _
      obtain ⟨part, hpart, rfl⟩ := List.mem_map.1 (List.mem_filter.1 hr').1
      exact h part hpart
    · rfl

theorem assignedParts_of_not_assignment (hread : g.node? n = some read)
    (hassign : ∀ target expression, read.kind ≠ .assignment target expression) :
    g.assignedParts n = [n] := by
  rw [Graph.assignedParts]
  cases g.nodes.length with
  | zero => rfl
  | succ depth =>
    rw [Graph.assignedPartsWithin, hread]
    dsimp only
    split
    · next target expression hkind => exact absurd hkind (hassign target expression)
    · rfl

/-- Equality with an operand that is no assignment records the other value for its receiver, if that
says strictly more and the receiver is tracked. -/
theorem value?_equated (st : Setting) (hread : g.node? n = some read)
    (hassign : ∀ target expression, read.kind ≠ .assignment target expression)
    (first seen : Option Value) (s : Store) :
    (st.equated g first n seen s).value? (st.receiverOf g n) = s.value? (st.receiverOf g n) ↔
      ∀ v, first = some v → v.isStrictlyMorePrecise seen = true →
        s.tracks (st.receiverOf g n) = true → s.value? (st.receiverOf g n) = some v := by
  cases first with
  | none => simp [equated]
  | some v =>
    simp only [Option.some.injEq, forall_eq']
    by_cases hprecise : v.isStrictlyMorePrecise seen = true
    · have hself := Store.sameSlot_self (st.receiverOf g n)
      have hrefined : st.equated g (some v) n seen s = s.insert (st.receiverOf g n) v := by
        rw [equated, if_pos hprecise, refinedByEquality,
          assignedParts_of_not_assignment hread hassign]
        cases hinsertable : (st.receiverOf g n).isInsertable with
        | true => simp [insertAll, hinsertable]
        | false => simp [insertAll, hinsertable, Store.insert, Store.tracks]
      rw [hrefined, Store.value?_insert]
      by_cases htracks : s.tracks (st.receiverOf g n) = true
      · rw [if_pos ⟨hself, htracks⟩]
        exact ⟨fun h _ _ => h.symm, fun h => (h hprecise htracks).symm⟩
      · rw [if_neg fun hboth => htracks hboth.2]
        exact ⟨fun _ _ h => absurd h htracks, fun _ => rfl⟩
    · rw [equated, if_neg hprecise]
      exact ⟨fun _ h => absurd h hprecise, fun _ => rfl⟩

theorem stores_visit_comparing (g : Graph) (values : NodeValues) (node : Node) (notEqual : Bool)
    (left right : NodeId) (stores : Stores) :
    (st.visit g values (node.comparing notEqual left right) stores).1.stores =
      st.strengthen g (values.get? right) left (values.get? left) notEqual
        (st.strengthen g (values.get? left) right (values.get? right) notEqual
          (g.comparedStores left right notEqual stores)) := by
  rw [visit_comparing_eq]
  rfl

/-- A comparison leaves what is known of an operand's receiver as it was exactly if it leaves what
the branch with equal operands knows, and there only the value of the other operand matters. -/
theorem visit_comparing_keeps (hread : g.node? n = some read)
    (hassign : ∀ target expression, read.kind ≠ .assignment target expression)
    (hoperands : (left = n ∧ right = o) ∨ (left = o ∧ right = n))
    (hother : ∀ part ∈ g.assignedParts o,
      ¬Store.SameSlot (st.receiverOf g n) (st.receiverOf g part))
    (node : Node) (notEqual : Bool) :
    stores.SameUpToExchange
        (st.visit g values (node.comparing notEqual left right) stores).1.stores
        (st.receiverOf g n) ↔
      ∀ v, values.get? o = some v → v.isStrictlyMorePrecise (values.get? n) = true →
        ((g.comparedStores left right notEqual stores).equal notEqual).tracks
          (st.receiverOf g n) = true →
        ((g.comparedStores left right notEqual stores).equal notEqual).value?
          (st.receiverOf g n) = some v := by
  rw [← g.comparedStores_sameUpToExchange left right notEqual, stores_visit_comparing]
  generalize g.comparedStores left right notEqual stores = split
  rw [Stores.sameUpToExchange_iff notEqual (by rw [unequal_strengthen, unequal_strengthen]),
    equal_strengthen, equal_strengthen]
  rcases hoperands with ⟨rfl, rfl⟩ | ⟨rfl, rfl⟩
  · have hsame := value?_equated_of_ne hother (values.get? left) (values.get? right)
      (split.equal notEqual)
    have hiff := value?_equated st hread hassign (values.get? right) (values.get? left)
      (st.equated g (values.get? left) right (values.get? right) (split.equal notEqual))
    rwa [hsame, Store.tracks_congr (sequential_equated _ _ _ _)] at hiff
  · rw [value?_equated_of_ne hother]
    exact value?_equated st hread hassign _ _ _

/-- After an operand has been read, whatever else is visited, a comparison keeps what is known of
its receiver exactly if the value of the other operand does not say strictly more than what was
read, or cannot be recorded, or is known of the receiver already. -/
theorem run_comparing_keeps_iff {fixed : Option Store} {run run' : BlockRun}
    {between : List NodeId} (hread : g.node? n = some read)
    (hassign : ∀ target expression, read.kind ≠ .assignment target expression)
    (hrun : (st.engine fixed).runNodes g run (n :: between) = .ok run') (hn : n ∉ between)
    (hoperands : (left = n ∧ right = o) ∨ (left = o ∧ right = n))
    (hother : ∀ part ∈ g.assignedParts o,
      ¬Store.SameSlot (st.receiverOf g n) (st.receiverOf g part))
    (node : Node) (notEqual : Bool) :
    let r := st.receiverOf g n
    let seen := (st.visit g run.values read run.stores).1.value
    let equal := (g.comparedStores left right notEqual run'.stores).equal notEqual
    run'.stores.SameUpToExchange
        (st.visit g run'.values (node.comparing notEqual left right) run'.stores).1.stores r ↔
      ∀ v, run'.values.get? o = some v → v.isStrictlyMorePrecise seen = true →
        equal.tracks r = true → equal.value? r = some v := by
  have hseen : run'.values.get? n = (st.visit g run.values read run.stores).1.value := by
    obtain ⟨node', hnode', hrest⟩ := Engine.runNodes_cons_eq_ok.1 hrun
    obtain rfl : node' = read := Option.some.inj (hnode'.symm.trans hread)
    rw [Engine.runNodes_get?_of_notMem hrest hn, Engine.afterVisit, FinMap.get?_set, if_pos rfl]
    rfl
  intro r seen equal
  rw [visit_comparing_keeps hread hassign hoperands hother node notEqual, hseen]

end Setting

namespace StaleNext

private def cell : Ty := .declared "Cell"

private def next : Field := ⟨⟨20⟩, "next", cell, cell, false, false⟩

private def advance : Method := ⟨⟨30⟩, "advance", cell, cell, false, false⟩

private def self : Node := ⟨⟨0⟩, cell, none, true, .thisLiteral⟩

private def read : Node := ⟨⟨1⟩, cell, some ⟨1⟩, true, .fieldAccess ⟨0⟩ next⟩

private def call : Node := ⟨⟨2⟩, cell, some ⟨2⟩, true, .methodInvocation advance ⟨0⟩ []⟩

private def comparison : Node := ⟨⟨3⟩, .primitive .boolean, none, true, .equalTo ⟨1⟩ ⟨2⟩⟩

/-- `this.next == this.advance()` -/
private def graph : Graph where
  code := .fragment ⟨0⟩
  parameters := []
  nodes := [self, read, call, comparison]
  blocks := [⟨⟨0⟩, [⟨0⟩, ⟨1⟩, ⟨2⟩, ⟨3⟩], some (.goto ⟨1⟩), [], [⟨1⟩]⟩,
    ⟨⟨1⟩, [], none, [⟨0⟩], []⟩]
  entry := ⟨0⟩
  exit := ⟨1⟩

/-- The tables declare a qualifier of the field where it is read, and one of the result of the
call. -/
private def declaring (field result : Qualifier) : Setting :=
  .ofTables { Tables.empty with
    trees := [⟨⟨1⟩, none, [field]⟩, ⟨⟨2⟩, none, [result]⟩] } .empty .default

private def thisNext : Receiver := .field (.this cell) next

private def beforeRead (st : Setting) : BlockRun :=
  (st.engine none).afterVisit graph ⟨.regular (.empty true), .empty, false, .empty, []⟩ ⟨0⟩ self

private def afterCall (st : Setting) : BlockRun :=
  (st.engine none).afterVisit graph
    ((st.engine none).afterVisit graph (beforeRead st) ⟨1⟩ read) ⟨2⟩ call

private def compared (st : Setting) : Stores :=
  (st.visit graph (afterCall st).values comparison (afterCall st).stores).1.stores

private theorem other_receivers (st : Setting)
    (hdeterministic : st.tables.isDeterministic advance = false) :
    ∀ part ∈ graph.assignedParts ⟨2⟩, ¬Store.SameSlot thisNext (st.receiverOf graph part) := by
  intro part hpart hslot
  obtain rfl : part = ⟨2⟩ := List.mem_singleton.1 hpart
  have hresult : st.receiverOf graph ⟨2⟩ = .unknown cell := by
    simp [Setting.receiverOf, Receiver.ofNode, Receiver.ofNodeWithin, graph, Graph.node?, call,
      hdeterministic]
  rw [hresult] at hslot
  cases hslot

/-- A result that may be null says no more than a field that was read as not null. -/
theorem advance_keeps_next :
    let st := declaring .nonNull .nullable
    graph.node? ⟨1⟩ = some read ∧ (∀ target expression, read.kind ≠ .assignment target expression) ∧
    (st.engine none).runNodes graph (beforeRead st) [⟨1⟩, ⟨2⟩] = .ok (afterCall st) ∧
    (∀ part ∈ graph.assignedParts ⟨2⟩, ¬Store.SameSlot thisNext (st.receiverOf graph part)) ∧
    (afterCall st).stores.SameUpToExchange (compared st) thisNext := by
  have hassign : ∀ target expression, read.kind ≠ .assignment target expression := nofun
  have hother := other_receivers (declaring .nonNull .nullable) rfl
  have hkeeps := @Setting.run_comparing_keeps_iff (declaring .nonNull .nullable) graph ⟨1⟩ ⟨2⟩ ⟨1⟩
    ⟨2⟩ read none (beforeRead _) (afterCall _) [⟨2⟩] rfl hassign rfl (by decide)
    (Or.inl ⟨rfl, rfl⟩) hother comparison false
  refine ⟨rfl, hassign, rfl, hother, hkeeps.2 fun v hv hprecise => ?_⟩
  obtain rfl : v = .of cell [.nullable] := Option.some.inj (hv.symm.trans (by decide))
  exact absurd hprecise (by decide)

/-- The call may change the field, and what is known of it afterwards is nothing. Still the
comparison records that it is not null, since that says more than what was read before the call. -/
theorem advance_refines_next :
    let st := declaring .nullable .nonNull
    graph.check = .ok () ∧ st.receiverOf graph ⟨1⟩ = thisNext ∧ thisNext.isUnassignable = false ∧
    st.config.assumeSideEffectFree = false ∧ st.tables.isSideEffectFree advance = false ∧
    (∀ target expression, read.kind ≠ .assignment target expression) ∧
    (∀ part ∈ graph.assignedParts ⟨2⟩, ¬Store.SameSlot thisNext (st.receiverOf graph part)) ∧
    (st.engine none).runBlock graph .empty [⟨0⟩, ⟨1⟩, ⟨2⟩] (.empty true) = .ok (afterCall st) ∧
    graph.node? ⟨3⟩ = some comparison ∧
    (afterCall st).stores.values? thisNext = (none, none) ∧
    (compared st).values? thisNext = (some (.of cell [.nonNull]), none) ∧
    ¬(afterCall st).stores.SameUpToExchange (compared st) thisNext := by
  refine ⟨by decide, rfl, rfl, rfl, rfl, nofun, other_receivers _ rfl, rfl, rfl, by decide,
    by decide, by decide⟩

end StaleNext

end FlowTyping
