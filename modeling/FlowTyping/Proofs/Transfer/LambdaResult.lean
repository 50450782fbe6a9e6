import FlowTyping.Proofs.Transfer.RepeatedCall
import FlowTyping.Proofs.Transfer.RepeatedVisit

/-!
# Lambda results

A lambda result is visited as the expression that it stands for, which has just been visited itself.
So visiting it is visiting that expression a second time, on the stores of the first visit. The
value is the same again. The branches are the same again unless the expression exchanges them, as a
negation does, or is a call: `Setting.visit_lambdaResult`.
-/

namespace FlowTyping

namespace Graph

variable {g : Graph} {node body : Node} {result o : NodeId}

/-- Looking deeper does not change what a node stands for once the depth counts the nodes under
it. -/
theorem lambdaBody_lambdaResult (hacyclic : g.Acyclic) (hnode : g.node? node.id = some node)
    (hkind : node.kind = .lambdaResult result) (hbody : g.node? result = some body) :
    g.lambdaBody node = g.lambdaBody body := by
  have hoperand : g.OperandOf result node.id := ⟨node, hnode, by simp [hkind, NodeKind.operands]⟩
  have hbelow : (g.below g.OperandOf result).card < g.nodes.length :=
    Nat.lt_of_lt_of_le (card_below_lt (hacyclic node.id) hnode hoperand) card_below_le
  obtain ⟨depth, hdepth⟩ := Nat.exists_eq_add_one.2 (Nat.zero_lt_of_lt hbelow)
  have hdeeper : ∀ depth', (g.below g.OperandOf result).card ≤ depth' →
      g.lambdaBodyWithin depth' body = g.lambdaBodyWithin g.nodes.length body := by
    intro depth' h
    have hagree : SearchesAgree (fun _ => false) g g g.nodes.length depth' result :=
      .of_acyclic hacyclic (fun _ _ => rfl) card_below_le h
    exact hagree.body body hbody
  rw [lambdaBody, lambdaBody, ← hdeeper depth (by omega), hdepth, lambdaBodyWithin]
  simp only [hkind, hbody]

/-- A visit does not look at the value of the visited node. -/
theorem not_mem_reads (hacyclic : g.Acyclic) (hnode : g.node? o = some node) :
    o ∉ g.reads node := by
  intro hread
  obtain ⟨n, hunder, hbody⟩ := exists_under_lambdaBodyWithin g.nodes.length hnode
  exact hacyclic o (Relation.TransGen.head' ⟨_, hbody, hread⟩ hunder)

end Graph

namespace Setting

variable {st : Setting} {g : Graph} {values : NodeValues} {fields : List Field}
  {node body : Node} {result : NodeId} {stores : Stores}

/-- What a second visit of a node does, on the stores that the first one left, against the first. -/
structure RepeatsVisit (st : Setting) (g : Graph) (values : NodeValues) (node : Node)
    (stores : Stores) (first again : Outcome) : Prop where
  value : again.value = first.value
  /-- A node that exchanges no branches and is no call leaves the branches as they are. -/
  kept : (∀ m receiver arguments, node.kind ≠ .methodInvocation m receiver arguments) →
    g.exchanges node first.stores = false → again.stores.SameBranches first.stores
  exchanged : g.exchanges node first.stores = true →
    (again.stores.SameBranches first.stores ↔
      first.stores.thenStore.agrees first.stores.elseStore = true)
  negation : ∀ operand, node.kind = .conditionalNot operand → again.stores = first.stores.swap
  comparison : ∀ left right notEqual,
    node.kind = (if notEqual then .notEqual left right else .equalTo left right) →
    g.comparisonExchanges left right notEqual first.stores = true →
    again.stores.equal notEqual =
        st.compared g values left right (first.stores.unequal notEqual) ∧
      again.stores.unequal notEqual = first.stores.equal notEqual
  call : ∀ m receiver arguments, node.kind = .methodInvocation m receiver arguments →
    let call : CallSite := ⟨m, receiver, arguments, node.tree⟩
    st.RepeatsBranch g call true stores.merged first.stores.merged first.stores.thenStore
        again.stores.thenStore ∧
      st.RepeatsBranch g call false stores.merged first.stores.merged first.stores.elseStore
        again.stores.elseStore

private theorem repeatsVisit_invocation (hacyclic : g.Acyclic)
    (hreader : st.reader = pathReader fields) (hnode : g.node? node.id = some node)
    (hwell : stores.merged.WellFormed st.tables stores.merged.sequential)
    (hnormal : stores.merged.Normalized) {m : Method} {receiver : NodeId} {arguments : List NodeId}
    (hkind : node.kind = .methodInvocation m receiver arguments) :
    let first := (st.visitBody g values node stores).1
    st.RepeatsVisit g values node stores first (st.visitBody g values node first.stores).1 := by
  intro first
  let call : CallSite := ⟨m, receiver, arguments, node.tree⟩
  have hvisit : ∀ stores, (st.visitBody g values node stores).1 =
      ⟨st.callValue g node stores.merged, st.callStores g node call stores⟩ := by
    intro stores
    rw [visitBody, hkind]
    rfl
  obtain ⟨hvalue, hbranches⟩ := invocation_again hreader hacyclic hnode hkind hwell hnormal
  have hkeeps : ∀ stores, g.exchanges node stores = false := fun stores => by
    rw [Graph.exchanges, hkind]
  have hfirst : first = _ := hvisit stores
  rw [hvisit, hfirst]
  exact {
    value := hvalue
    kept := fun hcall => absurd hkind (hcall m receiver arguments)
    exchanged := fun h => by
      rw [hkeeps] at h
      cases h
    negation := fun operand h => by
      rw [hkind] at h
      cases h
    comparison := fun left right notEqual h => by
      rw [hkind] at h
      cases notEqual <;> cases h
    call := fun m' receiver' arguments' h => by
      rw [hkind] at h
      cases h
      exact ⟨hbranches true, hbranches false⟩ }

theorem visitBody_repeats (hacyclic : g.Acyclic) (hreader : st.reader = pathReader fields)
    (hnode : g.node? node.id = some node)
    (hwell : stores.merged.WellFormed st.tables stores.merged.sequential)
    (hnormal : stores.merged.Normalized) :
    let first := (st.visitBody g values node stores).1
    st.RepeatsVisit g values node stores first (st.visitBody g values node first.stores).1 := by
  intro first
  by_cases hcall : ∃ m receiver arguments, node.kind = .methodInvocation m receiver arguments
  · obtain ⟨m, receiver, arguments, hkind⟩ := hcall
    exact repeatsVisit_invocation hacyclic hreader hnode hwell hnormal hkind
  · have hother : ∀ m receiver arguments, node.kind ≠ .methodInvocation m receiver arguments :=
      fun m receiver arguments h => hcall ⟨m, receiver, arguments, h⟩
    obtain ⟨hvalue, hkept⟩ := visitBody_again st g values hnormal hother
    exact {
      value := hvalue
      kept := fun _ => hkept
      exchanged := visitBody_again_of_exchanges
      negation := fun operand h => by
        rw [visitBody, h]
        rfl
      comparison := fun left right notEqual h hexchanges => by
        have hvisit : ∀ stores, (st.visitBody g values node stores).1.stores =
            (st.visitEquality g values node left right notEqual stores).stores := by
          intro stores
          rw [visitBody, h]
          cases notEqual <;> rfl
        have hfirst : first.stores = _ := hvisit stores
        rw [hvisit, hfirst]
        rw [hfirst] at hexchanges
        obtain ⟨hequal, hunequal, -⟩ := visitEquality_again_of_exchanges hexchanges
        exact ⟨hequal, hunequal⟩
      call := fun m receiver arguments h => absurd h (hother m receiver arguments) }

/-- A lambda result adds nothing to the value of its expression. It visits the expression once more,
which adds nothing to the branches either, unless the expression exchanges them or is a call. -/
theorem visit_lambdaResult (hacyclic : g.Acyclic)
    (hids : ∀ n found, g.node? n = some found → found.id = n)
    (hreader : st.reader = pathReader fields) (hnode : g.node? node.id = some node)
    (hkind : node.kind = .lambdaResult result) (hbody : g.node? result = some body)
    (hwell : stores.merged.WellFormed st.tables stores.merged.sequential)
    (hnormal : stores.merged.Normalized) :
    let first := (st.visit g values body stores).1
    let again := (st.visit g (values.set result first.value) node first.stores).1
    st.RepeatsVisit g values (g.lambdaBody body) stores first again := by
  intro first again
  have hagain : again = (st.visit g values body first.stores).1 := by
    have hwrapped : again = (st.visit g (values.set result first.value) body first.stores).1 := by
      change (st.visit g _ node first.stores).1 = _
      rw [visit, visit, Graph.lambdaBody_lambdaResult hacyclic hnode hkind hbody]
    rw [hwrapped]
    refine congrArg Prod.fst (visit_congr st g body first.stores fun o ho => ?_)
    have hne : o ≠ result := by
      rintro rfl
      exact Graph.not_mem_reads hacyclic hbody ho
    rw [FinMap.get?_set, if_neg hne]
  obtain ⟨n, -, hn⟩ := Graph.exists_under_lambdaBodyWithin g.nodes.length hbody
  have hfound : g.node? n = some (g.lambdaBody body) := hn
  have hself : g.node? (g.lambdaBody body).id = some (g.lambdaBody body) := by
    rw [hids n _ hfound]
    exact hfound
  rw [hagain]
  exact visitBody_repeats hacyclic hreader hself hwell hnormal

end Setting

namespace LambdaOver

private def item : Ty := .declared "app.Item"

private def boolean : Ty := .primitive .boolean

private def x : Variable := ⟨⟨10⟩, "x", .localVariable, item, none⟩

private def next : Field := ⟨⟨20⟩, "next", item, item, false, false⟩

/-- Other code cannot assign the root, which only ever moves from `null` to a value. -/
private def root : Field := ⟨⟨21⟩, "root", item, item, true, false⟩

private def hasNext : Method := ⟨⟨30⟩, "hasNext", item, boolean, false, false⟩

private def attach : Method := ⟨⟨31⟩, "attach", item, .void, false, false⟩

private def negation : Node := ⟨⟨3⟩, boolean, none, true, .conditionalNot ⟨2⟩⟩

private def comparison : Node := ⟨⟨5⟩, boolean, none, true, .equalTo ⟨2⟩ ⟨4⟩⟩

private def call : Node := ⟨⟨7⟩, boolean, none, true, .methodInvocation hasNext ⟨6⟩ []⟩

private def attachCall : Node := ⟨⟨11⟩, .void, none, true, .methodInvocation attach ⟨6⟩ []⟩

private def wrapper (index : Nat) (result : NodeId) : Node :=
  ⟨⟨index⟩, boolean, none, true, .lambdaResult result⟩

/-- `x -> !(x == null)`, `x -> (x == null) == false`, `() -> this.hasNext()` and
`() -> this.attach()` -/
private def graph : Graph where
  code := .lambda ⟨0⟩
  parameters := []
  nodes := [⟨⟨0⟩, item, none, true, .localVariable x⟩,
    ⟨⟨1⟩, .null, some ⟨1⟩, true, .literal .null⟩,
    ⟨⟨2⟩, boolean, none, true, .equalTo ⟨0⟩ ⟨1⟩⟩, negation,
    ⟨⟨4⟩, boolean, none, true, .literal (.boolean false)⟩, comparison,
    ⟨⟨6⟩, item, none, true, .thisLiteral⟩, call,
    wrapper 8 ⟨3⟩, wrapper 9 ⟨5⟩, wrapper 10 ⟨7⟩, attachCall, wrapper 12 ⟨11⟩]
  blocks := [⟨⟨0⟩, (List.range 13).map .mk, some (.goto ⟨1⟩), [], [⟨1⟩]⟩,
    ⟨⟨1⟩, [], none, [⟨0⟩], []⟩]
  entry := ⟨0⟩
  exit := ⟨1⟩

/-- If `hasNext` returns true, the next item is not null; the call has no side effects. After
`attach` the root is not null. -/
private def setting : Setting :=
  .ofTables { Tables.empty with
    fields := [⟨next, [], none⟩, ⟨root, [.monotonicNonNull], none⟩]
    methods :=
      [⟨⟨30⟩, [⟨.conditionalPostcondition true, "this.next", .nonNull⟩], true, false, []⟩,
        ⟨⟨31⟩, [⟨.postcondition, "this.root", .nonNull⟩], false, false, []⟩] }
    .empty .default

private def thisNext : Receiver := .field (.this item) next

private def thisRoot : Receiver := .field (.this item) root

/-- The stores after `x == null`, in a class in which the next item is known to be a leaf. -/
private def stores : Stores :=
  .conditional ((Store.empty true).insert (.localVariable x) (.of .null [.nullable])) (.empty true)

private def leafKnown : Stores :=
  .regular ((Store.empty true).insert thisNext (.of (.declared "app.Leaf") [.interned]))

private def rootInterned : Stores :=
  .regular ((Store.empty true).insert thisRoot (.of item [.interned]))

private def first (node : Node) (stores : Stores) : Outcome :=
  (setting.visit graph .empty node stores).1

/-- What a lambda result for a node comes to after the node. -/
private def again (node : Node) (index : Nat) (stores : Stores) : Outcome :=
  (setting.visit graph (FinMap.empty.set node.id (first node stores).value)
    (wrapper index node.id) (first node stores).stores).1

private theorem graph_acyclic : graph.Acyclic := Graph.acyclic_of_index_lt (by decide)

private theorem graph_ids (n : NodeId) (found : Node) (h : graph.node? n = some found) :
    found.id = n :=
  (Graph.node?_of_check (by decide) h).1

/-- Visiting the call again keeps what is known to be interned, in both branches, and where the call
returned true the next item is still an item that is not null. -/
theorem hasNext_visit_again :
    (graph.Acyclic ∧ (∀ n found, graph.node? n = some found → found.id = n) ∧
      setting.reader = pathReader setting.tables.fieldList ∧
      graph.node? ⟨10⟩ = some (wrapper 10 ⟨7⟩) ∧ graph.node? ⟨7⟩ = some call ∧
      leafKnown.merged.WellFormed setting.tables true ∧ leafKnown.merged.Normalized) ∧
    let first := first call leafKnown
    let again := again call 10 leafKnown
    again.value = first.value ∧
    again.stores.thenStore.value? thisNext = first.stores.thenStore.value? thisNext ∧
    first.stores.thenStore.value? thisNext = some (.of item [.nonNull, .interned]) ∧
    (again.stores.elseStore.value? thisNext).map (·.qualifiers) =
      (first.stores.elseStore.value? thisNext).map (·.qualifiers) := by
  have hwell : leafKnown.merged.WellFormed setting.tables true :=
    Store.closed_wellFormed setting.tables true _ (.insert thisNext _)
      (Store.wellFormed_empty setting.tables true)
  have hnormal : leafKnown.merged.Normalized :=
    (Store.normalized_empty true).insert thisNext (Value.normalized_of _ _)
  have hrepeats := @Setting.visit_lambdaResult setting graph .empty setting.tables.fieldList
    (wrapper 10 ⟨7⟩) call ⟨7⟩ leafKnown graph_acyclic graph_ids rfl rfl rfl rfl hwell hnormal
  obtain ⟨hthen, helse⟩ := hrepeats.call hasNext ⟨6⟩ [] rfl
  have hnot : ∀ joined, ¬setting.NewlyReachedBy hasNext leafKnown.merged joined thisNext := by
    rintro joined ⟨himpure, -⟩
    exact absurd himpure (by decide)
  have hnames : setting.NamesAsIs graph ⟨hasNext, ⟨6⟩, [], none⟩ thisNext :=
    Setting.namesAsIs_of_ne_this (by simp [thisNext]) _ _
  have hty : ((again call 10 leafKnown).stores.thenStore.value? thisNext).map (·.ty) =
      ((first call leafKnown).stores.thenStore.value? thisNext).map (·.ty) :=
    (hthen.ty_iff thisNext hnames).2 fun v _ hother => absurd hother (by decide)
  exact ⟨⟨graph_acyclic, graph_ids, rfl, rfl, rfl, hwell, hnormal⟩, hrepeats.value,
    Value.known_ext hty (hthen.qualifiers thisNext (hnot _)), by decide,
    helse.qualifiers thisNext (hnot _)⟩

/-- Lambda results for a negation and for a comparison with `false` exchange the branches again. One
for a call of `hasNext` forgets the type of the next item where the call returned false, since no
contract names it there. One for a call of `attach` forgets that the root is interned, since a call
wrongly leaves even of a final monotonic field only that it is not null. -/
theorem branches_changed_again :
    graph.check = .ok () ∧ graph.Acyclic ∧
    (again negation 8 stores).stores = (first negation stores).stores.swap ∧
    ¬(again negation 8 stores).stores.SameBranches (first negation stores).stores ∧
    ¬(again comparison 9 stores).stores.SameBranches (first comparison stores).stores ∧
    (first call leafKnown).stores.elseStore.value? thisNext =
      some (.of (.declared "app.Leaf") [.interned]) ∧
    (again call 10 leafKnown).stores.elseStore.value? thisNext =
      some (.of .object [.interned]) ∧
    (first attachCall rootInterned).stores.thenStore.value? thisRoot =
      some (.of item [.nonNull, .interned]) ∧
    (again attachCall 12 rootInterned).stores.thenStore.value? thisRoot =
      some (.of item [.nonNull]) := by
  exact ⟨by decide, graph_acyclic, rfl, by decide, by decide, by decide, by decide, by decide,
    by decide⟩

end LambdaOver

end FlowTyping
