import FlowTyping.Proofs.Graph.LambdaBody
import FlowTyping.Proofs.Receiver.Grounded
import FlowTyping.Proofs.Store.Normalized
import FlowTyping.Proofs.Value.Lattice
import FlowTyping.Transfer

/-!
# The symmetry of comparisons

A comparison refines in two steps: the right operand by the value of the left one, then the left
operand by the value of the right one. A value that says strictly more than another one is not said
strictly more by it, so at most one of the steps does anything, and the order of the operands does
not show. The refined branch is the one in which the operands are equal, so `!=` is the mirror image
of `==`. A comparison with a truth value exchanges the branches of its operand for one of the two
operators, unless the operands are opposite truth values, where both do.
-/

namespace FlowTyping

open Value (KnownNormalized)

/-- A value does not say strictly more than one that says strictly more. -/
theorem Value.isStrictlyMorePrecise_asymm {v w : Value} (hv : v.Normalized) (hw : w.Normalized)
    (h : v.isStrictlyMorePrecise (some w) = true) : w.isStrictlyMorePrecise (some v) = false := by
  obtain ⟨hne, hbelow⟩ := (isStrictlyMorePrecise_iff hv hw).1 h
  refine Bool.eq_false_iff.2 fun hback => hne ?_
  have habove : w.Below v := ((isStrictlyMorePrecise_iff hw hv).1 hback).2
  calc v = w.lub v := habove.symm
    _ = v.lub w := lub_comm w v
    _ = w := hbelow

namespace Stores

/-- The branches exchanged; a single store is its own mirror image. -/
def mirror : Stores → Stores
  | regular s => regular s
  | conditional t e => conditional e t

end Stores

def Outcome.mirror (o : Outcome) : Outcome := ⟨o.value, o.stores.mirror⟩

/-- A node as the comparison of two operands. -/
def Node.comparing (node : Node) (notEqual : Bool) (left right : NodeId) : Node :=
  { node with kind := if notEqual then .notEqual left right else .equalTo left right }

/-- One of two operands is a truth value, and they are not opposite ones. -/
def Graph.ComparesTruth (g : Graph) (left right : NodeId) : Prop :=
  (∃ b, g.isBooleanLiteral left b = true ∨ g.isBooleanLiteral right b = true) ∧
    ¬∃ b, g.isBooleanLiteral left b = true ∧ g.isBooleanLiteral right (!b) = true

instance (g : Graph) (left right : NodeId) : Decidable (g.ComparesTruth left right) :=
  inferInstanceAs (Decidable (_ ∧ ¬_))

/-- The stores that a comparison refines. A comparison with the truth value that its operator denies
exchanges the branches of a pair. -/
def Graph.comparedStores (g : Graph) (left right : NodeId) (notEqual : Bool) (stores : Stores) :
    Stores :=
  if stores.isConditional && (g.isBooleanLiteral left notEqual || g.isBooleanLiteral right notEqual)
  then stores.swap else stores

/-- Two graphs find the same nodes, except that comparisons may compare other operands, and
differently. -/
structure Graph.SameButComparisons (g g' : Graph) : Prop where
  length_eq : g'.nodes.length = g.nodes.length
  found : ∀ id, g'.node? id = g.node? id ∨ ∃ node notEqual left right notEqual' left' right',
    g.node? id = some (Node.comparing node notEqual left right) ∧
      g'.node? id = some (node.comparing notEqual' left' right')

namespace Graph

variable {g g' : Graph} {id left right : NodeId} {b : Bool}

theorem isBooleanLiteral_not (h : g.isBooleanLiteral id b = true) :
    g.isBooleanLiteral id (!b) = false := by
  unfold isBooleanLiteral Node.isBooleanLiteral at h ⊢
  split at h
  · split at h
    · cases b <;> simp_all
    · cases h
  · cases h

/-- Exactly one of the two operators exchanges the branches at a comparison with a truth value. -/
theorem ComparesTruth.exchanges (h : g.ComparesTruth left right) :
    (g.isBooleanLiteral left true || g.isBooleanLiteral right true) =
      !(g.isBooleanLiteral left false || g.isBooleanLiteral right false) := by
  obtain ⟨⟨b, hsome⟩, hopposite⟩ := h
  have hthis : (g.isBooleanLiteral left b || g.isBooleanLiteral right b) = true := by
    rcases hsome with hleft | hright
    · rw [hleft, Bool.true_or]
    · rw [hright, Bool.or_true]
  have hother : (g.isBooleanLiteral left (!b) || g.isBooleanLiteral right (!b)) = false := by
    rw [Bool.or_eq_false_iff]
    rcases hsome with hleft | hright
    · refine ⟨isBooleanLiteral_not hleft, Bool.eq_false_iff.2 fun hright => ?_⟩
      exact hopposite ⟨b, hleft, hright⟩
    · refine ⟨Bool.eq_false_iff.2 fun hleft => ?_, isBooleanLiteral_not hright⟩
      exact hopposite ⟨!b, hleft, by rwa [Bool.not_not]⟩
  cases b with
  | false => exact hother.trans (congrArg not hthis).symm
  | true => exact hthis.trans (congrArg not hother).symm

theorem comparedStores_mirror {stores : Stores}
    (h : stores.isConditional = true → g.ComparesTruth left right) :
    g.comparedStores left right true stores =
      (g.comparedStores left right false stores).mirror := by
  unfold comparedStores
  cases stores with
  | regular s => rfl
  | conditional t e =>
    rw [(h rfl).exchanges]
    cases g.isBooleanLiteral left false || g.isBooleanLiteral right false <;> rfl

theorem SameButComparisons.refl (g : Graph) : g.SameButComparisons g :=
  ⟨rfl, fun _ => Or.inl rfl⟩

theorem SameButComparisons.isBooleanLiteral_eq (h : g.SameButComparisons g') (id : NodeId)
    (b : Bool) : g'.isBooleanLiteral id b = g.isBooleanLiteral id b := by
  rw [isBooleanLiteral, isBooleanLiteral]
  rcases h.found id with hsame | ⟨node, notEqual, left, right, notEqual', left', right', hg, hg'⟩
  · rw [hsame]
  · rw [hg, hg']
    cases notEqual <;> cases notEqual' <;> rfl

theorem SameButComparisons.ofNode_eq (h : g.SameButComparisons g')
    (isDeterministic : Method → Bool) (id : NodeId) :
    Receiver.ofNode g' isDeterministic id = Receiver.ofNode g isDeterministic id := by
  rw [Receiver.ofNode, Receiver.ofNode, h.length_eq]
  generalize g.nodes.length = depth
  induction depth generalizing id with
  | zero => rfl
  | succ depth ih =>
    rcases h.found id with
      hsame | ⟨node, notEqual, left, right, notEqual', left', right', hg, hg'⟩
    · exact Receiver.ofNodeWithin_succ_congr hsame fun part _ => ih part
    · simp only [Receiver.ofNodeWithin, hg, hg']
      cases notEqual <;> cases notEqual' <;> rfl

theorem SameButComparisons.assignedParts_eq (h : g.SameButComparisons g') (id : NodeId) :
    g'.assignedParts id = g.assignedParts id := by
  rw [assignedParts, assignedParts, h.length_eq]
  generalize g.nodes.length = depth
  induction depth generalizing id with
  | zero => rfl
  | succ depth ih =>
    rcases h.found id with
      hsame | ⟨node, notEqual, left, right, notEqual', left', right', hg, hg'⟩
    · simp only [assignedPartsWithin, hsame]
      cases g.node? id with
      | none => rfl
      | some node =>
        cases hkind : node.kind <;> simp only [hkind]
        next target expression => exact congrArg _ (ih expression)
    · simp only [assignedPartsWithin, hg, hg']
      cases notEqual <;> cases notEqual' <;> rfl

end Graph

namespace Setting

variable {st : Setting} {g g' : Graph} {values : NodeValues} {left right : NodeId}

/-- A value that does not say strictly more refines nothing. -/
theorem strengthen_of_not_precise {first secondValue : Option Value}
    (h : ∀ v, first = some v → v.isStrictlyMorePrecise secondValue = false) (second : NodeId)
    (notEqual : Bool) (stores : Stores) :
    st.strengthen g first second secondValue notEqual stores = stores := by
  cases first with
  | none => rfl
  | some v => rw [strengthen, h v rfl]; rfl

/-- Two operands refine each other in either order, since at most one refines the other. -/
theorem strengthen_comm {leftValue rightValue : Option Value} (hleft : KnownNormalized leftValue)
    (hright : KnownNormalized rightValue) (notEqual : Bool) (stores : Stores) :
    st.strengthen g rightValue left leftValue notEqual
        (st.strengthen g leftValue right rightValue notEqual stores) =
      st.strengthen g leftValue right rightValue notEqual
        (st.strengthen g rightValue left leftValue notEqual stores) := by
  by_cases hprecise : ∃ v, leftValue = some v ∧ v.isStrictlyMorePrecise rightValue = true
  · obtain ⟨v, rfl, hv⟩ := hprecise
    have hback : ∀ w, rightValue = some w → w.isStrictlyMorePrecise (some v) = false := by
      rintro w rfl
      exact Value.isStrictlyMorePrecise_asymm (hleft v rfl) (hright w rfl) hv
    rw [strengthen_of_not_precise hback, strengthen_of_not_precise hback]
  · have hnot : ∀ v, leftValue = some v → v.isStrictlyMorePrecise rightValue = false :=
      fun v hv => Bool.eq_false_iff.2 fun hvr => hprecise ⟨v, hv, hvr⟩
    rw [strengthen_of_not_precise hnot, strengthen_of_not_precise hnot]

/-- Inequality refines the mirror image of the branch that equality refines. -/
theorem strengthen_mirror (first : Option Value) (second : NodeId) (secondValue : Option Value)
    (stores : Stores) :
    st.strengthen g first second secondValue true stores.mirror =
      (st.strengthen g first second secondValue false stores).mirror := by
  cases first with
  | none => rfl
  | some v =>
    rw [strengthen, strengthen]
    split
    · cases st.refinedByEquality g second with
      | nil => rfl
      | cons r receivers => cases stores <;> rfl
    · rfl

theorem visit_comparing_eq (g : Graph) (values : NodeValues) (node : Node) (notEqual : Bool)
    (left right : NodeId) (stores : Stores) :
    st.visit g values (node.comparing notEqual left right) stores =
      (st.visitEquality g values (node.comparing notEqual left right) left right notEqual stores,
        .empty) := by
  have hself : g.lambdaBody (node.comparing notEqual left right) =
      node.comparing notEqual left right :=
    Graph.lambdaBody_eq_self fun id h => by cases notEqual <;> cases h
  rw [visit, hself]
  cases notEqual <;> rfl

theorem annotatedValue_comparing (node : Node) (notEqual notEqual' : Bool)
    (left right left' right' : NodeId) :
    st.annotatedValue (node.comparing notEqual left right) =
      st.annotatedValue (node.comparing notEqual' left' right') := by
  cases notEqual <;> cases notEqual' <;> rfl

theorem visitEquality_comm (hleft : KnownNormalized (values.get? left))
    (hright : KnownNormalized (values.get? right)) (node : Node) (notEqual : Bool)
    (stores : Stores) :
    st.visitEquality g values (node.comparing notEqual left right) left right notEqual stores =
      st.visitEquality g values (node.comparing notEqual right left) right left notEqual
        stores := by
  simp only [visitEquality, visitPlain, strengthen_comm hleft hright,
    annotatedValue_comparing node notEqual notEqual left right right left, Bool.or_comm]

theorem visitEquality_mirror (node : Node) {stores : Stores}
    (h : stores.isConditional = true → g.ComparesTruth left right) :
    st.visitEquality g values (node.comparing true left right) left right true stores =
      (st.visitEquality g values (node.comparing false left right) left right false
        stores).mirror := by
  have hsplit := Graph.comparedStores_mirror h
  simp only [Graph.comparedStores] at hsplit
  simp only [visitEquality, visitPlain, Outcome.mirror, hsplit, strengthen_mirror,
    annotatedValue_comparing node true false left right left right]
  rfl

/-- A comparison does not look at what the graph holds in its own place, nor at other
comparisons. -/
theorem visitEquality_sameButComparisons (h : g.SameButComparisons g') (node : Node)
    (notEqual : Bool) (stores : Stores) :
    st.visitEquality g' values node left right notEqual stores =
      st.visitEquality g values node left right notEqual stores := by
  have hrefined : ∀ operand, st.refinedByEquality g' operand = st.refinedByEquality g operand := by
    intro operand
    rw [refinedByEquality, refinedByEquality, h.assignedParts_eq]
    exact congrArg (List.filter _) (List.map_congr_left fun part _ => h.ofNode_eq _ part)
  simp only [visitEquality, strengthen, hrefined, h.isBooleanLiteral_eq]

/-- Which operand of a comparison stands first does not matter. Inequality exchanges the branches of
equality, after a single store and after a pair that is compared with a truth value. The graphs may
hold the comparisons that are visited, or other ones. -/
theorem visit_comparing (hsame : g.SameButComparisons g')
    (hleft : KnownNormalized (values.get? left)) (hright : KnownNormalized (values.get? right))
    (node : Node) (stores : Stores) :
    (∀ notEqual, st.visit g values (node.comparing notEqual left right) stores =
      st.visit g' values (node.comparing notEqual right left) stores) ∧
    ((stores.isConditional = true → g.ComparesTruth left right) →
      (st.visit g values (node.comparing true left right) stores).1 =
        (st.visit g' values (node.comparing false left right) stores).1.mirror) := by
  simp only [visit_comparing_eq, visitEquality_sameButComparisons hsame]
  refine ⟨fun notEqual => ?_, fun h => visitEquality_mirror node h⟩
  rw [visitEquality_comm hleft hright]

end Setting

namespace ComparedFlag

private def boolean : Ty := .primitive .boolean

private def flag : Variable := ⟨⟨10⟩, "flag", .localVariable, boolean, none⟩

private def other : Variable := ⟨⟨11⟩, "other", .localVariable, boolean, none⟩

private def comparison : Node := ⟨⟨2⟩, boolean, none, true, .equalTo ⟨0⟩ ⟨1⟩⟩

private def graph (notEqual : Bool) (left right : NodeId) : Graph where
  code := .fragment ⟨0⟩
  parameters := []
  nodes := [⟨⟨0⟩, boolean, none, true, .localVariable flag⟩,
    ⟨⟨1⟩, boolean, none, true, .literal (.boolean false)⟩,
    comparison.comparing notEqual left right]
  blocks := [⟨⟨0⟩, [⟨0⟩, ⟨1⟩, ⟨2⟩], some (.goto ⟨1⟩), [], [⟨1⟩]⟩, ⟨⟨1⟩, [], none, [⟨0⟩], []⟩]
  entry := ⟨0⟩
  exit := ⟨1⟩

private theorem graph_sameButComparisons (notEqual notEqual' : Bool)
    (left right left' right' : NodeId) :
    (graph notEqual left right).SameButComparisons (graph notEqual' left' right') where
  length_eq := rfl
  found
    | ⟨0⟩ => Or.inl rfl
    | ⟨1⟩ => Or.inl rfl
    | ⟨2⟩ => Or.inr ⟨comparison, notEqual, left, right, notEqual', left', right', rfl, rfl⟩
    | ⟨_ + 3⟩ => Or.inl rfl

private def setting : Setting := .ofTables .empty .empty .default

private def values : NodeValues := FinMap.empty.insert ⟨1⟩ (.of boolean [.nonNull])

private theorem values_normalized (n : NodeId) : KnownNormalized (values.get? n) := by
  rw [values, FinMap.get?_insert]
  split
  · exact (Value.normalized_of boolean [.nonNull]).known
  · exact Value.knownNormalized_none

/-- Where `flag` holds, something is known of `other`. -/
private def stores : Stores :=
  .conditional ((Store.empty true).put (.localVariable other) (some (.of boolean [.nonNull])))
    (.empty true)

/-- `flag == false` and `false == flag` give one result, and `flag != false` its mirror image. Where
`flag` is false its value is known, and what is known of `other` is in the other branch. -/
theorem flag_comparing :
    let g := graph false ⟨0⟩ ⟨1⟩
    let g' := graph false ⟨1⟩ ⟨0⟩
    let equal := setting.visit g values (comparison.comparing false ⟨0⟩ ⟨1⟩) stores
    (g.check = .ok () ∧ g'.check = .ok () ∧ g.SameButComparisons g' ∧
      KnownNormalized (values.get? ⟨0⟩) ∧ KnownNormalized (values.get? ⟨1⟩) ∧
      stores.isConditional = true ∧ g.ComparesTruth ⟨0⟩ ⟨1⟩) ∧
    equal.1.stores.thenStore.value? (.localVariable flag) = some (.of boolean [.nonNull]) ∧
    equal.1.stores.elseStore.value? (.localVariable other) = some (.of boolean [.nonNull]) ∧
    equal = setting.visit g' values (comparison.comparing false ⟨1⟩ ⟨0⟩) stores ∧
    (setting.visit g values (comparison.comparing true ⟨0⟩ ⟨1⟩) stores).1 = equal.1.mirror := by
  have hflag := values_normalized ⟨0⟩
  have hliteral := values_normalized ⟨1⟩
  have htruth : (graph false ⟨0⟩ ⟨1⟩).ComparesTruth ⟨0⟩ ⟨1⟩ := by decide
  have hsame := graph_sameButComparisons false false ⟨0⟩ ⟨1⟩ ⟨1⟩ ⟨0⟩
  refine ⟨⟨rfl, rfl, hsame, hflag, hliteral, rfl, htruth⟩, by decide, by decide, ?_, ?_⟩
  · exact (Setting.visit_comparing hsame hflag hliteral comparison stores).1 false
  · exact (Setting.visit_comparing (.refl _) hflag hliteral comparison stores).2 fun _ => htruth

end ComparedFlag

end FlowTyping
