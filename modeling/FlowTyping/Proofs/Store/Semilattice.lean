import FlowTyping.Proofs.Store.Distribute

/-!
# The semilattice of stores

Up to what they know, stores with the same semantics form a join semilattice: the join does not
depend on the order or the grouping of its members, and it is the least store above them. It is
enough to look at one slot at a time, where knowing nothing is the top; a slot is a local, `this`,
a field, an array element, a call or a class name alike.
-/

namespace FlowTyping

namespace Store

variable {s t u : Store}

/-- Every value that a store knows is normalized. -/
def Normalized (s : Store) : Prop := ∀ slot v, s.known slot = some v → v.Normalized

theorem normalized_empty (sequential : Bool) : (empty sequential).Normalized := by
  intro slot v hv
  cases slot <;> cases hv

theorem Normalized.put (h : s.Normalized) (r : Receiver) {v : Value} (hv : v.Normalized) :
    (s.put r (some v)).Normalized := by
  intro slot w hw
  rw [known_put] at hw
  split at hw
  · exact Option.some.inj hw ▸ hv
  · exact h slot w hw

theorem lub_comm_agrees (h : s.sequential = t.sequential) :
    (s.lub t).agrees (t.lub s) = true := by
  apply agrees_iff_known.2
  refine ⟨h, fun slot => ?_⟩
  rw [known_lub, known_lub, Value.lub?_comm]

theorem lub_assoc_agrees (s t u : Store) :
    ((s.lub t).lub u).agrees (s.lub (t.lub u)) = true := by
  apply agrees_iff_known.2
  refine ⟨rfl, fun slot => ?_⟩
  rw [known_lub, known_lub, known_lub, known_lub, Value.lub?_assoc]

theorem lub_self_agrees (h : s.Normalized) : (s.lub s).agrees s = true := by
  apply agrees_iff_known.2
  refine ⟨rfl, fun slot => ?_⟩
  rw [known_lub, Value.lub?_self (h slot)]

/-- Widening a store is joining it. -/
theorem widen_eq_lub (s previous : Store) : s.widen previous = s.lub previous := rfl

/-- The join of stores is commutative, associative and idempotent and is the least store above
both; widening gives a store above both, too. -/
theorem lub_semilattice (u : Store) (hs : s.Normalized) (hst : s.sequential = t.sequential) :
    (s.lub t).agrees (t.lub s) = true ∧
    ((s.lub t).lub u).agrees (s.lub (t.lub u)) = true ∧
    (s.lub s).agrees s = true ∧
    s.Below (s.lub t) ∧ t.Below (s.lub t) ∧
    (s.Below u → t.Below u → (s.lub t).Below u) ∧
    s.Below (s.widen t) ∧ t.Below (s.widen t) := by
  have hleft : s.Below (s.lub t) := below_lub_left s t
  have hright : t.Below (s.lub t) := below_lub_right hst.symm
  rw [widen_eq_lub]
  exact ⟨lub_comm_agrees hst, lub_assoc_agrees s t u, lub_self_agrees hs, hleft, hright,
    fun hsu htu => lub_below hsu htu, hleft, hright⟩

end Store

namespace TwoPaths

private def node : Ty := .declared "app.Node"

private def x : Receiver := .localVariable ⟨⟨10⟩, "x", .localVariable, node, none⟩

private def next : Receiver := .field x ⟨⟨20⟩, "next", node, node, false, false⟩

private def length : Receiver := .call (.primitive .int) ⟨⟨30⟩, "length", node, .primitive .int,
  false, false⟩ x []

/-- After `x = new Node(); x.next = null;`, with the length known. -/
private def created : Store :=
  (((Store.empty true).put x (some (.of node [.nonNull]))).put next
    (some (.of .null [.nullable]))).put length (some (.of (.primitive .byte) [.nonNull]))

private def linked : Store :=
  (((Store.empty true).put (.this node) (some (.of node [.nonNull]))).put next
    (some (.of node [.nonNull]))).put length (some (.of (.primitive .char) [.nonNull]))

private def anyNext : Store := (Store.empty true).put next (some (.of .object [.nullable]))

private theorem below_anyNext {s : Store} (hflag : s.sequential = true) {v : Value}
    (hnext : s.value? next = some v) (hv : v.Below (.of .object [.nullable])) :
    s.Below anyNext := by
  refine ⟨hflag, fun r w hw => ?_⟩
  rw [anyNext, Store.value?_put] at hw
  split at hw
  · next hslot =>
    obtain rfl : r = next := by cases r <;> exact hslot
    cases hw
    exact ⟨v, hnext, hv⟩
  · rw [Store.value?_empty] at hw
    cases hw

/-- Where the paths meet, `x` and `this` are known on one side only. -/
theorem created_linked_semilattice :
    created.sequential = linked.sequential ∧ created.Normalized ∧
    (created.lub linked).value? x = none ∧ (created.lub linked).value? (.this node) = none ∧
    (created.lub linked).value? next = some (.of node [.nullable]) ∧
    (created.lub linked).value? length = some (.of (.primitive .int) [.nonNull]) ∧
    (created.lub linked).agrees (linked.lub created) = true ∧
    created.Below (created.lub linked) ∧ linked.Below (created.widen linked) ∧
    (created.lub linked).Below anyNext := by
  have hflag : created.sequential = linked.sequential := rfl
  have hnormalized : created.Normalized :=
    (((Store.normalized_empty true).put x (by decide)).put next (by decide)).put length
      (by decide)
  obtain ⟨hcomm, -, -, hleft, -, hleast, -, hwiden⟩ :=
    Store.lub_semilattice anyNext hnormalized hflag
  have hcreated : created.Below anyNext := below_anyNext (v := .of .null [.nullable]) rfl
    (by decide) (by decide)
  have hlinked : linked.Below anyNext := below_anyNext (v := .of node [.nonNull]) rfl
    (by decide) (by decide)
  exact ⟨hflag, hnormalized, by decide, by decide, by decide, by decide, hcomm, hleft, hwiden,
    hleast hcreated hlinked⟩

end TwoPaths

end FlowTyping
