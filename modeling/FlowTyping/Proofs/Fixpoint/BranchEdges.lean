import FlowTyping.Proofs.Fixpoint.Joins
import FlowTyping.Proofs.Fixpoint.Settled
import FlowTyping.Proofs.Graph.Building
import FlowTyping.Proofs.Store.Monotone

/-!
# What a condition sends along each edge

A block that ends in a condition leaves two stores, one for each outcome. A branch with distinct
targets sends its then block the one and its else block the other, and along every other edge that
knows of no outcome the stores should go out joined. They do, with one exception: a further
successor of a branch with distinct targets gets the store of the else outcome. Such successors come
from edges that were added by themselves or belong to an earlier terminator.
-/

namespace FlowTyping

/-- The outcome under which control goes to a block; none if either outcome can lead there. -/
def outcomeTo? : Option Terminator → BlockId → Option Bool
  | some (.branch thenBlock elseBlock), target =>
    if thenBlock = elseBlock then none
    else if target = thenBlock then some true
    else if target = elseBlock then some false
    else none
  | _, _ => none

/-- The store that holds under an outcome, or under both. -/
def Stores.given (stores : Stores) : Option Bool → Store
  | some true => stores.thenStore
  | some false => stores.elseStore
  | none => stores.merged

/-- The terminator is a branch with distinct targets, and the block is neither of them. -/
def IsBeside (terminator : Option Terminator) (target : BlockId) : Prop :=
  ∃ thenBlock elseBlock, terminator = some (.branch thenBlock elseBlock) ∧
    thenBlock ≠ elseBlock ∧ target ≠ thenBlock ∧ target ≠ elseBlock

variable {stores : Stores} {terminator : Option Terminator} {target : BlockId}

theorem outcomeTo?_of_isBeside (h : IsBeside terminator target) :
    outcomeTo? terminator target = none := by
  obtain ⟨thenBlock, elseBlock, rfl, hdistinct, hthen, helse⟩ := h
  simp [outcomeTo?, hdistinct, hthen, helse]

theorem edgeStore_of_isBeside (h : IsBeside terminator target) :
    edgeStore stores terminator target = stores.elseStore := by
  obtain ⟨thenBlock, elseBlock, rfl, hdistinct, hthen, -⟩ := h
  simp [edgeStore_eq, hdistinct, hthen]

theorem edgeStore_of_not_isBeside (h : ¬IsBeside terminator target) :
    edgeStore stores terminator target = stores.given (outcomeTo? terminator target) := by
  rw [edgeStore_eq]
  rcases terminator with _ | (_ | ⟨thenBlock, elseBlock⟩ | _ | _)
  case some.branch =>
    by_cases hdistinct : thenBlock = elseBlock
    · simp [outcomeTo?, hdistinct, Stores.given]
    · by_cases hthen : target = thenBlock
      · simp [outcomeTo?, hdistinct, hthen, Stores.given]
      · have helse : target = elseBlock := by
          by_contra helse
          exact h ⟨thenBlock, elseBlock, rfl, hdistinct, hthen, helse⟩
        have hother : elseBlock ≠ thenBlock := fun he => hdistinct he.symm
        simp [outcomeTo?, hdistinct, hother, helse, Stores.given]
  all_goals rfl

theorem Store.eq_lub_iff (t e : Store) :
    (e.sequential = (t.lub e).sequential ∧ ∀ r, e.value? r = (t.lub e).value? r) ↔ t.Below e := by
  rw [below_iff, sequential_lub, eq_comm]
  refine and_congr_right fun _ => forall_congr' fun r => ?_
  rw [value?_lub, eq_comm]
  exact Iff.rfl

namespace Graph

variable {g : Graph} {outputs : FinMap BlockId Stores}

theorem incoming_of_predecessors {block : Block} {p : BlockId} {before after : List BlockId}
    (hpredecessors : block.predecessors = before ++ p :: after) (hp : (g.block? p).isSome)
    {stores : Stores} (hout : outputs.get? p = some stores) :
    g.incoming outputs block =
      g.incoming outputs { block with predecessors := before } ++
        edgeStore stores (g.terminator? p) block.id ::
          g.incoming outputs { block with predecessors := after } := by
  obtain ⟨source, hsource⟩ := Option.isSome_iff_exists.1 hp
  have hterminator : g.terminator? p = source.terminator := by rw [terminator?, hsource]; rfl
  rw [incoming, hpredecessors, List.filterMap_append, List.filterMap_cons, hout, hsource,
    hterminator]
  rfl

/-- In a graph that is built by changes that name only blocks that exist by then, each successor of
a block with a conditional output has the block once among its predecessors. What it gets from there
is the store of the outcome that leads along the edge, except beside a branch with distinct
targets: there it gets the store of the else outcome instead of the join, and this is the same
exactly if the store of the then outcome says at least as much. -/
theorem incoming_of_conditional {code : Code} {parameters : List Variable} {changes : List Change}
    (hchanges : (new code parameters).Allows changes) {p s : BlockId}
    (hs : s ∈ ((new code parameters).build changes).successors p) {t e : Store}
    (hout : outputs.get? p = some (.conditional t e)) :
    let g := (new code parameters).build changes
    let sent := edgeStore (.conditional t e) (g.terminator? p) s
    let expected := (Stores.conditional t e).given (outcomeTo? (g.terminator? p) s)
    (∃ target before after, g.block? s = some target ∧
      target.predecessors = before ++ p :: after ∧ p ∉ before ++ after ∧
      g.incoming outputs target =
        g.incoming outputs { target with predecessors := before } ++
          sent :: g.incoming outputs { target with predecessors := after }) ∧
    (¬IsBeside (g.terminator? p) s → sent = expected) ∧
    (IsBeside (g.terminator? p) s → sent = e ∧ expected = t.lub e) ∧
    ((sent.sequential = expected.sequential ∧ ∀ r, sent.value? r = expected.value? r) ↔
      (IsBeside (g.terminator? p) s → t.Below e)) := by
  intro g sent expected
  have hlinked : g.Linked := (linked_new code parameters).build hchanges
  have hmissed : IsBeside (g.terminator? p) s → sent = e ∧ expected = t.lub e := fun h =>
    ⟨edgeStore_of_isBeside h, by simp only [expected, outcomeTo?_of_isBeside h]; rfl⟩
  refine ⟨?_, edgeStore_of_not_isBeside, hmissed, ?_⟩
  · have hp : p ∈ g.predecessors s := (hlinked.mirrored p s).1 hs
    obtain ⟨target, htarget⟩ : ∃ target, g.block? s = some target := by
      rw [← Option.isSome_iff_exists]
      cases hblock : g.block? s with
      | none => simp [predecessors, hblock] at hp
      | some _ => rfl
    rw [predecessors_of_block? htarget] at hp
    obtain ⟨before, after, hsplit⟩ := List.append_of_mem hp
    have hnodup := hlinked.nodup_predecessors s
    rw [predecessors_of_block? htarget, hsplit, List.nodup_middle, List.nodup_cons] at hnodup
    refine ⟨target, before, after, htarget, hsplit, hnodup.1, ?_⟩
    rw [incoming_of_predecessors hsplit (isSome_block?_of_successors hs) hout,
      hlinked.numbered s target htarget]
  · by_cases hbeside : IsBeside (g.terminator? p) s
    · obtain ⟨hsent, hexpected⟩ := hmissed hbeside
      rw [hsent, hexpected, Store.eq_lub_iff]
      exact ⟨fun h _ => h, fun h => h hbeside⟩
    · rw [show sent = expected from edgeStore_of_not_isBeside hbeside]
      exact ⟨fun _ h => absurd h hbeside, fun _ => ⟨rfl, fun _ => rfl⟩⟩

end Graph

namespace Handler

private def text : Ty := .declared "String"

private def x : Variable := ⟨⟨10⟩, "x", .localVariable, text, none⟩

/-- `try { if (x != "") … else … } catch …`. The comparison may fail, hence the edge from the entry
to the handler. -/
private def changes : List Graph.Change :=
  [.addBlock, .addBlock, .addNode (.localVariable x) text none,
    .addNode (.literal (.string "")) text (some ⟨1⟩),
    .addNode (.notEqual ⟨0⟩ ⟨1⟩) (.primitive .boolean) none,
    .pushNode ⟨0⟩ ⟨0⟩, .pushNode ⟨0⟩ ⟨1⟩, .pushNode ⟨0⟩ ⟨2⟩,
    .setTerminator ⟨0⟩ (.branch ⟨2⟩ ⟨1⟩), .addEdge ⟨0⟩ ⟨3⟩]

private def body : Graph := (Graph.new (.fragment ⟨0⟩) []).build changes

private def emptyText : Value := .of text [.nonNull, .interned]

private theorem exists_run :
    ∃ sol t e input, Setting.plain.analyze body none = .ok sol ∧ sol.converged = true ∧
      sol.outputs.get? ⟨0⟩ = some (.conditional t e) ∧ t.value? (.localVariable x) = none ∧
      e.value? (.localVariable x) = some emptyText ∧ sol.inputs.get? ⟨3⟩ = some input ∧
      input.value? (.localVariable x) = some emptyText := by
  have horder : body.reversePostorder = [⟨0⟩, ⟨3⟩, ⟨1⟩, ⟨2⟩] := by
    have hentry : body.entry = ⟨0⟩ := rfl
    have h₀ : body.successors ⟨0⟩ = [⟨2⟩, ⟨1⟩, ⟨3⟩] := by decide
    have h₁ : body.successors ⟨1⟩ = [] := by decide
    have h₂ : body.successors ⟨2⟩ = [] := by decide
    have h₃ : body.successors ⟨3⟩ = [] := by decide
    simp [Graph.reversePostorder, Graph.walk, Graph.Frame.enter, hentry, h₀, h₁, h₂, h₃]
  have hrun : (Setting.plain.analyze body none).toOption.any (fun sol =>
      (sol.outputs.get? ⟨0⟩).any fun out => (sol.inputs.get? ⟨3⟩).any fun input =>
        decide (sol.converged = true ∧ out.isConditional = true ∧
          out.thenStore.value? (.localVariable x) = none ∧
          out.elseStore.value? (.localVariable x) = some emptyText ∧
          input.value? (.localVariable x) = some emptyText)) = true := by
    simp only [Setting.analyze, Engine.solve, Engine.start, horder]
    decide
  obtain ⟨sol, hsol, hchecks⟩ := Solution.exists_of_any hrun
  obtain ⟨out, hout, hchecks⟩ := Option.any_eq_true _ _ |>.1 hchecks
  obtain ⟨input, hin, hchecks⟩ := Option.any_eq_true _ _ |>.1 hchecks
  obtain ⟨hc, hsplit, ht, he, hinput⟩ := of_decide_eq_true hchecks
  cases out with
  | regular s => cases hsplit
  | conditional t e => exact ⟨sol, t, e, input, hsol, hc, hout, ht, he, hin, hinput⟩

/-- Along the edge to the else block goes what is known if `x` is the empty text. -/
theorem incoming_elseBlock :
    (Graph.new (.fragment ⟨0⟩) []).Allows changes ∧ ⟨1⟩ ∈ body.successors ⟨0⟩ ∧
    ¬IsBeside (body.terminator? ⟨0⟩) ⟨1⟩ ∧
    ∃ sol t e target before after, Setting.plain.analyze body none = .ok sol ∧
      sol.outputs.get? ⟨0⟩ = some (.conditional t e) ∧ body.block? ⟨1⟩ = some target ∧
      target.predecessors = before ++ ⟨0⟩ :: after ∧ ⟨0⟩ ∉ before ++ after ∧
      body.incoming sol.outputs target =
        body.incoming sol.outputs { target with predecessors := before } ++
          e :: body.incoming sol.outputs { target with predecessors := after } ∧
      t.value? (.localVariable x) = none ∧ e.value? (.localVariable x) = some emptyText := by
  have hchanges : (Graph.new (.fragment ⟨0⟩) []).Allows changes := by decide
  have hs : ⟨1⟩ ∈ body.successors ⟨0⟩ := by decide
  have hbranch : ¬IsBeside (body.terminator? ⟨0⟩) ⟨1⟩ := by
    rintro ⟨thenBlock, elseBlock, hbranch, -, -, helse⟩
    cases hbranch
    exact helse rfl
  obtain ⟨sol, t, e, -, hsol, -, hout, ht, he, -⟩ := exists_run
  obtain ⟨⟨target, before, after, htarget, hsplit, honce, hincoming⟩, hsent, -⟩ :=
    Graph.incoming_of_conditional hchanges hs hout
  rw [hsent hbranch] at hincoming
  exact ⟨hchanges, hs, hbranch, sol, t, e, target, before, after, hsol, hout, htarget, hsplit,
    honce, hincoming, ht, he⟩

/-- The handler can be entered whether or not `x` is the empty text, but gets the store in which it
is. -/
theorem handler_gets_elseStore :
    (Graph.new (.fragment ⟨0⟩) []).Allows changes ∧ body.check = .ok () ∧
    ⟨3⟩ ∈ body.successors ⟨0⟩ ∧ body.predecessors ⟨3⟩ = [⟨0⟩] ∧
    body.terminator? ⟨0⟩ = some (.branch ⟨2⟩ ⟨1⟩) ∧
    ∃ sol t e input, Setting.plain.analyze body none = .ok sol ∧ sol.converged = true ∧
      sol.outputs.get? ⟨0⟩ = some (.conditional t e) ∧
      (t.lub e).value? (.localVariable x) = none ∧
      (edgeStore (.conditional t e) (body.terminator? ⟨0⟩) ⟨3⟩).value? (.localVariable x) =
        some emptyText ∧
      sol.inputs.get? ⟨3⟩ = some input ∧ input.value? (.localVariable x) = some emptyText := by
  obtain ⟨sol, t, e, input, hsol, hc, hout, ht, he, hin, hinput⟩ := exists_run
  have hjoin : (t.lub e).value? (.localVariable x) = none := by
    rw [Store.value?_lub, ht]
    rfl
  have hbeside : IsBeside (body.terminator? ⟨0⟩) ⟨3⟩ := ⟨⟨2⟩, ⟨1⟩, rfl, by decide⟩
  refine ⟨by decide, by decide, by decide, by decide, by decide, sol, t, e, input, hsol, hc, hout,
    hjoin, ?_, hin, hinput⟩
  rw [edgeStore_of_isBeside hbeside]
  exact he

end Handler

end FlowTyping
