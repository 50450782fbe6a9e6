import FlowTyping.Proofs.Fixpoint.LeastSolution
import FlowTyping.Proofs.Fixpoint.Rising

/-!
# Convergence of monotone bodies

A run over a monotone body ends. The first run of a block makes the blocks that have not been
computed fewer; a later one wakes other blocks only if some store or value has lost precision, and
each of them can lose it only so often; all other turns shorten the worklist. A comparison that
records what an operand held when it was read can make a loop run for ever.
-/

namespace FlowTyping

open Value (KnownBelow)

namespace Engine

variable {st : Setting} {fixed : Option Store} {g : Graph} {config : Config} {initial : Store}
  {p p' : Progress} {id : BlockId} {rest : List BlockId} {block : Block} {joined : Store}
  {run : BlockRun}

/-! ### The measure -/

def uncomputed (g : Graph) (outputs : FinMap BlockId Stores) : Finset Nat :=
  {i ∈ Finset.range g.blocks.length | outputs.get? ⟨i⟩ = none}

/-- How often outputs and values can still be weakened. -/
def heights (p : Progress) : Nat := p.outputs.weight Stores.depth + Value.heights p.values

/-- What falls with every turn, the first part that changes being decisive. -/
def convergenceMeasure (g : Graph) (p : Progress) : Nat × Nat × Nat :=
  ((uncomputed g p.outputs).card, heights p, p.worklist.length)

theorem uncomputed_settle_subset {input : Store} :
    uncomputed g (settle p id block input run).outputs ⊆ uncomputed g p.outputs := by
  intro i hi
  rw [uncomputed, Finset.mem_filter] at hi ⊢
  refine ⟨hi.1, ?_⟩
  rw [← Option.not_isSome_iff_eq_none] at hi ⊢
  exact fun hsome => hi.2 (isSome_settle_outputs hsome)

theorem uncomputed_settle_ssubset {input : Store} (hblock : g.block? id = some block)
    (hout : p.outputs.get? id = none) :
    uncomputed g (settle p id block input run).outputs ⊂ uncomputed g p.outputs := by
  refine Finset.ssubset_iff_of_subset uncomputed_settle_subset |>.2 ⟨id.index, ?_, ?_⟩
  · rw [uncomputed, Finset.mem_filter, Finset.mem_range]
    exact ⟨(List.getElem?_eq_some_iff.1 hblock).1, hout⟩
  · have hw : wakes p id run = true := by
      cases hw : wakes p id run with
      | true => rfl
      | false =>
        obtain ⟨-, old, hold, -⟩ := wakes_eq_false.1 hw
        rw [hout] at hold
        cases hold
    rw [uncomputed, Finset.mem_filter, settle_outputs, if_pos ⟨rfl, hw⟩]
    exact fun h => Option.some_ne_none _ h.2

theorem heights_settle_of_not_wakes
    (hrun : (st.engine fixed).runBlock g p.values block.nodes joined = .ok run)
    (hw : ¬wakes p id run = true) : heights (settle p id block joined run) ≤ heights p := by
  have hquiet := (wakes_eq_false.1 (Bool.eq_false_iff.2 hw)).1
  have houtputs : ∀ other,
      (settle p id block joined run).outputs.get? other = p.outputs.get? other := by
    intro other
    rw [settle_outputs, if_neg fun he => hw he.2]
  rw [heights, heights, settle_values]
  refine Nat.add_le_add (FinMap.weight_le fun other => ?_) (FinMap.weight_le fun n => ?_)
  · rw [houtputs]
  · rw [runNodes_get?_of_unchanged hrun hquiet]

section Falls

variable (hm : Monotone st g initial)

include hm

/-- A block that is run again and wakes its successors has weakened its stores or a value. -/
theorem Rising.heights_lt (h : Rising st fixed g initial p.outputs p.values) {out : Stores}
    (hout : p.outputs.get? id = some out) (hblock : g.block? id = some block)
    (hj : g.joinPredecessors p.outputs initial block = some joined)
    (hrun : (st.engine fixed).runBlock g p.values block.nodes joined = .ok run)
    (hw : wakes p id run = true) : heights (Engine.settle p id block joined run) < heights p := by
  obtain ⟨hbelow, hshape, -⟩ := h.rerun hm hout hblock hj hrun
  obtain ⟨hstores, -⟩ := run_sound hm h.normalized (sound_joined hm h.sound hj) hblock hrun
  have hcomputed : (p.outputs.get? id).isSome := by rw [hout]; rfl
  have hvalues : ∀ n, KnownBelow (p.values.get? n) (run.values.get? n) := fun n =>
    h.values_below hm hblock hj hrun fun _ => hcomputed
  have hreplaced : ∀ other, (Engine.settle p id block joined run).outputs.get? other =
      if other = id then some run.stores else p.outputs.get? other := by
    intro other
    rw [settle_outputs]
    simp only [hw, and_true]
  have hwell : run.stores.Both fun s => s.WellFormed st.tables initial.sequential :=
    ⟨hstores.1.wellFormed, hstores.2.wellFormed⟩
  rw [heights, heights, settle_values]
  rcases Stores.agrees_or_depth_lt hbelow hshape hwell with hagree | hdepth
  · -- The stores agree, so some node has another value.
    have houtputs : (Engine.settle p id block joined run).outputs.weight Stores.depth ≤
        p.outputs.weight Stores.depth := by
      refine FinMap.weight_le fun other => ?_
      rw [hreplaced]
      split
      · next hself =>
        rw [hself, hout]
        exact Stores.depth_le hbelow hwell
      · exact Nat.le_refl _
    have hchanged : ∃ n, p.values.get? n ≠ run.values.get? n := by
      by_contra hall
      have hsame : ∀ n, p.values.get? n = run.values.get? n := by simpa using hall
      have hquiet : run.changed = false :=
        runNodes_changed (hm.distinct.nodup hblock) hrun fun n _ => (hsame n).symm
      rw [wakes_eq_false.2 ⟨hquiet, out, hout, hagree⟩] at hw
      cases hw
    obtain ⟨n, hn⟩ := hchanged
    exact Nat.add_lt_add_of_le_of_lt houtputs (Value.heights_lt hvalues hn)
  · exact Nat.add_lt_add_of_lt_of_le (FinMap.weight_lt_of_replaced hout hdepth hreplaced)
      (Value.heights_le hvalues)

theorem Rising.measure_lt (hc : config.widenAfter = none) (hp : p.worklist = id :: rest)
    (h : Rising st fixed g initial p.outputs p.values)
    (hstep : (st.engine fixed).step g config initial (taken p rest) id = .ok p') :
    WellFoundedRelation.rel (convergenceMeasure g p') (convergenceMeasure g p) := by
  have hlength : rest.length < p.worklist.length := by rw [hp]; exact Nat.lt_succ_self _
  have hnow : Rising st fixed g initial (taken p rest).outputs (taken p rest).values := h
  have hstart : convergenceMeasure g p = ((uncomputed g (taken p rest).outputs).card,
      heights (taken p rest), p.worklist.length) := rfl
  rw [hstart, convergenceMeasure]
  rcases step_cases hstep with ⟨rfl, -⟩ | ⟨block, joined, run, hr, rfl⟩
  · exact Prod.Lex.right _ (Prod.Lex.right _ hlength)
  · have hinput : widenedInput config (taken p rest) id joined = joined := by
      rw [widenedInput, hc]
    have hrun := hr.run_eq
    rw [hinput] at hrun ⊢
    cases hout : (taken p rest).outputs.get? id with
    | none =>
      exact Prod.Lex.left _ _ (Finset.card_lt_card (uncomputed_settle_ssubset hr.block_eq hout))
    | some out =>
      refine lex_of_le (Finset.card_le_card uncomputed_settle_subset) ?_
      by_cases hw : wakes (taken p rest) id run = true
      · exact Prod.Lex.left _ _ (hnow.heights_lt hm hout hr.block_eq hr.joined_eq hrun hw)
      · refine lex_of_le_of_lt (heights_settle_of_not_wakes hrun hw) ?_
        rw [settle_worklist_of_not_wakes hw]
        exact hlength

end Falls

end Engine

namespace MonotonicField

private def peek : Method := ⟨⟨30⟩, "peek", box, value.ty, false, false⟩

/-- `this.value = 1; while (this.peek() != null) { this.value = null; }` as a method. -/
private def peekLoop : Graph where
  code := .method peek ⟨0⟩ ⟨⟨1000⟩, box, []⟩
  parameters := []
  nodes := [
    ⟨⟨0⟩, box, none, true, .thisLiteral⟩, ⟨⟨1⟩, value.ty, none, true, .fieldAccess ⟨0⟩ value⟩,
    ⟨⟨2⟩, value.ty, some ⟨1⟩, true, .literal (.integer 1)⟩,
    ⟨⟨3⟩, value.ty, none, true, .assignment ⟨1⟩ ⟨2⟩⟩,
    ⟨⟨4⟩, box, none, true, .thisLiteral⟩,
    ⟨⟨5⟩, value.ty, none, true, .methodInvocation peek ⟨4⟩ []⟩,
    ⟨⟨6⟩, value.ty, some ⟨2⟩, true, .literal .null⟩,
    ⟨⟨7⟩, .primitive .boolean, none, true, .notEqual ⟨5⟩ ⟨6⟩⟩,
    ⟨⟨8⟩, value.ty, none, true, .fieldAccess ⟨4⟩ value⟩,
    ⟨⟨9⟩, value.ty, some ⟨3⟩, true, .literal .null⟩,
    ⟨⟨10⟩, value.ty, none, true, .assignment ⟨8⟩ ⟨9⟩⟩]
  blocks := [
    ⟨⟨0⟩, [⟨0⟩, ⟨1⟩, ⟨2⟩, ⟨3⟩], some (.goto ⟨2⟩), [], [⟨2⟩]⟩,
    ⟨⟨1⟩, [], none, [⟨2⟩], []⟩,
    ⟨⟨2⟩, [⟨4⟩, ⟨5⟩, ⟨6⟩, ⟨7⟩], some (.branch ⟨3⟩ ⟨1⟩), [⟨0⟩, ⟨3⟩], [⟨3⟩, ⟨1⟩]⟩,
    ⟨⟨3⟩, [⟨8⟩, ⟨9⟩, ⟨10⟩], some (.goto ⟨2⟩), [⟨2⟩], [⟨2⟩]⟩]
  entry := ⟨0⟩
  exit := ⟨1⟩

private def setting : Setting := .ofTables tables .empty .default

private theorem peekLoop_tame : setting.Tame peekLoop where
  nodes := by
    have hnodes : ∀ block ∈ peekLoop.blocks, ∀ n ∈ block.nodes, ∀ node ∈ peekLoop.node? n,
        setting.RefinesNothing peekLoop (peekLoop.lambdaBody node).kind ∧
          setting.writesFinalField peekLoop (peekLoop.lambdaBody node).kind = false := by decide
    exact fun block hb n hn node hnode => hnodes block hb n hn node hnode
  accesses := by
    rintro node hnode receiver f hkind ⟨hfinal, -⟩
    have hfields : ∀ node ∈ peekLoop.nodes, (match node.kind with
        | .fieldAccess _ f => !f.isFinal
        | _ => true) = true := by decide
    have hassignable := hfields node hnode
    simp [hkind, hfinal] at hassignable
  contracts := by
    intro call c hc
    cases hc

end MonotonicField

namespace EqualityLoop

private def cell : Ty := .declared "Cell"

private def x : Variable := ⟨⟨10⟩, "x", .localVariable, cell, none⟩

private def create : Method := ⟨⟨31⟩, "<init>", cell, .void, false, true⟩

private def link : Method := ⟨⟨30⟩, "link", cell, .void, false, false⟩

/-- `x = new Cell(); while (x == new Cell(x = null)) {}`. -/
private def loop : Graph where
  code := .method link ⟨0⟩ ⟨⟨1000⟩, cell, []⟩
  parameters := []
  nodes := [
    ⟨⟨0⟩, cell, none, true, .localVariable x⟩,
    ⟨⟨1⟩, cell, some ⟨1⟩, true, .objectCreation create []⟩,
    ⟨⟨2⟩, cell, none, true, .assignment ⟨0⟩ ⟨1⟩⟩,
    ⟨⟨3⟩, cell, none, true, .localVariable x⟩, ⟨⟨4⟩, cell, none, true, .localVariable x⟩,
    ⟨⟨5⟩, cell, some ⟨2⟩, true, .literal .null⟩,
    ⟨⟨6⟩, cell, none, true, .assignment ⟨4⟩ ⟨5⟩⟩,
    ⟨⟨7⟩, cell, some ⟨3⟩, true, .objectCreation create [⟨6⟩]⟩,
    ⟨⟨8⟩, .primitive .boolean, none, true, .equalTo ⟨3⟩ ⟨7⟩⟩]
  blocks := [
    ⟨⟨0⟩, [⟨0⟩, ⟨1⟩, ⟨2⟩], some (.goto ⟨2⟩), [], [⟨2⟩]⟩,
    ⟨⟨1⟩, [], none, [⟨2⟩], []⟩,
    ⟨⟨2⟩, [⟨3⟩, ⟨4⟩, ⟨5⟩, ⟨6⟩, ⟨7⟩, ⟨8⟩], some (.branch ⟨2⟩ ⟨1⟩), [⟨0⟩, ⟨2⟩], [⟨2⟩, ⟨1⟩]⟩]
  entry := ⟨0⟩
  exit := ⟨1⟩

private def notNull : Value := .of cell [.nonNull]

private def nullable : Value := .of cell [.nullable]

/-- What the way back into the loop knows of `x`, if `known` is known at its head. -/
private def compared (known : Option Value) : Value :=
  if notNull.isStrictlyMorePrecise known then notNull else nullable

private theorem lub_compared_ne (known : Option Value) :
    Value.lub? (some notNull) (some (compared known)) ≠ known := by
  intro h
  rw [compared] at h
  split at h
  · next hmore =>
    rw [← h] at hmore
    exact absurd hmore (by decide)
  · next hless =>
    rw [← h] at hless
    exact hless (by decide)

private theorem value?_written (s : Store) (v : Option Value) :
    (s.assign Tables.empty.oracle (.localVariable x) v).value? (.localVariable x) = v := by
  rw [Store.value?_assign_local, if_pos rfl]

private theorem runBlock_first {block : Block} (hblock : loop.block? ⟨0⟩ = some block)
    {values : NodeValues} {s : Store} {run : BlockRun}
    (h : (Setting.plain.engine none).runBlock loop values block.nodes s = .ok run) :
    run.stores = .regular (s.assign Tables.empty.oracle (.localVariable x) (some notNull)) := by
  cases hblock
  cases h
  rfl

private def operandValues (values : NodeValues) (known : Option Value) : NodeValues :=
  ((((values.set ⟨3⟩ known).set ⟨4⟩ known).set ⟨5⟩ (some nullable)).set ⟨6⟩ (some nullable)).set ⟨7⟩
    (some notNull)

private theorem runBlock_head {block : Block} (hblock : loop.block? ⟨2⟩ = some block)
    {values : NodeValues} {s : Store} {run : BlockRun}
    (h : (Setting.plain.engine none).runBlock loop values block.nodes s = .ok run) :
    run.stores.thenStore.value? (.localVariable x) =
      some (compared (s.value? (.localVariable x))) := by
  let known := s.value? (.localVariable x)
  let written := s.assign Tables.empty.oracle (.localVariable x) (some nullable)
  have hstores : run.stores = Setting.plain.strengthen loop
      ((operandValues values known).get? ⟨7⟩) ⟨3⟩ ((operandValues values known).get? ⟨3⟩) false
      (Setting.plain.strengthen loop ((operandValues values known).get? ⟨3⟩) ⟨7⟩
        ((operandValues values known).get? ⟨7⟩) false (.regular written)) := by
    cases hblock
    cases h
    rfl
  have hleft : (operandValues values known).get? ⟨3⟩ = known := by simp [operandValues]
  have hright : (operandValues values known).get? ⟨7⟩ = some notNull := by simp [operandValues]
  have hcreation : Setting.plain.refinedByEquality loop ⟨7⟩ = [] := by decide
  have hread : Setting.plain.refinedByEquality loop ⟨3⟩ = [.localVariable x] := by decide
  rw [hstores, hleft, hright, Setting.strengthen_of_refines_nothing hcreation, Setting.strengthen,
    hread, compared]
  by_cases hmore : notNull.isStrictlyMorePrecise known = true
  · rw [if_pos hmore, if_pos hmore]
    have hslot : Store.SameSlot (.localVariable x) (.localVariable x) := rfl
    exact (Store.value?_put _ _ _ _).trans (if_pos hslot)
  · rw [if_neg hmore, if_neg hmore]
    exact value?_written s (some nullable)

private theorem joinPredecessors_head {block : Block} (hblock : loop.block? ⟨2⟩ = some block)
    {outputs : FinMap BlockId Stores} {initial : Store} {out₀ out : Stores}
    (hout₀ : outputs.get? ⟨0⟩ = some out₀) (hout : outputs.get? ⟨2⟩ = some out) :
    loop.joinPredecessors outputs initial block = some (out₀.merged.lub out.thenStore) := by
  cases hblock
  have hincoming : loop.incoming outputs
      ⟨⟨2⟩, [⟨3⟩, ⟨4⟩, ⟨5⟩, ⟨6⟩, ⟨7⟩, ⟨8⟩], some (.branch ⟨2⟩ ⟨1⟩), [⟨0⟩, ⟨2⟩], [⟨2⟩, ⟨1⟩]⟩ =
      [out₀.merged, out.thenStore] := by
    simp only [Graph.incoming, List.filterMap_cons, hout₀, hout]
    simp [loop, Graph.block?, edgeStore_eq]
  rw [Graph.joinPredecessors, hincoming]
  rfl

end EqualityLoop

end FlowTyping
