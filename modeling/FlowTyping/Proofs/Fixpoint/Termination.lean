import FlowTyping.Proofs.Fixpoint.Turn
import FlowTyping.Proofs.Store.Distribute
import Mathlib.Algebra.GroupWithZero.Nat
import Mathlib.Algebra.Order.BigOperators.Group.Finset

/-!
# Why the worklist empties

A run ends as soon as some measure of the progress falls with every turn. What falls is in the
end the depth of stores: a store that is replaced by a less precise one loses depth, since each
of its finitely many facts does or is dropped.
-/

namespace FlowTyping

/-! ### Weights of finite maps -/

namespace FinMap

universe u v

variable {κ : Type u} {α : Type v} [DecidableEq κ]

def weight (f : α → Nat) (m : FinMap κ α) : Nat := (m.entries.map fun e => f e.2).sum

private def weightAt (f : α → Nat) (m : FinMap κ α) (k : κ) : Nat := (m.get? k).elim 0 f

private theorem weight_eq_sum (f : α → Nat) (m : FinMap κ α) {keys : Finset κ}
    (hkeys : ∀ k a, m.get? k = some a → k ∈ keys) :
    m.weight f = ∑ k ∈ keys, m.weightAt f k := by
  have hentries : m.entries.map (fun e => f e.2) =
      (m.entries.map Prod.fst).map (m.weightAt f) := by
    rw [List.map_map]
    refine List.map_congr_left fun e he => ?_
    simp [weightAt, mem_entries.1 he]
  have hsubset : (m.entries.map Prod.fst).toFinset ⊆ keys := by
    intro k hk
    obtain ⟨e, he, rfl⟩ := List.mem_map.1 (List.mem_toFinset.1 hk)
    exact hkeys e.1 e.2 (mem_entries.1 he)
  rw [weight, hentries, ← List.sum_toFinset _ m.nodup]
  refine Finset.sum_subset hsubset fun k _ hk => ?_
  cases hget : m.get? k with
  | none => simp [weightAt, hget]
  | some a =>
    refine absurd (List.mem_toFinset.2 (List.mem_map.2 ⟨(k, a), mem_entries.2 hget, rfl⟩)) hk

variable {f : α → Nat} {m n : FinMap κ α}

private theorem exists_keys (m n : FinMap κ α) : ∃ keys : Finset κ,
    (∀ k a, m.get? k = some a → k ∈ keys) ∧ ∀ k a, n.get? k = some a → k ∈ keys := by
  refine ⟨((m.entries ++ n.entries).map Prod.fst).toFinset, fun k a hk => ?_, fun k a hk => ?_⟩
  · refine List.mem_toFinset.2 (List.mem_map.2 ⟨(k, a), ?_, rfl⟩)
    exact List.mem_append_left _ (mem_entries.2 hk)
  · refine List.mem_toFinset.2 (List.mem_map.2 ⟨(k, a), ?_, rfl⟩)
    exact List.mem_append_right _ (mem_entries.2 hk)

theorem weight_le (h : ∀ k, (n.get? k).elim 0 f ≤ (m.get? k).elim 0 f) :
    n.weight f ≤ m.weight f := by
  obtain ⟨keys, hm, hn⟩ := exists_keys m n
  rw [weight_eq_sum f m hm, weight_eq_sum f n hn]
  exact Finset.sum_le_sum fun k _ => h k

theorem weight_lt (h : ∀ k, (n.get? k).elim 0 f ≤ (m.get? k).elim 0 f) {k : κ}
    (hk : (n.get? k).elim 0 f < (m.get? k).elim 0 f) : n.weight f < m.weight f := by
  obtain ⟨keys, hm, hn⟩ := exists_keys m n
  have hmem : k ∈ keys := by
    cases hget : m.get? k with
    | none => simp [hget] at hk
    | some a => exact hm k a hget
  rw [weight_eq_sum f m hm, weight_eq_sum f n hn]
  exact Finset.sum_lt_sum (fun k _ => h k) ⟨k, hmem, hk⟩

theorem weight_lt_of_replaced {k : κ} {a b : α} (hk : m.get? k = some b) (hab : f a < f b)
    (hn : ∀ k', n.get? k' = if k' = k then some a else m.get? k') : n.weight f < m.weight f := by
  have hat : (n.get? k).elim 0 f < (m.get? k).elim 0 f := by
    rw [hn, if_pos rfl, hk]
    exact hab
  refine weight_lt (fun k' => ?_) hat
  by_cases hne : k' = k
  · subst hne
    exact Nat.le_of_lt hat
  · rw [hn, if_neg hne]

end FinMap

/-! ### The depth of stores -/

namespace Value

universe u

def depth? : Option Value → Nat
  | some v => v.depth + 1
  | none => 0

theorem depth?_le {v w : Option Value} (h : KnownBelow v w) : depth? w ≤ depth? v := by
  cases w with
  | none => exact Nat.zero_le _
  | some b =>
    obtain ⟨a, rfl, hab⟩ := knownBelow_iff.1 h b rfl
    exact Nat.succ_le_succ (depth_le hab)

theorem depth?_lt {v w : Option Value} (h : KnownBelow v w) (hne : v ≠ w) :
    depth? w < depth? v := by
  cases w with
  | none =>
    cases v with
    | none => exact absurd rfl hne
    | some a => exact Nat.succ_pos _
  | some b =>
    obtain ⟨a, rfl, hab⟩ := knownBelow_iff.1 h b rfl
    exact Nat.succ_lt_succ (depth_lt hab fun he => hne (congrArg some he))

variable {κ : Type u} [DecidableEq κ] {m n : FinMap κ Value}

/-- How often the values of a map can be weakened. -/
def heights (m : FinMap κ Value) : Nat := m.weight fun v => depth? (some v)

private theorem elim_depth (v : Option Value) : v.elim 0 (fun a => depth? (some a)) = depth? v := by
  cases v <;> rfl

theorem heights_le (h : ∀ k, KnownBelow (m.get? k) (n.get? k)) : heights n ≤ heights m := by
  refine FinMap.weight_le fun k => ?_
  rw [elim_depth, elim_depth]
  exact depth?_le (h k)

theorem heights_lt (h : ∀ k, KnownBelow (m.get? k) (n.get? k)) {k : κ}
    (hne : m.get? k ≠ n.get? k) : heights n < heights m := by
  refine FinMap.weight_lt (k := k) (fun k' => ?_) ?_
  · rw [elim_depth, elim_depth]
    exact depth?_le (h k')
  · rw [elim_depth, elim_depth]
    exact depth?_lt (h k) hne

end Value

namespace Store

/-- How often what a store knows can be weakened. -/
def depth (s : Store) : Nat := Value.depth? s.thisValue + Value.heights s.facts

variable {s t : Store}

theorem depth_le (h : ∀ slot, Value.KnownBelow (s.known slot) (t.known slot)) :
    t.depth ≤ s.depth :=
  Nat.add_le_add (Value.depth?_le (h none)) (Value.heights_le fun r => h (some r))

/-- A store loses depth when it becomes less precise in some slot. -/
theorem depth_lt (h : ∀ slot, Value.KnownBelow (s.known slot) (t.known slot))
    {slot : Option Receiver} (hne : s.known slot ≠ t.known slot) : t.depth < s.depth := by
  have hthis : Value.depth? t.thisValue ≤ Value.depth? s.thisValue := Value.depth?_le (h none)
  have hfacts : Value.heights t.facts ≤ Value.heights s.facts :=
    Value.heights_le fun r => h (some r)
  cases slot with
  | none => exact Nat.add_lt_add_of_lt_of_le (Value.depth?_lt (h none) hne) hfacts
  | some r =>
    exact Nat.add_lt_add_of_le_of_lt hthis (Value.heights_lt (fun r => h (some r)) hne)

/-- Stores that are comparable slot by slot agree, or the less precise one has less depth. -/
theorem agrees_or_depth_lt (hflag : s.sequential = t.sequential)
    (h : ∀ slot, Value.KnownBelow (s.known slot) (t.known slot)) :
    s.agrees t = true ∨ t.depth < s.depth := by
  by_cases hall : ∀ slot, s.known slot = t.known slot
  · exact Or.inl (agrees_iff_known.2 ⟨hflag, hall⟩)
  · obtain ⟨slot, hne⟩ := not_forall.1 hall
    exact Or.inr (depth_lt h hne)

end Store

namespace Engine

variable {engine : Engine} {g : Graph} {config : Config} {initial : Store}

/-! ### Runs that end -/

theorem isSome_node?_of_check (hcheck : g.check = .ok ()) {id : BlockId} {block : Block}
    (hblock : g.block? id = some block) : ∀ n ∈ block.nodes, (g.node? n).isSome := by
  have hfault : g.fault? = none := by
    rw [Graph.check] at hcheck
    split at hcheck
    · cases hcheck
    · assumption
  rw [Graph.fault?, Option.or_eq_none_iff, Option.or_eq_none_iff] at hfault
  have hmissing := List.findSome?_eq_none_iff.1 hfault.2.1 block (List.mem_of_getElem? hblock)
  rw [Graph.missingNode?, Option.map_eq_none_iff, List.find?_eq_none] at hmissing
  intro n hn
  have hn' := hmissing n hn
  simpa [Option.isSome_iff_ne_none] using hn'

private theorem exists_runNodes {ids : List NodeId} (hids : ∀ n ∈ ids, (g.node? n).isSome)
    (run : BlockRun) : ∃ run', engine.runNodes g run ids = .ok run' := by
  induction ids generalizing run with
  | nil => exact ⟨run, runNodes_nil_eq_ok.2 rfl⟩
  | cons id ids ih =>
    obtain ⟨node, hnode⟩ := Option.isSome_iff_exists.1 (hids id List.mem_cons_self)
    obtain ⟨run', hrun'⟩ := ih (fun n hn => hids n (List.mem_cons_of_mem _ hn))
      (engine.afterVisit g run id node)
    exact ⟨run', runNodes_cons_eq_ok.2 ⟨node, hnode, hrun'⟩⟩

/-- A turn on an accepted graph finds nothing to do, or it runs the block. -/
theorem step_total (hcheck : g.check = .ok ()) (p : Progress) (id : BlockId) :
    ∃ p', engine.step g config initial p id = .ok p' := by
  rw [step]
  split
  · exact ⟨p, rfl⟩
  · next block hblock =>
    split
    · exact ⟨p, rfl⟩
    · next joined _ =>
      have hnodes := isSome_node?_of_check hcheck hblock
      obtain ⟨run, hrun⟩ := exists_runNodes hnodes
        ⟨.regular (widenedInput config p id joined), p.values, false, .empty, []⟩
      rw [← runBlock_eq_runNodes] at hrun
      refine ⟨settle p id block (widenedInput config p id joined) run, ?_⟩
      dsimp only
      rw [hrun]

theorem iterate_cons {limit : Nat} {p p' : Progress} {id : BlockId} {rest : List BlockId}
    (hlist : p.worklist = id :: rest)
    (hstep : engine.step g config initial (taken p rest) id = .ok p') :
    engine.iterate g config initial (limit + 1) p = engine.iterate g config initial limit p' := by
  rw [iterate.eq_def]
  simp only [hlist]
  rw [taken] at hstep
  rw [hstep]

theorem widenedInput_congr {config' : Config} (h : config.widenAfter = config'.widenAfter)
    (p : Progress) (id : BlockId) (joined : Store) :
    widenedInput config p id joined = widenedInput config' p id joined := by
  rw [widenedInput, widenedInput, h]

/-- Of the configuration, a run depends on the widening only. -/
theorem iterate_congr {config' : Config} (h : config.widenAfter = config'.widenAfter)
    (limit : Nat) (p : Progress) :
    engine.iterate g config initial limit p = engine.iterate g config' initial limit p := by
  have hstep : ∀ p id,
      engine.step g config initial p id = engine.step g config' initial p id := by
    intro p id
    simp only [step, widenedInput_congr h]
  induction limit generalizing p with
  | zero => rw [iterate.eq_def, iterate.eq_def]
  | succ limit ih =>
    rw [iterate.eq_def, iterate.eq_def]
    simp only [hstep, ih]

/-! ### Falling measures -/

theorem lex_of_le {a a' : Nat} {b b' : Nat × Nat} (ha : a' ≤ a)
    (hb : WellFoundedRelation.rel b' b) : WellFoundedRelation.rel (a', b') (a, b) := by
  rcases Nat.lt_or_eq_of_le ha with hlt | rfl
  · exact Prod.Lex.left _ _ hlt
  · exact Prod.Lex.right _ hb

theorem lex_of_le_of_lt {a a' b b' : Nat} (ha : a' ≤ a) (hb : b' < b) :
    WellFoundedRelation.rel (a', b') (a, b) := by
  rcases Nat.lt_or_eq_of_le ha with hlt | rfl
  · exact Prod.Lex.left _ _ hlt
  · exact Prod.Lex.right _ hb

section Falling

variable {α : Type} [WellFoundedRelation α] (hcheck : g.check = .ok ()) (measure : Progress → α)
  (Inv : Progress → Prop)
  (hturn : ∀ p id rest p', p.worklist = id :: rest → Inv p →
    engine.step g config initial (taken p rest) id = .ok p' →
    Inv p' ∧ WellFoundedRelation.rel (measure p') (measure p))

include hcheck hturn

/-- If every turn makes some measure fall, the worklist is empty after finitely many turns. -/
theorem iterate_terminates {p : Progress} (hp : Inv p) :
    ∃ bound, ∀ limit ≥ bound, ∃ p', engine.iterate g config initial limit p = .ok (p', true) := by
  refine WellFounded.induction (C := fun m => ∀ p, measure p = m → Inv p → ∃ bound,
    ∀ limit ≥ bound, ∃ p', engine.iterate g config initial limit p = .ok (p', true))
    WellFoundedRelation.wf (measure p) (fun m ih p hm hp => ?_) p rfl hp
  cases hlist : p.worklist with
  | nil =>
    refine ⟨0, fun limit _ => ⟨p, ?_⟩⟩
    rw [iterate.eq_def]
    simp only [hlist]
  | cons id rest =>
    obtain ⟨p', hstep⟩ :
        ∃ p', engine.step g config initial (taken p rest) id = .ok p' :=
      step_total hcheck (taken p rest) id
    obtain ⟨hinv, hfall⟩ := hturn p id rest p' hlist hp hstep
    obtain ⟨bound, hbound⟩ := ih (measure p') (hm ▸ hfall) p' rfl hinv
    refine ⟨bound + 1, fun limit hlimit => ?_⟩
    obtain ⟨fewer, rfl⟩ : ∃ fewer, limit = fewer + 1 := ⟨limit - 1, by omega⟩
    obtain ⟨final, hfinal⟩ := hbound fewer (by omega)
    exact ⟨final, (iterate_cons hlist hstep).trans hfinal⟩

/-- If every turn makes some measure fall, all configurations that widen alike and allow for
enough turns make the run converge. -/
theorem solve_terminates {log : Log}
    (hentry : engine.entryStore g.code g.parameters = .ok (initial, log))
    (hstart : Inv (start g log)) :
    ∃ bound, ∀ config' : Config, config'.widenAfter = config.widenAfter →
      bound ≤ config'.maxIterations →
      ∃ sol, engine.solve g config' = .ok sol ∧ sol.converged = true := by
  obtain ⟨bound, hbound⟩ := iterate_terminates hcheck measure Inv hturn hstart
  refine ⟨bound, fun config' hwiden hlimit => ?_⟩
  obtain ⟨p, hp⟩ := hbound config'.maxIterations hlimit
  rw [iterate_congr hwiden.symm] at hp
  refine ⟨⟨p.inputs, p.outputs, p.values, p.iterations, true, p.log, p.visits⟩, ?_, rfl⟩
  rw [solve]
  simp only [hcheck, hentry, hp, bind, Except.bind, pure, Except.pure]

end Falling

end Engine

end FlowTyping
