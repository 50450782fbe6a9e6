import FlowTyping.Proofs.EntryStore.Facts
import FlowTyping.Proofs.Store.Monotone
import Mathlib.Data.List.Induction

/-!
# What a store knows of a local

What is known of a local changes by operations on that local and by joins alone, and the change does
not look at how the local was declared: `StoreOp.onLocal` gives it as a function of what was known.
So a field that is named without a receiver is treated as a local. A callee may change it, and so
may other threads, yet a call leaves what is known of it, and a concurrent store takes in every fact
about it.
-/

namespace FlowTyping

namespace StoreOp

variable {oracle : StoreOracle} {x : Variable}

/-- What is known of a local after an operation, from what was known before. -/
def onLocal (x : Variable) (known : Option Value) : StoreOp → Option Value
  | insert r v => if r = .localVariable x then some v else known
  | refine r v => if r = .localVariable x then Value.moreSpecific? (some v) known else known
  | clear r => if r = .localVariable x then none else known
  | replace r v => if r = .localVariable x then v else known
  | setParameter y v => if y = x then v.or known else known
  | setThis _ => known
  | assign target value => if target = .localVariable x then value else known
  | call r _ result => if r = .localVariable x then result else known
  | lub other => Value.lub? known (other.value? (.localVariable x))
  | widen previous => Value.lub? known (previous.value? (.localVariable x))
  | withoutTransient => known
  | mapFields _ => known

/-- The receiver that an insertion, a refinement or an assignment is about. -/
def updated? : StoreOp → Option Receiver
  | insert r _ => some r
  | refine r _ => some r
  | assign target _ => some target
  | _ => none

theorem onLocal_of_updated {op : StoreOp} {r : Receiver} (hop : op.updated? = some r)
    (hr : r ≠ .localVariable x) (known : Option Value) : op.onLocal x known = known := by
  cases op with
  | insert r' v =>
    cases hop
    exact if_neg hr
  | refine r' v =>
    cases hop
    exact if_neg hr
  | assign target value =>
    cases hop
    exact if_neg hr
  | _ => cases hop

theorem onLocal_eq_none_iff {op : StoreOp} (hop : op.updated? = some (.localVariable x))
    (known : Option Value) : op.onLocal x known = none ↔ op = .assign (.localVariable x) none := by
  cases op with
  | insert r v =>
    cases hop
    simp [onLocal]
  | refine r v =>
    cases hop
    cases known <;> simp [onLocal, Value.moreSpecific?]
  | assign target value =>
    cases hop
    simp [onLocal]
  | _ => cases hop

theorem foldl_onLocal_eq_none_iff {ops : List StoreOp}
    (hops : ∀ op ∈ ops, op.updated?.isSome = true) (known : Option Value) :
    ops.foldl (fun known op => op.onLocal x known) known = none ↔
      (ops.filter fun op => op.updated? = some (.localVariable x)).getLast?.elim
        (known = none) (· = .assign (.localVariable x) none) := by
  induction ops using List.reverseRecOn with
  | nil => rfl
  | append_singleton ops op ih =>
    have hearlier := ih fun op' hop' => hops op' (List.mem_append_left _ hop')
    obtain ⟨r, hr⟩ := Option.isSome_iff_exists.1 (hops op (by simp))
    rw [List.foldl_append, List.foldl_cons, List.foldl_nil, List.filter_append]
    by_cases hx : r = .localVariable x
    · subst hx
      rw [onLocal_eq_none_iff hr]
      simp [hr]
    · rw [onLocal_of_updated hr hx, hearlier]
      simp [hr, hx]

end StoreOp

namespace Store

variable {s : Store} {oracle : StoreOracle} {x : Variable} {r : Receiver}

theorem sameSlot_local : SameSlot (.localVariable x) r ↔ r = .localVariable x := by
  cases r <;> simp [SameSlot, eq_comm]

theorem value?_keptByWrite_local (s : Store) (oracle : StoreOracle) (target : Receiver)
    (value : Option Value) :
    (s.keptByWrite oracle target value).value? (.localVariable x) =
      s.value? (.localVariable x) := by
  cases target with
  | field base f => exact value?_mapFacts_of_kept (fun _ => rfl) s
  | _ => exact value?_retain_of_kept rfl s

theorem value?_assign_of_ne_local (hr : r ≠ .localVariable x) (value : Option Value) :
    (s.assign oracle r value).value? (.localVariable x) = s.value? (.localVariable x) := by
  have hslot : ¬SameSlot (.localVariable x) r := fun hs => hr (sameSlot_local.1 hs)
  by_cases hlocal : ∃ y, r = .localVariable y
  · obtain ⟨y, rfl⟩ := hlocal
    have hxy : x ≠ y := fun he => hr (he ▸ rfl)
    rw [value?_assign_local, if_neg (fun he => hr he.symm), if_neg]
    simp [Receiver.mentions, Receiver.syntacticEq, hxy]
  · cases hheap : r.isHeapLocation with
    | false =>
      rw [assign_of_untracked (fun y he => hlocal ⟨y, he⟩) hheap]
      exact value?_retain_of_kept rfl s
    | true =>
      rw [assign_heapLocation hheap]
      split
      · rw [value?_put, if_neg hslot, value?_keptByWrite_local]
      · exact value?_keptByWrite_local s oracle r value

/-- One operation changes what is known of a local as `StoreOp.onLocal` says. -/
theorem value?_apply_local (s : Store) (oracle : StoreOracle) (op : StoreOp) (x : Variable) :
    (op.apply oracle s).value? (.localVariable x) =
      op.onLocal x (s.value? (.localVariable x)) := by
  have htracks : s.tracks (.localVariable x) = true := rfl
  cases op with
  | insert r v =>
    simp only [StoreOp.apply, StoreOp.onLocal, value?_insert, sameSlot_local]
    by_cases hr : r = .localVariable x
    · rw [if_pos ⟨hr, hr ▸ htracks⟩, if_pos hr]
    · rw [if_neg fun hboth => hr hboth.1, if_neg hr]
  | refine r v =>
    simp only [StoreOp.apply, StoreOp.onLocal, value?_refine, sameSlot_local]
    by_cases hr : r = .localVariable x
    · rw [if_pos ⟨hr, hr ▸ htracks⟩, if_pos hr]
    · rw [if_neg fun hboth => hr hboth.1, if_neg hr]
  | clear r => simp only [StoreOp.apply, StoreOp.onLocal, clear, value?_put, sameSlot_local]
  | replace r v =>
    simp only [StoreOp.apply, StoreOp.onLocal, value?_replace, sameSlot_local]
    by_cases hr : r = .localVariable x
    · rw [if_pos hr, if_pos hr, if_pos (hr ▸ htracks)]
    · rw [if_neg hr, if_neg hr]
  | setParameter y v =>
    cases v with
    | none => simp [StoreOp.apply, StoreOp.onLocal, setParameter]
    | some v => simp [StoreOp.apply, StoreOp.onLocal, setParameter, value?_put, sameSlot_local]
  | setThis v => cases v <;> rfl
  | assign target value =>
    by_cases hr : target = .localVariable x
    · rw [StoreOp.apply, StoreOp.onLocal, if_pos hr, hr, value?_assign_local, if_pos rfl]
    · rw [StoreOp.apply, StoreOp.onLocal, if_neg hr, value?_assign_of_ne_local hr]
  | call r sideEffectFree result =>
    have hkept : (if sideEffectFree then s else s.mapFacts (afterCall oracle)).value?
        (.localVariable x) = s.value? (.localVariable x) := by
      split
      · rfl
      · exact value?_mapFacts_of_kept (fun _ => rfl) s
    simp only [StoreOp.apply, StoreOp.onLocal, afterMethodCall, value?_replace, hkept,
      sameSlot_local]
    by_cases hr : r = .localVariable x
    · rw [if_pos hr, if_pos hr, hr]
      rfl
    · rw [if_neg hr, if_neg hr]
  | lub other => exact value?_lub s other _
  | widen previous => exact value?_lub s previous _
  | withoutTransient => exact value?_retain_of_kept rfl s
  | mapFields f => exact value?_mapFacts_of_kept (fun _ => rfl) s

theorem value?_run_local (oracle : StoreOracle) (ops : List StoreOp) (s : Store) (x : Variable) :
    (StoreOp.run oracle ops s).value? (.localVariable x) =
      ops.foldl (fun known op => op.onLocal x known) (s.value? (.localVariable x)) := by
  induction ops generalizing s with
  | nil => rfl
  | cons op ops ih =>
    rw [List.foldl_cons, ← value?_apply_local]
    exact ih _

/-- A variable is a local to a store however it is declared. A call on anything else leaves what is
known of it. Insertions, refinements and assignments leave nothing known exactly if the last one
about the variable assigns an unknown value, or if none is about it and nothing was known. -/
theorem localVariable_fact (oracle : StoreOracle) (s : Store) (x : Variable) :
    (∀ call result, call ≠ .localVariable x →
      (s.afterMethodCall oracle call false result).value? (.localVariable x) =
        s.value? (.localVariable x)) ∧
    ∀ ops : List StoreOp, (∀ op ∈ ops, op.updated?.isSome = true) →
      ((StoreOp.run oracle ops s).value? (.localVariable x) = none ↔
        (ops.filter fun op => op.updated? = some (.localVariable x)).getLast?.elim
          (s.value? (.localVariable x) = none) (· = .assign (.localVariable x) none)) := by
  refine ⟨fun call result hcall => ?_, fun ops hops => ?_⟩
  · have hstep := value?_apply_local s oracle (.call call false result) x
    rwa [StoreOp.onLocal, if_neg hcall] at hstep
  · rw [value?_run_local]
    exact StoreOp.foldl_onLocal_eq_none_iff hops _

end Store

namespace SimpleName

private def counter : Ty := .declared "Counter"

private def number : Ty := .declared "Number"

private def countField : Field := ⟨⟨21⟩, "count", counter, number, false, false⟩

/-- The same field, named without a receiver. -/
private def count : Variable := ⟨⟨21⟩, "count", .field, number, none⟩

private def notNull : Value := .of number [.nonNull]

private def oracle : StoreOracle := Tables.empty.oracle

/-- `count` is found not null, then something unknown is assigned to it. -/
private def updates : List StoreOp :=
  [.refine (.localVariable count) notNull, .assign (.localVariable count) none,
    .insert (.this counter) (.of counter [.nonNull])]

/-- Nothing is known of `count` after the assignment, and a call does not change that. -/
theorem count_forgotten :
    let s := StoreOp.run oracle updates (.empty false)
    (∀ op ∈ updates, op.updated?.isSome = true) ∧ s.value? (.localVariable count) = none ∧
    Receiver.unknown .void ≠ .localVariable count ∧
    (s.afterMethodCall oracle (.unknown .void) false none).value? (.localVariable count) =
      none := by
  intro s
  have hupdates : ∀ op ∈ updates, op.updated?.isSome = true := by decide
  have hforgotten : s.value? (.localVariable count) = none :=
    ((Store.localVariable_fact oracle (.empty false) count).2 updates hupdates).2 rfl
  have hcall := (Store.localVariable_fact oracle s count).1 (.unknown .void) none (by decide)
  exact ⟨hupdates, hforgotten, by decide, hcall.trans hforgotten⟩

/-- A concurrent store takes in a fact about a field that is named without a receiver, and keeps it
over a call. Of the same field named with its receiver it takes in nothing. -/
theorem count_outlives_call :
    let s := (Store.empty false).insert (.localVariable count) notNull
    count.kind = .field ∧ Receiver.unknown .void ≠ .localVariable count ∧
    s.value? (.localVariable count) = some notNull ∧
    (s.afterMethodCall oracle (.unknown .void) false none).value? (.localVariable count) =
      some notNull ∧
    ((Store.empty false).insert (.implicitField countField counter) notNull).value?
      (.implicitField countField counter) = none := by
  decide

end SimpleName

end FlowTyping
