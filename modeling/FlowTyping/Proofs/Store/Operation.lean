import FlowTyping.Proofs.Store.Write
import FlowTyping.Proofs.Value.Join

/-!
# Operations on stores

Everything that changes a store, as data. A predicate of facts that each operation respects holds
of every fact of a store after any sequence of operations: `Store.Every.apply` is about one
operation, `Store.Every.run` about a sequence. The other store of a join may be any store.
-/

namespace FlowTyping

/-- An operation that changes a store. The last two are for the entry stores of lambdas. -/
inductive StoreOp where
  | insert (r : Receiver) (v : Value)
  | refine (r : Receiver) (v : Value)
  | clear (r : Receiver)
  | replace (r : Receiver) (v : Option Value)
  | setParameter (x : Variable) (v : Option Value)
  | setThis (v : Option Value)
  | assign (target : Receiver) (value : Option Value)
  | call (call : Receiver) (sideEffectFree : Bool) (result : Option Value)
  | lub (other : Store)
  | widen (previous : Store)
  | withoutTransient
  | mapFields (f : Receiver → Value → Option Value)

namespace StoreOp

def onFields (f : Receiver → Value → Option Value) : Receiver → Value → Option Value
  | .field base g, v => f (.field base g) v
  | _, v => some v

def apply (oracle : StoreOracle) (s : Store) : StoreOp → Store
  | insert r v => s.insert r v
  | refine r v => s.refine r v
  | clear r => s.clear r
  | replace r v => s.replace r v
  | setParameter x v => s.setParameter x v
  | setThis v => s.setThis v
  | assign target value => s.assign oracle target value
  | call r sideEffectFree result => s.afterMethodCall oracle r sideEffectFree result
  | lub other => s.lub other
  | widen previous => s.widen previous
  | withoutTransient => s.withoutTransient
  | mapFields f => s.mapFacts (onFields f)

def run (oracle : StoreOracle) (ops : List StoreOp) (s : Store) : Store :=
  ops.foldl (apply oracle) s

end StoreOp

namespace Store

variable {s : Store} {oracle : StoreOracle}

theorem mapFields_eq (s : Store) (f : Field → Value → Option Value) :
    s.mapFields f = s.mapFacts (StoreOp.onFields fun
      | .field _ g, v => f g v
      | _, v => some v) := by
  rw [mapFields]
  congr 1

@[simp] theorem sequential_put (s : Store) (r : Receiver) (v : Option Value) :
    (s.put r v).sequential = s.sequential := by
  cases r <;> rfl

@[simp] theorem sequential_insert (s : Store) (r : Receiver) (v : Value) :
    (s.insert r v).sequential = s.sequential := by
  rw [insert]
  split <;> simp

@[simp] theorem sequential_replace (s : Store) (r : Receiver) (v : Option Value) :
    (s.replace r v).sequential = s.sequential := by
  cases v <;> simp [replace, clear]

@[simp] theorem sequential_assign (s : Store) (oracle : StoreOracle) (target : Receiver)
    (value : Option Value) : (s.assign oracle target value).sequential = s.sequential := by
  by_cases hlocal : ∃ x, target = .localVariable x
  · obtain ⟨x, rfl⟩ := hlocal
    exact sequential_put _ _ _
  · cases hheap : target.isHeapLocation with
    | false => rw [assign_of_untracked (fun x he => hlocal ⟨x, he⟩) hheap, retain]
    | true =>
      have hkept : (s.keptByWrite oracle target value).sequential = s.sequential := by
        cases target <;> rfl
      rw [assign_heapLocation hheap]
      split
      · rw [sequential_put, hkept]
      · exact hkept

theorem sequential_apply (s : Store) (oracle : StoreOracle) (op : StoreOp) :
    (op.apply oracle s).sequential = s.sequential := by
  cases op with
  | insert r v => simp [StoreOp.apply]
  | refine r v =>
    simp only [StoreOp.apply, refine]
    split <;> simp
  | clear r => simp [StoreOp.apply, clear]
  | replace r v => simp [StoreOp.apply]
  | setParameter x v => cases v <;> simp [StoreOp.apply, setParameter]
  | setThis v => cases v <;> simp [StoreOp.apply, setThis]
  | assign target value => simp [StoreOp.apply]
  | call r sideEffectFree result =>
    cases sideEffectFree <;> simp [StoreOp.apply, afterMethodCall, mapFacts]
  | lub other => rfl
  | widen previous => rfl
  | withoutTransient => rfl
  | mapFields f => rfl

/-- A predicate holds of every fact about a receiver other than `this`. -/
def Every (P : Receiver → Value → Prop) (s : Store) : Prop :=
  ∀ r v, s.facts.get? r = some v → P r v

/-- A predicate of facts that holds of whatever a store takes in and survives weakening. -/
structure Robust (oracle : StoreOracle) (sequential : Bool) (P : Receiver → Value → Prop) :
    Prop where
  tracked : ∀ r v, (∀ ty, r ≠ .this ty) → (empty sequential).tracks r = true → P r v
  lub : ∀ r v w, P r v → P r (v.lub w)
  retained : ∀ base f v w, P (.field base f) v → oracle.monotonicRetained f v = some w →
    P (.field base f) w

end Store

/-- What an operation has to bring along for a robust predicate to survive it: the value written
to a monotonic field and the new values of fields have to satisfy it. -/
def StoreOp.Respects (oracle : StoreOracle) (P : Receiver → Value → Prop) : StoreOp → Prop
  | assign (.field base f) (some v) => oracle.isMonotonicUpdate f v = true →
    (Receiver.field base f).containsUnknown = false → P (.field base f) v
  | mapFields f => ∀ base g v w, P (.field base g) v → f (.field base g) v = some w →
    P (.field base g) w
  | _ => True

namespace Store.Every

variable {P : Receiver → Value → Prop} {s : Store} {oracle : StoreOracle}

theorem put (h : s.Every P) {r : Receiver} {v : Option Value}
    (hv : ∀ w, (∀ ty, r ≠ .this ty) → v = some w → P r w) : (s.put r v).Every P := by
  cases r
  case this ty => exact h
  all_goals
    intro r' w hw
    simp only [Store.put, FinMap.get?_set] at hw
    split at hw
    · next hr => exact hr ▸ hv w (by simp) hw
    · exact h r' w hw

theorem clear (h : s.Every P) (r : Receiver) : (s.clear r).Every P :=
  h.put fun _ _ hw => by cases hw

theorem mapFacts (h : s.Every P) {f : Receiver → Value → Option Value}
    (hf : ∀ r v w, P r v → f r v = some w → P r w) : (s.mapFacts f).Every P := by
  intro r w hw
  rw [Store.mapFacts, FinMap.get?_filterMap, Option.bind_eq_some_iff] at hw
  obtain ⟨v, hv, hw⟩ := hw
  exact hf r v w (h r v hv) hw

theorem retain (h : s.Every P) (keep : Receiver → Bool) : (s.retain keep).Every P :=
  h.mapFacts fun r v w hv hw => by
    split at hw
    · cases hw
      exact hv
    · cases hw

theorem upperBound (h : s.Every P) {merge : Value → Value → Value}
    (hmerge : ∀ r v w, P r v → P r (merge v w)) (t : Store) :
    (Store.upperBound merge s t).Every P := by
  intro r w hw
  simp only [Store.upperBound, FinMap.merge, FinMap.get?_filterMap, Option.bind_eq_some_iff,
    Option.map_eq_some_iff] at hw
  obtain ⟨v, hv, v', -, rfl⟩ := hw
  exact hmerge r v v' (h r v hv)

theorem insert (h : s.Every P) (hP : Robust oracle s.sequential P) (r : Receiver) (v : Value) :
    (s.insert r v).Every P := by
  rw [Store.insert]
  split
  · next htracks => exact h.put fun w hthis _ => hP.tracked r w hthis htracks
  · exact h

theorem refine (h : s.Every P) (hP : Robust oracle s.sequential P) (r : Receiver) (v : Value) :
    (s.refine r v).Every P := by
  rw [Store.refine]
  split
  · next htracks => exact h.put fun w hthis _ => hP.tracked r w hthis htracks
  · exact h

theorem replace (h : s.Every P) (hP : Robust oracle s.sequential P) (r : Receiver)
    (v : Option Value) : (s.replace r v).Every P := by
  cases v with
  | none => exact h.clear r
  | some v =>
    have hclear : (s.clear r).sequential = s.sequential := sequential_put s r none
    exact (h.clear r).insert (hclear ▸ hP) r v

/-- A fact that a field write keeps is an old one, or an old one weakened by the written value. -/
theorem afterFieldWrite (h : s.Every P) (hP : Robust oracle s.sequential P) (base : Receiver)
    (f : Field) (value : Option Value) :
    (s.mapFacts (Store.afterFieldWrite oracle base f value)).Every P := by
  refine h.mapFacts fun r old w hold hw => ?_
  by_cases hr : ∃ base' f', r = .field base' f'
  · obtain ⟨base', f', rfl⟩ := hr
    rw [Store.afterFieldWrite] at hw
    split at hw
    · cases hw
    · split at hw
      · obtain ⟨v, -, rfl⟩ := Option.map_eq_some_iff.1 hw
        rw [Value.lub_comm]
        exact hP.lub _ old v hold
      · cases hw
        exact hold
  · rw [afterFieldWrite_of_ne fun base' f' he => hr ⟨base', f', he⟩] at hw
    split at hw
    · cases hw
    · cases hw
      exact hold

theorem keptByWrite (h : s.Every P) (hP : Robust oracle s.sequential P) (target : Receiver)
    (value : Option Value) : (s.keptByWrite oracle target value).Every P := by
  cases target
  case field base f => exact h.afterFieldWrite hP base f value
  all_goals exact h.retain _

theorem assign (h : s.Every P) (hP : Robust oracle s.sequential P) {target : Receiver}
    {value : Option Value} (hop : (StoreOp.assign target value).Respects oracle P) :
    (s.assign oracle target value).Every P := by
  by_cases hlocal : ∃ x, target = .localVariable x
  · obtain ⟨x, rfl⟩ := hlocal
    exact (h.retain _).put fun w hthis _ => hP.tracked _ w hthis rfl
  · cases hheap : target.isHeapLocation with
    | false =>
      rw [assign_of_untracked (fun x he => hlocal ⟨x, he⟩) hheap]
      exact h.retain _
    | true =>
      have hkept := h.keptByWrite hP target value
      rw [assign_heapLocation hheap]
      split
      · next hrecords =>
        refine hkept.put fun v hthis hv => ?_
        subst hv
        -- What is recorded is tracked, or let in by a monotonic qualifier.
        rcases tracks_of_records hrecords with htracks | ⟨base, f, rfl, hmono, hknown⟩
        · exact hP.tracked target v hthis htracks
        · exact hop hmono hknown
      · exact hkept

theorem afterCall (h : s.Every P) (hP : Robust oracle s.sequential P) :
    (s.mapFacts (Store.afterCall oracle)).Every P := by
  refine h.mapFacts fun r old w hold hw => ?_
  cases r with
  | field base f =>
    rw [Store.afterCall] at hw
    cases hretained : oracle.monotonicRetained f old with
    | some kept =>
      simp only [hretained, Option.some.injEq] at hw
      exact hw ▸ hP.retained base f old kept hold hretained
    | none =>
      simp only [hretained] at hw
      split at hw
      · cases hw
        exact hold
      · cases hw
  | array ty base index => cases hw
  | call ty m base arguments => cases hw
  | localVariable x =>
    cases hw
    exact hold
  | this ty =>
    cases hw
    exact hold
  | className ty =>
    cases hw
    exact hold
  | literal ty value =>
    cases hw
    exact hold
  | unknown ty =>
    cases hw
    exact hold

theorem apply (h : s.Every P) (hP : Robust oracle s.sequential P) {op : StoreOp}
    (hop : op.Respects oracle P) : (op.apply oracle s).Every P := by
  cases op with
  | insert r v => exact h.insert hP r v
  | refine r v => exact h.refine hP r v
  | clear r => exact h.clear r
  | replace r v => exact h.replace hP r v
  | setParameter x v =>
    cases v with
    | none => exact h
    | some v => exact h.put fun w hthis _ => hP.tracked _ w hthis rfl
  | setThis v => cases v <;> exact h
  | assign target value => exact h.assign hP hop
  | call r sideEffectFree result =>
    cases sideEffectFree with
    | true => exact h.replace hP r result
    | false => exact (h.afterCall hP).replace hP r result
  | lub other => exact h.upperBound hP.lub other
  | widen previous => exact h.upperBound hP.lub previous
  | withoutTransient => exact h.retain _
  | mapFields f =>
    refine h.mapFacts fun r v w hv hw => ?_
    cases r
    case field base g => exact hop base g v w hv hw
    all_goals
      cases hw
      exact hv

theorem run {ops : List StoreOp} (h : s.Every P) (hP : Robust oracle s.sequential P)
    (hops : ∀ op ∈ ops, op.Respects oracle P) : (StoreOp.run oracle ops s).Every P := by
  induction ops generalizing s with
  | nil => exact h
  | cons op ops ih =>
    refine ih (h.apply hP (hops op List.mem_cons_self)) ?_
      fun op' hop' => hops op' (List.mem_cons_of_mem _ hop')
    rw [sequential_apply]
    exact hP

end Store.Every

def Store.Closed (oracle : StoreOracle) (P : Store → Prop) : Prop :=
  ∀ s op, P s → P (StoreOp.apply oracle s op)

theorem Store.Closed.run {oracle : StoreOracle} {P : Store → Prop} (hP : Closed oracle P)
    (ops : List StoreOp) {s : Store} (h : P s) : P (StoreOp.run oracle ops s) := by
  induction ops generalizing s with
  | nil => exact h
  | cons op ops ih => exact ih (hP s op h)

theorem Store.every_empty (P : Receiver → Value → Prop) (sequential : Bool) :
    (empty sequential).Every P := by
  intro r v hv
  cases hv

end FlowTyping
