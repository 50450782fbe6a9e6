import FlowTyping.Proofs.Store.Operation
import FlowTyping.Proofs.Tables.Monotonic

/-!
# What a store remembers when other threads run

Under concurrent semantics a store takes in a fact about a field that other code can assign only
when the written value has reached a monotonic target of the field. Later writes may weaken the
fact, so what is remembered of such a field lies at or above the target, or says nothing at all.
This is so exactly when each value that is let in brings nothing else along and is written through
a base that other code cannot assign; neither is tested by the write.
-/

namespace FlowTyping

/-- Whether an operation is open to every user of a store; the others build the entry stores of
lambdas. -/
def StoreOp.isPublic : StoreOp → Bool
  | withoutTransient => false
  | mapFields _ => false
  | _ => true

/-- Of the operations open to every user, only a write of a monotonic field can bring in a fact
that a store does not track. -/
theorem StoreOp.respects_of_isPublic {oracle : StoreOracle} {P : Receiver → Value → Prop}
    {op : StoreOp} (h : op.isPublic = true)
    (hwrite : ∀ base f v, op = .assign (.field base f) (some v) →
      oracle.isMonotonicUpdate f v = true → (Receiver.field base f).containsUnknown = false →
      P (.field base f) v) : op.Respects oracle P := by
  cases op with
  | assign target value =>
    cases target with
    | field base f =>
      cases value with
      | none => trivial
      | some v => exact hwrite base f v rfl
    | _ => trivial
  | withoutTransient => cases h
  | mapFields g => cases h
  | _ => trivial

theorem Qualifier.isSubtype_of_lub? {p q r : Qualifier} (h : p.lub? q = some r) :
    p.isSubtype r = true := by
  rw [lub?] at h
  split at h
  · next hpq => exact Option.some.inj h ▸ hpq
  · split at h
    · exact Option.some.inj h ▸ p.isSubtype_refl
    · cases h

theorem Qualifier.eq_top_of_isSubtype {q r : Qualifier} (hq : q = top q.hierarchy)
    (h : q.isSubtype r = true) : r = top r.hierarchy := by
  cases q <;> cases r <;> simp_all [isSubtype, hierarchy, rank, top]

theorem Value.exists_has_of_lub {v w : Value} {q : Qualifier} (h : (v.lub w).has q = true) :
    ∃ p, v.has p = true ∧ p.isSubtype q = true := by
  rw [has, lub, QualifierSet.choose, QualifierSet.contains_ofPred, decide_eq_true_iff] at h
  cases hv : v.qualifier? q.hierarchy with
  | none =>
    rw [hv, joinQualifier] at h
    · cases h
    · simp
  | some p =>
    cases hw : w.qualifier? q.hierarchy with
    | none =>
      rw [hv, hw] at h
      cases h
    | some p' =>
      rw [hv, hw] at h
      exact ⟨p, QualifierSet.contains_of_strongest? hv, Qualifier.isSubtype_of_lub? h⟩

/-- Knowing the qualifier of a field says nothing, or nothing that is ever given up again once a
monotonic target has been reached. -/
def Tables.Lasting (t : Tables) (f : Field) (q : Qualifier) : Prop :=
  q = .top q.hierarchy ∨ ∃ target, t.IsMonotonicTarget f target ∧ target.isSubtype q = true

theorem Tables.Lasting.mono {t : Tables} {f : Field} {p q : Qualifier} (h : t.Lasting f p)
    (hpq : p.isSubtype q = true) : t.Lasting f q := by
  rcases h with htop | ⟨target, htarget, hle⟩
  · exact Or.inl (Qualifier.eq_top_of_isSubtype htop hpq)
  · exact Or.inr ⟨target, htarget, Qualifier.isSubtype_trans hle hpq⟩

namespace Store

/-- No other thread can falsify the fact that a field of a base has the value: the field cannot be
assigned by other code, or its base cannot and the value is lasting. -/
def Withstands (t : Tables) (base : Receiver) (f : Field) (v : Value) : Prop :=
  (Receiver.field base f).isUnassignable = true ∨
    base.isUnassignable = true ∧ (∃ q, t.IsMonotonicTarget f q) ∧
      ∀ q, v.has q = true → t.Lasting f q

variable {t : Tables} {base : Receiver} {f : Field}

private theorem isUnassignable_of_tracks
    (h : (empty false).tracks (.field base f) = true) :
    (Receiver.field base f).isUnassignable = true := by
  simp only [tracks, empty, Bool.and_eq_true, Bool.false_or] at h
  exact h.2

theorem robust_withstands (t : Tables) (base : Receiver) (f : Field) :
    Robust t.oracle false fun r v => r = .field base f → Withstands t base f v where
  tracked r v _ htracks hr := by
    subst hr
    exact Or.inl (isUnassignable_of_tracks htracks)
  lub r v w hv hr := by
    rcases hv hr with hpath | ⟨hbase, htarget, hlasting⟩
    · exact Or.inl hpath
    · refine Or.inr ⟨hbase, htarget, fun q hq => ?_⟩
      obtain ⟨p, hp, hpq⟩ := Value.exists_has_of_lub hq
      exact (hlasting p hp).mono hpq
  retained base' f' v w hv hw hr := by
    cases hr
    rcases hv rfl with hpath | ⟨hbase, htarget, -⟩
    · exact Or.inl hpath
    · -- Whatever the old value was, a call leaves the target alone.
      obtain ⟨q, hreached, -, hlist⟩ := Tables.monotonicRetained_eq_some.1 hw
      refine Or.inr ⟨hbase, htarget, fun p hp => ?_⟩
      have hmem : p ∈ w.qualifiers.toList := QualifierSet.mem_toList.2 hp
      rw [hlist, List.mem_singleton] at hmem
      exact Or.inr ⟨q, hreached.1, hmem ▸ q.isSubtype_refl⟩

theorem robust_monotonic (t : Tables) :
    Robust t.oracle false fun r _ => ∀ base f, r = .field base f →
      (Receiver.field base f).isUnassignable = true ∨ ∃ q, t.IsMonotonicTarget f q where
  tracked r v _ htracks base f hr := by
    subst hr
    exact Or.inl (isUnassignable_of_tracks htracks)
  lub _ _ _ hv := hv
  retained _ _ _ _ hv _ := hv

/-- The monotonic qualifier of a field lets in the whole written value, whatever the base of the
field and whatever else the value says. -/
theorem value?_assign_of_isMonotonicUpdate {s : Store} {v : Value}
    (hmono : t.isMonotonicUpdate f v = true)
    (hknown : (Receiver.field base f).containsUnknown = false) :
    (s.assign t.oracle (.field base f) (some v)).value? (.field base f) = some v := by
  have hgate : t.oracle.isMonotonicUpdate f v = true := hmono
  refine value?_assign_of_records rfl ?_
  simp [records, hgate, hknown]

/-- Every fact about a field that a concurrent store remembers is about a field that no other code
can assign, or about one with a monotonic target. And no other thread can ever falsify what is
remembered of a field of a base exactly when this holds of every value that the monotonic qualifier
of the field lets in. -/
theorem concurrent_field_fact {ops : List StoreOp} (hops : ∀ op ∈ ops, op.isPublic = true) :
    (∀ base f w, (StoreOp.run t.oracle ops (empty false)).value? (.field base f) = some w →
      (Receiver.field base f).isUnassignable = true ∨ ∃ q, t.IsMonotonicTarget f q) ∧
    ∀ base f,
      (∀ earlier, earlier <+: ops → ∀ w,
        (StoreOp.run t.oracle earlier (empty false)).value? (.field base f) = some w →
          Withstands t base f w) ↔
      ∀ v, .assign (.field base f) (some v) ∈ ops → t.isMonotonicUpdate f v = true →
        (Receiver.field base f).containsUnknown = false → Withstands t base f v := by
  constructor
  · intro base f w h
    refine (every_empty _ false).run (robust_monotonic t) (fun op hop => ?_) _ w h base f rfl
    refine StoreOp.respects_of_isPublic (hops op hop) fun _ _ _ _ hmono _ base' f' hkey => ?_
    cases hkey
    exact Or.inr ⟨.nonNull, (Tables.isMonotonicUpdate_iff.1 hmono).1⟩
  · refine fun base f => ⟨fun h v hwrite hmono hknown => ?_, fun h earlier hearlier w hw => ?_⟩
    · -- The store is asked right after the write.
      obtain ⟨before, after, rfl⟩ := List.append_of_mem hwrite
      refine h (before ++ [.assign (.field base f) (some v)]) ⟨after, by simp⟩ v ?_
      rw [StoreOp.run, List.foldl_append]
      exact value?_assign_of_isMonotonicUpdate hmono hknown
    · have hearlierOps : ∀ op ∈ earlier, op ∈ ops := fun op hop => hearlier.subset hop
      refine (every_empty _ false).run (robust_withstands t base f) (fun op hop => ?_) _ w hw rfl
      refine StoreOp.respects_of_isPublic (hops op (hearlierOps op hop))
        fun base' f' v hwrite hmono hknown hkey => ?_
      cases hkey
      exact h v (hwrite ▸ hearlierOps op hop) hmono hknown

end Store

namespace MonotonicField

private def nonNull : Value := .of value.ty [.nonNull]

private def monotonic : Value := .of value.ty [.monotonicNonNull]

private def internedNonNull : Value := .of value.ty [.nonNull, .interned]

/-- `this.value` is set, then copied from a field that need not have been set. -/
private def rewrites : List StoreOp :=
  [.assign thisValue (some nonNull), .assign thisValue (some monotonic)]

/-- The second write weakens the fact about `this.value` to a qualifier that is neither the target
nor the least informative one. No other thread can falsify what is left. -/
theorem rewrites_withstand :
    (∀ op ∈ rewrites, op.isPublic = true) ∧ thisValue.isUnassignable = false ∧
    (StoreOp.run tables.oracle rewrites (.empty false)).value? thisValue = some monotonic ∧
    Qualifier.monotonicNonNull ≠ .top Qualifier.monotonicNonNull.hierarchy ∧
    ¬tables.IsMonotonicTarget value .monotonicNonNull ∧
    Store.Withstands tables (.this box) value monotonic := by
  have hpublic : ∀ op ∈ rewrites, op.isPublic = true := by decide
  have hfact : (StoreOp.run tables.oracle rewrites (.empty false)).value? thisValue =
      some monotonic := by decide
  have htarget : tables.IsMonotonicTarget value .nonNull := by decide
  obtain ⟨-, hwithstand⟩ := Store.concurrent_field_fact (t := tables) hpublic
  refine ⟨hpublic, rfl, hfact, by decide, by decide,
    (hwithstand (.this box) value).2 (fun v hv hmono _ => ?_) rewrites List.prefix_rfl _ hfact⟩
  simp only [rewrites, thisValue, List.mem_cons, StoreOp.assign.injEq, Option.some.injEq, true_and,
    List.not_mem_nil, or_false] at hv
  rcases hv with rfl | rfl
  · refine Or.inr ⟨rfl, ⟨_, htarget⟩, fun q hq => Or.inr ⟨.nonNull, htarget, ?_⟩⟩
    cases q <;> first | rfl | exact absurd hq (by decide)
  · exact absurd hmono (by decide)

private def link : Field := ⟨⟨20⟩, "link", box, box, false, false⟩

private def linkValue : Receiver := .field (.field (.this box) link) value

/-- `this.link.value` is set, then `this.value` is set to a literal. -/
private def writes : List StoreOp :=
  [.assign linkValue (some nonNull), .assign thisValue (some internedNonNull)]

/-- Both facts are remembered whole. Another thread falsifies the first one by assigning
`this.link`, the second one by assigning `this.value` a value that is not interned. -/
theorem writes_remembered :
    (∀ op ∈ writes, op.isPublic = true) ∧
    (StoreOp.run tables.oracle writes (.empty false)).value? linkValue = some nonNull ∧
    linkValue.isUnassignable = false ∧ (Receiver.field (.this box) link).isUnassignable = false ∧
    (StoreOp.run tables.oracle writes (.empty false)).value? thisValue = some internedNonNull ∧
    thisValue.isUnassignable = false ∧ internedNonNull.has .interned = true ∧
    Qualifier.interned ≠ .top Qualifier.interned.hierarchy ∧
    ¬tables.IsMonotonicTarget value .interned := by
  decide +kernel

end MonotonicField

end FlowTyping
