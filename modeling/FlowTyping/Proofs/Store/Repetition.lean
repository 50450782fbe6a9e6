import FlowTyping.Proofs.Store.Distribute

/-!
# Operations that are repeated

An operation that is repeated at once leaves the store as it is if what it makes of single facts
does not change when it is made of them again. Writes are such operations: a second write of the
same value drops nothing that the first one kept, weakens facts by a value that they are weakened by
already, and records the value that is recorded already: `Store.assign_again`. Refinements by
equality record one value for a list of receivers, which does not depend on what was known.
-/

namespace FlowTyping

namespace Store

variable {f : Receiver → Value → Option Value}

/-- What a change of facts leaves, it leaves again. -/
def Settles (f : Receiver → Value → Option Value) : Prop :=
  ∀ r v w, f r v = some w → f r w = some w

theorem Settles.bind_again (hf : Settles f) (slot : Option Receiver) (known : Option Value) :
    (known.bind (onSlot f slot)).bind (onSlot f slot) = known.bind (onSlot f slot) := by
  cases known with
  | none => rfl
  | some v =>
    cases slot with
    | none => rfl
    | some r =>
      rw [Option.bind_some]
      cases hw : onSlot f (some r) v with
      | none => rfl
      | some w => exact hf r v w hw

theorem settles_retain (keep : Receiver → Bool) :
    Settles fun r v => if keep r then some v else none := by
  intro r v w hw
  dsimp only at hw ⊢
  split at hw
  · next hkeep => rw [if_pos hkeep]
  · cases hw

theorem mapFacts_again (hf : Settles f) (s : Store) :
    ((s.mapFacts f).mapFacts f).agrees (s.mapFacts f) = true := by
  refine agrees_iff_known.2 ⟨rfl, fun slot => ?_⟩
  rw [known_mapFacts, known_mapFacts, hf.bind_again]

theorem mapFacts_put_again (hf : Settles f) (s : Store) (r : Receiver) (v : Option Value) :
    ((((s.mapFacts f).put r v).mapFacts f).put r v).agrees ((s.mapFacts f).put r v) = true := by
  refine agrees_iff_known.2 ⟨by simp [mapFacts], fun slot => ?_⟩
  simp only [known_put, known_mapFacts]
  split
  · rfl
  · rw [hf.bind_again]

/-! ### Writes -/

/-- A fact that is weakened by the written value a second time is as weak as after the first. -/
theorem settles_afterFieldWrite (oracle : StoreOracle) (base : Receiver) (g : Field)
    (value : Option Value) : Settles (afterFieldWrite oracle base g value) := by
  intro r v w hw
  cases r with
  | field base' g' =>
    simp only [afterFieldWrite] at hw ⊢
    split at hw
    · cases hw
    · next hkept =>
      rw [if_neg hkept]
      split at hw
      · next hweakened =>
        obtain ⟨u, rfl, rfl⟩ := Option.map_eq_some_iff.1 hw
        rw [if_pos hweakened, Option.map_some, ← Value.lub_assoc, Value.lub_self_lub]
      · next hsame => rw [if_neg hsame]
  | _ =>
    simp only [afterFieldWrite] at hw ⊢
    split at hw
    · cases hw
    · next hkept => rw [if_neg hkept]

theorem exists_keptByWrite_eq (oracle : StoreOracle) (target : Receiver) (value : Option Value) :
    ∃ f, Settles f ∧ ∀ s : Store, s.keptByWrite oracle target value = s.mapFacts f := by
  cases target with
  | field base g => exact ⟨_, settles_afterFieldWrite oracle base g value, fun _ => rfl⟩
  | _ => exact ⟨_, settles_retain _, fun _ => rfl⟩

/-- A write of the value that has just been written changes nothing. -/
theorem assign_again (s : Store) (oracle : StoreOracle) (target : Receiver)
    (value : Option Value) :
    ((s.assign oracle target value).assign oracle target value).agrees
      (s.assign oracle target value) = true := by
  by_cases hlocal : ∃ x, target = .localVariable x
  · obtain ⟨x, rfl⟩ := hlocal
    exact mapFacts_put_again (settles_retain _) s _ value
  · cases hheap : target.isHeapLocation with
    | false =>
      have hne : ∀ x, target ≠ .localVariable x := fun x he => hlocal ⟨x, he⟩
      rw [assign_of_untracked hne hheap, assign_of_untracked hne hheap]
      exact mapFacts_again (settles_retain _) s
    | true =>
      obtain ⟨f, hf, hkept⟩ := exists_keptByWrite_eq oracle target value
      rw [assign_heapLocation hheap, assign_heapLocation hheap]
      have hflag : ∀ s' : Store, s'.sequential = s.sequential →
          s'.records oracle target value = s.records oracle target value :=
        fun s' hs' => records_congr hs' oracle target value
      by_cases hrecords : s.records oracle target value = true
      · rw [if_pos hrecords, hkept, hflag _ (by simp [mapFacts]), if_pos hrecords, hkept]
        exact mapFacts_put_again hf s target value
      · rw [if_neg hrecords, hkept, hflag (s.mapFacts f) rfl, if_neg hrecords, hkept]
        exact mapFacts_again hf s

/-! ### Records -/

/-- A change of stores that records values in some slots, whatever was known there, and leaves the
others alone. -/
def Overwrites (change : Store → Store) : Prop :=
  ∃ recorded : Bool → Option Receiver → Option Value, ∀ s : Store,
    (change s).sequential = s.sequential ∧
      ∀ slot, (change s).known slot = (recorded s.sequential slot).or (s.known slot)

namespace Overwrites

variable {s t : Store} {change change' : Store → Store}

theorem id : Overwrites fun s => s :=
  ⟨fun _ _ => none, fun _ => ⟨rfl, fun _ => rfl⟩⟩

theorem comp (h : Overwrites change) (h' : Overwrites change') :
    Overwrites fun s => change' (change s) := by
  obtain ⟨recorded, hchange⟩ := h
  obtain ⟨recorded', hchange'⟩ := h'
  refine ⟨fun flag slot => (recorded' flag slot).or (recorded flag slot), fun s => ?_⟩
  obtain ⟨hflag, hslots⟩ := hchange s
  obtain ⟨hflag', hslots'⟩ := hchange' (change s)
  refine ⟨hflag'.trans hflag, fun slot => ?_⟩
  rw [hslots', hslots, hflag, Option.or_assoc]

theorem insert (r : Receiver) (v : Value) : Overwrites fun s => s.insert r v := by
  refine ⟨fun flag slot => if (empty flag).tracks r = true ∧ slot = r.slot then some v else none,
    fun s => ⟨sequential_insert s r v, fun slot => ?_⟩⟩
  have htracks : (empty s.sequential).tracks r = s.tracks r := tracks_congr rfl r
  dsimp only
  rw [htracks, Store.insert]
  by_cases ht : s.tracks r = true
  · rw [if_pos ht, known_put]
    by_cases hslot : slot = r.slot
    · rw [if_pos hslot, if_pos ⟨ht, hslot⟩]
      rfl
    · rw [if_neg hslot, if_neg fun hboth => hslot hboth.2]
      rfl
  · rw [if_neg ht, if_neg fun hboth => ht hboth.1]
    rfl

theorem congr (h : Overwrites change) (hst : s.agrees t = true) :
    (change s).agrees (change t) = true := by
  obtain ⟨recorded, hchange⟩ := h
  obtain ⟨hflag, hslots⟩ := agrees_iff_known.1 hst
  refine agrees_iff_known.2 ⟨?_, fun slot => ?_⟩
  · rw [(hchange s).1, (hchange t).1, hflag]
  · rw [(hchange s).2, (hchange t).2, hflag, hslots]

theorem again (h : Overwrites change) (s : Store) :
    (change (change s)).agrees (change s) = true := by
  obtain ⟨recorded, hchange⟩ := h
  obtain ⟨hflag, hslots⟩ := hchange s
  refine agrees_iff_known.2 ⟨(hchange _).1, fun slot => ?_⟩
  rw [(hchange _).2, hflag, hslots, ← Option.or_assoc, Option.or_self]

end Overwrites

end Store

end FlowTyping
