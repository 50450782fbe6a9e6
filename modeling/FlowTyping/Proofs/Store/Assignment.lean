import FlowTyping.Proofs.Store.Memory
import FlowTyping.Store.Update

/-!
# Assignments are sound for a concrete memory

A store describes a memory when every fact about a local, `this`, a field or an array element
holds of the value found there. The store after an assignment describes the memory after the
write: a fact that survives either is about a receiver that denotes what it denoted before, or is
about the written field of a possibly equal object and has been weakened by the written value.
-/

namespace FlowTyping

namespace Receiver

/-- Whether a receiver is a local, `this`, a field or an array element. -/
def isLocation : Receiver → Bool
  | localVariable _ => true
  | this _ => true
  | field _ _ => true
  | array _ _ _ => true
  | _ => false

def isFinalField : Receiver → Bool
  | field _ f => f.isFinal
  | _ => false

end Receiver

namespace Store

theorem sameSlot_iff_eq (r : Receiver) {target : Receiver} (h : ∀ ty, target ≠ .this ty) :
    SameSlot r target ↔ r = target := by
  cases target
  case this ty => exact absurd rfl (h ty)
  all_goals cases r <;> rfl

theorem value?_eq_some {s : Store} {r : Receiver} {v : Value} (h : s.value? r = some v) :
    (∃ ty, r = .this ty) ∨ s.facts.get? r = some v := by
  cases r
  case this ty => exact Or.inl ⟨ty, rfl⟩
  all_goals exact Or.inr h

theorem value?_retain_eq_some {s : Store} {keep : Receiver → Bool} {r : Receiver} {v : Value}
    (h : (s.retain keep).value? r = some v) :
    s.value? r = some v ∧ (keep r = true ∨ ∃ ty, r = .this ty) := by
  cases r
  case this ty => exact ⟨h, Or.inr ⟨ty, rfl⟩⟩
  all_goals
    simp only [retain, value?, FinMap.get?_retain] at h ⊢
    split at h
    · next hkeep => exact ⟨h, Or.inl hkeep⟩
    · cases h

theorem value?_mapFacts_eq_some {s : Store} {f : Receiver → Value → Option Value} {r : Receiver}
    {w : Value} (h : (s.mapFacts f).value? r = some w) :
    (∃ ty, r = .this ty) ∧ s.value? r = some w ∨
      ∃ v, s.value? r = some v ∧ f r v = some w := by
  cases r
  case this ty => exact Or.inl ⟨⟨ty, rfl⟩, h⟩
  all_goals
    simp only [mapFacts, value?, FinMap.get?_filterMap, Option.bind_eq_some_iff] at h ⊢
    exact Or.inr h

theorem value?_assign_local (s : Store) (oracle : StoreOracle) (x : Variable)
    (value : Option Value) (r : Receiver) :
    (s.assign oracle (.localVariable x) value).value? r =
      if r = .localVariable x then value
      else if r.mentions (.localVariable x) then none
      else s.value? r := by
  have hslot : SameSlot r (.localVariable x) ↔ r = .localVariable x :=
    sameSlot_iff_eq r fun _ => nofun
  rw [assign, value?_put]
  by_cases hr : r = .localVariable x
  · rw [if_pos (hslot.2 hr), if_pos hr]
  · rw [if_neg fun hs => hr (hslot.1 hs), if_neg hr]
    cases r
    case this ty => rfl
    all_goals
      simp only [retain, value?, FinMap.get?_retain]
      cases Receiver.mentions _ _ <;> rfl

theorem value?_put_eq_some {s : Store} {r target : Receiver} {v w : Value}
    (htarget : ∀ ty, target ≠ .this ty) (h : (s.put target (some v)).value? r = some w) :
    r = target ∧ some v = some w ∨ s.value? r = some w := by
  rw [value?_put] at h
  by_cases hr : r = target
  · rw [if_pos ((sameSlot_iff_eq r htarget).2 hr)] at h
    exact Or.inl ⟨hr, h⟩
  · rw [if_neg fun hs => hr ((sameSlot_iff_eq r htarget).1 hs)] at h
    exact Or.inr h

/-- A fact about no field is kept by a field write unless its key depends on the field. -/
theorem afterFieldWrite_of_ne {oracle : StoreOracle} {base : Receiver} {f : Field}
    {value : Option Value} {key : Receiver} (hkey : ∀ base' f', key ≠ .field base' f')
    (old : Value) :
    afterFieldWrite oracle base f value key old =
      if key.dependsOn oracle.canAlias (.field base f) then none else some old := by
  cases key
  case field base' f' => exact absurd rfl (hkey base' f')
  all_goals rfl

theorem value?_assign_field {s : Store} {oracle : StoreOracle} {base : Receiver} {f : Field}
    {value : Option Value} {r : Receiver} {w : Value}
    (h : (s.assign oracle (.field base f) value).value? r = some w) :
    r = .field base f ∧ value = some w ∨
      (s.mapFacts (afterFieldWrite oracle base f value)).value? r = some w := by
  cases value with
  | none => exact Or.inr h
  | some v =>
    simp only [assign] at h
    split at h
    · exact value?_put_eq_some (fun _ => nofun) h
    · exact Or.inr h

theorem value?_assign_array {s : Store} {oracle : StoreOracle} {ty : Ty} {base index : Receiver}
    {value : Option Value} {r : Receiver} {w : Value}
    (h : (s.assign oracle (.array ty base index) value).value? r = some w) :
    r = .array ty base index ∧ value = some w ∨
      s.value? r = some w ∧
        r.dependsOn oracle.canAlias (.array ty base index) = false := by
  have hkept : (s.retain fun key => !key.dependsOn oracle.canAlias (.array ty base index)).value? r
      = some w → s.value? r = some w ∧
        r.dependsOn oracle.canAlias (.array ty base index) = false := by
    intro hkept
    obtain ⟨hold, hkeep | ⟨ty', rfl⟩⟩ := value?_retain_eq_some hkept
    · exact ⟨hold, by simpa using hkeep⟩
    · exact ⟨hold, rfl⟩
  cases value with
  | none => exact Or.inr (hkept h)
  | some v =>
    simp only [assign] at h
    split at h
    · have hnot : ∀ ty', Receiver.array ty base index ≠ .this ty' := fun _ => nofun
      exact (value?_put_eq_some hnot h).imp_right hkept
    · exact Or.inr (hkept h)

end Store

namespace Memory

universe u

variable {Val : Type u}

/-- Every fact about a location without calls holds of the value found there. -/
def Satisfies (m : Memory Val) (sat : Val → Value → Prop) (s : Store) : Prop :=
  ∀ r v y, r.isLocation = true → s.value? r = some v → m.eval r = some y → sat y v

/-- What holds under a value holds under every join with it. -/
structure JoinClosed (sat : Val → Value → Prop) : Prop where
  left : ∀ z (v w : Value), sat z v → sat z (v.lub w)
  right : ∀ z (v w : Value), sat z w → sat z (v.lub w)

variable [DecidableEq Val] {m : Memory Val} {isObject : Val → Prop} {occurs : Receiver → Prop}
  {sat : Val → Value → Prop} {oracle : StoreOracle} {s : Store}

private theorem satisfies_assign_local (hs : m.Satisfies sat s) {x : Variable}
    {value : Option Value} {y : Val} (hy : ∀ v, value = some v → sat y v) :
    (m.write (.variable x) y).Satisfies sat (s.assign oracle (.localVariable x) value) := by
  intro r w z hr hw hz
  rw [Store.value?_assign_local] at hw
  split at hw
  · next heq =>
    subst heq
    have hzy : z = y := by simpa [eval, write] using hz.symm
    exact hzy ▸ hy w hw
  · split at hw
    · cases hw
    · next hfree =>
      rw [eval_write_variable y r (by simpa using hfree)] at hz
      exact hs r w z hr hw hz

private theorem satisfies_assign_array (hs : m.Satisfies sat s)
    (hseen : m.AliasesSeen isObject occurs oracle.canAlias)
    (hkeys : ∀ r v, s.facts.get? r = some v → occurs r) {ty : Ty} {base index : Receiver}
    {a i : Val} (htarget : occurs (.array ty base index)) (hbase : m.eval base = some a)
    (hindex : m.eval index = some i) (hobject : isObject a)
    (hproper : ∀ c ∈ (Receiver.array ty base index).children,
      c.dependsOn oracle.canAlias (.array ty base index) = false)
    {value : Option Value} {y : Val} (hy : ∀ v, value = some v → sat y v) :
    (m.write (.element a i) y).Satisfies sat
      (s.assign oracle (.array ty base index) value) := by
  have hstable := eval_write_element hseen htarget hbase hindex hobject y
  have hmem : base ∈ (Receiver.array ty base index).children := by simp [Receiver.children]
  have hmem' : index ∈ (Receiver.array ty base index).children := by simp [Receiver.children]
  intro r w z hr hw hz
  rcases Store.value?_assign_array hw with ⟨rfl, hvalue⟩ | ⟨hold, hfree⟩
  · have hb := hstable base (hseen.children _ htarget base hmem) (hproper base hmem)
    have hi := hstable index (hseen.children _ htarget index hmem') (hproper index hmem')
    obtain ⟨a', i', ha', hi', hz⟩ := eval_array_eq_some.1 hz
    obtain rfl : a = a' := Option.some.inj (hbase.symm.trans (hb.symm.trans ha'))
    obtain rfl : i = i' := Option.some.inj (hindex.symm.trans (hi.symm.trans hi'))
    have hzy : z = y := by simpa [write] using hz.symm
    exact hzy ▸ hy w hvalue
  · rcases Store.value?_eq_some hold with ⟨ty', rfl⟩ | hfact
    · exact hs _ w z hr hold hz
    · rw [hstable r (hkeys r w hfact) hfree] at hz
      exact hs r w z hr hold hz

private theorem sat_afterFieldWrite (hs : m.Satisfies sat s)
    (hseen : m.AliasesSeen isObject occurs oracle.canAlias) (hsat : JoinClosed sat)
    {base base' : Receiver} {f f' : Field} {o : Val} (hoccurs : occurs base)
    (hoccurs' : occurs base') (hbase : m.eval base = some o) (hobject : isObject o)
    (hfinal : f.isFinal = false) {value : Option Value} {y z : Val}
    (hy : ∀ v, value = some v → sat y v) {old w : Value}
    (hold : s.value? (.field base' f') = some old)
    (hw : Store.afterFieldWrite oracle base f value (.field base' f') old = some w)
    (hz : (m.write (.field o f) y).eval (.field base' f') = some z) : sat z w := by
  obtain ⟨o', ho', hz⟩ := eval_field_eq_some.1 hz
  rw [Store.afterFieldWrite] at hw
  split at hw
  · cases hw
  · next hfree =>
    rw [eval_write_field hseen.refl o y base' (by simpa using hfree)] at ho'
    have hbefore : sat (m.fields o' f') old :=
      hs (.field base' f') old _ rfl hold (eval_field_eq_some.2 ⟨o', ho', rfl⟩)
    by_cases hsame : o' = o ∧ f' = f
    · obtain ⟨rfl, rfl⟩ := hsame
      have halias : oracle.canAlias base.ty base'.ty = true :=
        hseen.objects base base' o' hoccurs hoccurs' hbase ho' hobject
      have hzy : z = y := by simpa [write] using hz.symm
      rw [if_pos (by simp [halias, hfinal])] at hw
      obtain ⟨v, hv, rfl⟩ := Option.map_eq_some_iff.1 hw
      exact hzy ▸ hsat.left y v old (hy v hv)
    · have hzold : z = m.fields o' f' := by simpa [write, hsame] using hz.symm
      rw [hzold]
      split at hw
      · obtain ⟨v, hv, rfl⟩ := Option.map_eq_some_iff.1 hw
        exact hsat.right _ v old hbefore
      · cases hw
        exact hbefore

private theorem satisfies_assign_field (hs : m.Satisfies sat s)
    (hseen : m.AliasesSeen isObject occurs oracle.canAlias) (hsat : JoinClosed sat)
    (hkeys : ∀ r v, s.facts.get? r = some v → occurs r) {base : Receiver} {f : Field} {o : Val}
    (htarget : occurs (.field base f)) (hbase : m.eval base = some o) (hobject : isObject o)
    (hfinal : f.isFinal = false)
    (hproper : ∀ c ∈ (Receiver.field base f).children,
      c.dependsOn oracle.canAlias (.field base f) = false)
    {value : Option Value} {y : Val} (hy : ∀ v, value = some v → sat y v) :
    (m.write (.field o f) y).Satisfies sat (s.assign oracle (.field base f) value) := by
  have hstable : ∀ r, r.dependsOn oracle.canAlias (.field base f) = false →
      (m.write (.field o f) y).eval r = m.eval r :=
    fun r => eval_write_field hseen.refl o y r
  intro r w z hr hw hz
  rcases Store.value?_assign_field hw with ⟨rfl, hvalue⟩ | hkept
  · have hb := hstable base (hproper base (by simp [Receiver.children]))
    obtain ⟨o', ho', hz⟩ := eval_field_eq_some.1 hz
    obtain rfl : o = o' := Option.some.inj (hbase.symm.trans (hb.symm.trans ho'))
    have hzy : z = y := by simpa [write] using hz.symm
    exact hzy ▸ hy w hvalue
  · rcases Store.value?_mapFacts_eq_some hkept with ⟨⟨ty, rfl⟩, hold⟩ | ⟨old, hold, hw⟩
    · exact hs (.this ty) w z hr hold hz
    · by_cases hfield : ∃ base' f', r = .field base' f'
      · obtain ⟨base', f', rfl⟩ := hfield
        have hoccurs : occurs base := hseen.children _ htarget base (by simp [Receiver.children])
        have hoccurs' : occurs base' :=
          hseen.children _ (hkeys _ old hold) base' (by simp [Receiver.children])
        exact sat_afterFieldWrite hs hseen hsat hoccurs hoccurs' hbase hobject hfinal hy hold hw hz
      · have hne : ∀ base' f', r ≠ .field base' f' := fun base' f' he => hfield ⟨base', f', he⟩
        rw [Store.afterFieldWrite_of_ne hne] at hw
        split at hw
        · cases hw
        · next hfree =>
          rw [hstable r (by simpa using hfree)] at hz
          exact hs r w z hr (Option.some.inj hw ▸ hold) hz

/-- If a store describes the memory, the store after an assignment describes the memory after the
write, provided that no part of the target depends on the target itself. -/
theorem satisfies_assign (hs : m.Satisfies sat s)
    (hseen : m.AliasesSeen isObject occurs oracle.canAlias) (hsat : JoinClosed sat)
    (hkeys : ∀ r v, s.facts.get? r = some v → occurs r) {target : Receiver}
    (htarget : occurs target) {l : Location Val} (hl : m.location? target = some l)
    (hobject : l.InObject isObject) (hfinal : target.isFinalField = false)
    (hproper : ∀ c ∈ target.children, c.dependsOn oracle.canAlias target = false)
    {value : Option Value} {y : Val} (hy : ∀ v, value = some v → sat y v) :
    (m.write l y).Satisfies sat (s.assign oracle target value) := by
  cases target with
  | localVariable x =>
    obtain rfl : .variable x = l := Option.some.inj hl
    exact satisfies_assign_local hs hy
  | field base f =>
    obtain ⟨o, hbase, rfl⟩ := location?_field_eq_some.1 hl
    exact satisfies_assign_field hs hseen hsat hkeys htarget hbase hobject hfinal hproper hy
  | array ty base index =>
    obtain ⟨a, i, hbase, hindex, rfl⟩ := location?_array_eq_some.1 hl
    exact satisfies_assign_array hs hseen hkeys htarget hbase hindex hobject hproper hy
  | this _ => cases hl
  | className _ => cases hl
  | call _ _ _ _ => cases hl
  | literal _ _ => cases hl
  | unknown _ => cases hl

namespace Aliased

private def cell : Ty := .declared "Cell"

private def next : Field := ⟨⟨20⟩, "next", cell, .declared "Leaf", false, false⟩

private def x : Receiver := .localVariable ⟨⟨10⟩, "x", .localVariable, cell, none⟩

private def y : Receiver := .localVariable ⟨⟨11⟩, "y", .localVariable, cell, none⟩

private def nonNull : Value := .of next.ty [.nonNull]

private def nullable : Value := .of next.ty [.nullable]

/-- A value known to be non-null is not zero, the null of this memory. -/
def NonNullHolds (z : Nat) (v : Value) : Prop := v.has .nonNull = true → z ≠ 0

private theorem has_nonNull_of_lub {v w : Value} (h : (v.lub w).has .nonNull = true) :
    v.has .nonNull = true ∧ w.has .nonNull = true := by
  have hjoin : Value.joinQualifier (v.qualifier? .nullness) (w.qualifier? .nullness) =
      some .nonNull := by
    rw [Value.has, Value.lub, QualifierSet.choose, QualifierSet.contains_ofPred,
      decide_eq_true_iff] at h
    exact h
  cases hv : v.qualifier? .nullness with
  | none => simp [hv, Value.joinQualifier] at hjoin
  | some p =>
    cases hw : w.qualifier? .nullness with
    | none => simp [hv, hw, Value.joinQualifier] at hjoin
    | some q =>
      rw [hv, hw] at hjoin
      have hpq : p = .nonNull ∧ q = .nonNull := by
        cases p <;> cases q <;> simp [Value.joinQualifier, Qualifier.lub?, Qualifier.isSubtype,
          Qualifier.hierarchy, Qualifier.rank] at hjoin ⊢
      rw [hpq.1] at hv
      rw [hpq.2] at hw
      exact ⟨QualifierSet.contains_of_strongest? hv, QualifierSet.contains_of_strongest? hw⟩

private theorem nonNullHolds_joinClosed : JoinClosed NonNullHolds where
  left _ _ _ h hlub := h (has_nonNull_of_lub hlub).1
  right _ _ _ h hlub := h (has_nonNull_of_lub hlub).2

def shared : Memory Nat := ⟨fun _ => 1, 3, fun _ => 4, fun _ _ => 5, fun _ _ => 2, fun _ _ => 2⟩

def known : Store :=
  ((Store.empty true).put (.field x next) (some nonNull)).put (.field y next) (some nonNull)

/-- Writing null through `x` weakens what is known about the field of `y`, which is the same
object. -/
theorem shared_satisfies_assign :
    (shared.write (.field 1 next) 0).Satisfies NonNullHolds
      (known.assign .byEquality (.field x next) (some nullable)) ∧
    (known.assign .byEquality (.field x next) (some nullable)).value? (.field y next) =
      some nullable := by
  have hseen : shared.AliasesSeen (fun z => z ≠ 0)
      (fun r => r ∈ [x, y, .field x next, .field y next]) StoreOracle.byEquality.canAlias := by
    refine ⟨by decide, by simp [StoreOracle.byEquality], ?_, ?_⟩
    · intro r r' o hr hr' ho ho' _
      have hty : ∀ r ∈ [x, y, .field x next, .field y next],
          shared.eval r = some (if r.ty = cell then 1 else 2) ∧
            (r.ty = cell ∨ r.ty = next.ty) := by decide
      obtain ⟨heval, hr⟩ := hty r hr
      obtain ⟨heval', hr'⟩ := hty r' hr'
      have hsame : (if r.ty = cell then 1 else 2) = if r'.ty = cell then 1 else 2 := by
        rw [← Option.some.injEq, ← heval, ← heval', ho, ho']
      have hne : next.ty ≠ cell := by decide
      rcases hr with hr | hr <;> rcases hr' with hr' | hr' <;>
        simp [hr, hr', hne, StoreOracle.byEquality] at hsame ⊢
    · intro ty ty' base base' index index' a i h
      simp [x, y] at h
  have hsat : shared.Satisfies NonNullHolds known := by
    intro r v z _ _ hz _
    cases r <;> simp [eval, shared, Option.bind_eq_some_iff] at hz <;> omega
  have hkeys : ∀ r v, known.facts.get? r = some v →
      r ∈ [x, y, .field x next, .field y next] := by
    intro r v hv
    simp only [known, Store.put, Store.empty, FinMap.set, FinMap.get?_insert,
      FinMap.get?_empty] at hv
    split at hv
    · next hr => simp [hr]
    · split at hv
      · next hr => simp [hr]
      · cases hv
  have hzero : ∀ v, some nullable = some v → NonNullHolds 0 v := by
    rintro v hv hnonNull
    obtain rfl := Option.some.inj hv
    exact absurd hnonNull (by decide)
  have hobject : (Location.field 1 next).InObject fun z => z ≠ 0 := Nat.one_ne_zero
  exact ⟨satisfies_assign hsat hseen nonNullHolds_joinClosed hkeys (by decide) rfl hobject rfl
    (by decide) hzero, by decide⟩

end Aliased

end Memory

end FlowTyping
