import FlowTyping.Proofs.Receiver.Occurrence
import FlowTyping.Proofs.Store.Dependence
import FlowTyping.Proofs.Store.Locals

/-!
# What an assignment leaves alone

An assignment drops a fact only if the assigned local occurs in the key, or if something occurs in
it that the write may change. All other facts keep their exact values: always those about `this`,
classes and other locals, and those about fields, array elements and calls if the type of nothing
that is read in the key can alias the type of the target. The only key that an assignment may add is
its target.
-/

namespace FlowTyping

namespace Store

variable {s : Store} {t : Tables} {target key : Receiver} {value : Option Value}

private theorem dependsOn_self {canAlias : Ty → Ty → Bool}
    (htarget : target.isHeapLocation = true) : target.dependsOn canAlias target = true := by
  rw [Receiver.dependsOn_iff]
  refine ⟨target, .whole, ?_⟩
  cases target with
  | field _ _ => simp [Receiver.isChangedBy, Receiver.readsHeap]
  | array _ _ _ => simp [Receiver.isChangedBy, Receiver.readsHeap]
  | _ => cases htarget

private theorem afterFieldWrite_of_not_dependsOn {base : Receiver} {f : Field}
    (hkey : key.dependsOn t.canAlias (.field base f) = false) (old : Value) :
    afterFieldWrite t.oracle base f value key old = some old := by
  have hkey' : key.dependsOn t.oracle.canAlias (.field base f) = false := hkey
  by_cases hfield : ∃ base' f', key = .field base' f'
  · obtain ⟨base', f', rfl⟩ := hfield
    simp only [Receiver.dependsOn, Bool.or_eq_false_iff] at hkey'
    have hname : f' ≠ f := by
      rintro rfl
      have hrefl : t.canAlias f'.ty f'.ty = true := canAlias_refl t f'.ty
      rw [show t.canAlias f'.ty f'.ty = false from hkey'.1.2] at hrefl
      cases hrefl
    simp [afterFieldWrite, hkey'.2, hname]
  · rw [afterFieldWrite_of_ne fun base' f' he => hfield ⟨base', f', he⟩, hkey']
    rfl

/-- A write other than that of a local leaves a fact alone if its key does not depend on the
target. -/
theorem value?_assign_of_not_dependsOn (hlocal : ∀ x, target ≠ .localVariable x)
    (hkey : key.dependsOn t.canAlias target = false) :
    (s.assign t.oracle target value).value? key = s.value? key := by
  have hretain : (s.retain fun key => !key.dependsOn t.oracle.canAlias target).value? key =
      s.value? key := value?_retain_of_kept (Bool.not_eq_true' _ ▸ hkey) s
  cases hheap : target.isHeapLocation with
  | false => rw [assign_of_untracked hlocal hheap, hretain]
  | true =>
    have hkept : (s.keptByWrite t.oracle target value).value? key = s.value? key := by
      cases target with
      | field base f => exact value?_mapFacts_of_kept (afterFieldWrite_of_not_dependsOn hkey) s
      | _ => exact hretain
    have hne : key ≠ target := by
      rintro rfl
      rw [dependsOn_self hheap] at hkey
      cases hkey
    have hslot : ¬SameSlot key target := fun hs =>
      hne ((sameSlot_iff_eq key fun ty he => by rw [he] at hheap; cases hheap).1 hs)
    rw [assign_heapLocation hheap]
    split
    · rw [value?_put, if_neg hslot, hkept]
    · exact hkept

theorem isSome_value?_of_assign (hkey : key ≠ target)
    (h : ((s.assign t.oracle target value).value? key).isSome) : (s.value? key).isSome := by
  obtain ⟨w, hw⟩ := Option.isSome_iff_exists.1 h
  by_cases hlocal : ∃ x, target = .localVariable x
  · obtain ⟨x, rfl⟩ := hlocal
    rw [value?_assign_local, if_neg hkey] at hw
    split at hw
    · cases hw
    · exact Option.isSome_iff_exists.2 ⟨w, hw⟩
  · cases hheap : target.isHeapLocation with
    | false =>
      rw [assign_of_untracked (fun x he => hlocal ⟨x, he⟩) hheap] at hw
      exact Option.isSome_iff_exists.2 ⟨w, (value?_retain_eq_some hw).1⟩
    | true =>
      have hkept := (value?_assign_heapLocation hheap hw).resolve_left fun hrec => hkey hrec.1
      have hmapped : ∃ f, s.keptByWrite t.oracle target value = s.mapFacts f := by
        cases target <;> exact ⟨_, rfl⟩
      obtain ⟨f, hf⟩ := hmapped
      rw [hf] at hkept
      rcases value?_mapFacts_eq_some hkept with ⟨-, hold⟩ | ⟨v, hold, -⟩
      · exact Option.isSome_iff_exists.2 ⟨w, hold⟩
      · exact Option.isSome_iff_exists.2 ⟨v, hold⟩

private theorem value?_assign_of_untouched
    (hmentioned : ∀ x, target = .localVariable x → ¬target.OccursIn key)
    (hdepends : (∀ x, target ≠ .localVariable x) → key.dependsOn t.canAlias target = false) :
    (s.assign t.oracle target value).value? key = s.value? key := by
  by_cases hlocal : ∃ x, target = .localVariable x
  · obtain ⟨x, rfl⟩ := hlocal
    have hfree : key.mentions (.localVariable x) ≠ true := fun h =>
      hmentioned x rfl (Receiver.mentions_localVariable.1 h)
    have hne : key ≠ .localVariable x := by
      rintro rfl
      exact hmentioned x rfl .whole
    rw [value?_assign_local, if_neg hne, if_neg hfree]
  · have hother : ∀ x, target ≠ .localVariable x := fun x he => hlocal ⟨x, he⟩
    exact value?_assign_of_not_dependsOn hother (hdepends hother)

/-- An assignment leaves alone what is known of `this`, of classes and of all locals but its target.
The assignment of a local leaves alone every key in which the local does not occur. Any other
assignment leaves alone every key in which nothing is read whose type can alias that of the target;
fields of the same name have the type of the target, and the keys of a store are all insertable. No
key is added but the target. -/
theorem assign_frame (t : Tables) (s : Store) (target : Receiver) (value : Option Value) :
    let after := s.assign t.oracle target value
    (∀ ty, after.value? (.this ty) = s.value? (.this ty)) ∧
    (∀ ty, after.value? (.className ty) = s.value? (.className ty)) ∧
    (∀ x, .localVariable x ≠ target →
      after.value? (.localVariable x) = s.value? (.localVariable x)) ∧
    (∀ x key, target = .localVariable x → ¬target.OccursIn key →
      after.value? key = s.value? key) ∧
    (∀ key, (∀ x, target ≠ .localVariable x) → key.isInsertable = true →
      (∀ part : Receiver, part.OccursIn key → part.readsHeap = true →
        t.canAlias part.ty target.ty = false) → after.value? key = s.value? key) ∧
    ∀ key, key ≠ target → (after.value? key).isSome → (s.value? key).isSome := by
  intro after
  refine ⟨fun ty => ?_, fun ty => ?_, fun x hx => ?_, fun x key hx hkey => ?_,
    fun key hother hkey hapart => ?_, fun key hkey => isSome_value?_of_assign hkey⟩
  · refine value?_assign_of_untouched (fun x hx h => ?_) fun _ => rfl
    cases hx.symm.trans (h.eq_of_children rfl)
  · refine value?_assign_of_untouched (fun x hx h => ?_) fun _ => rfl
    cases hx.symm.trans (h.eq_of_children rfl)
  · exact value?_assign_of_untouched (fun _ _ h => hx (h.eq_of_children rfl).symm) fun _ => rfl
  · exact value?_assign_of_untouched (fun _ _ => hkey) fun hother => absurd hx (hother x)
  · refine value?_assign_of_untouched (fun x hx => absurd hx (hother x)) fun _ => ?_
    have hknown := Receiver.containsUnknown_of_isInsertable hkey
    exact (Receiver.dependsOn_eq_false_iff (canAlias_refl t) hknown).2 hapart

end Store

namespace Library

private def library : Ty := .declared "Library"

private def book : Ty := .declared "Book"

private def number : Ty := .declared "Number"

private def shelf : Field := ⟨⟨20⟩, "shelf", library, .array book, false, false⟩

private def title : Field := ⟨⟨21⟩, "title", book, .declared "String", false, false⟩

private def count : Field := ⟨⟨22⟩, "count", library, number, false, false⟩

private def i : Variable := ⟨⟨10⟩, "i", .localVariable, .primitive .int, none⟩

private def j : Variable := ⟨⟨11⟩, "j", .localVariable, .primitive .int, none⟩

/-- `this.shelf[i].title` -/
private def titleAt : Receiver :=
  .field (.array book (.field (.this library) shelf) (.localVariable i)) title

private def titled : Store := (Store.empty true).insert titleAt (.of title.ty [.nonNull])

/-- The title is still known after `this.count = …` and after `j = …`, but not after `i = …`. -/
theorem titled_assign_frame :
    titleAt.isInsertable = true ∧
    (∀ part : Receiver, part.OccursIn titleAt → part.readsHeap = true →
      Tables.empty.canAlias part.ty number = false) ∧
    ¬Receiver.OccursIn (.localVariable j) titleAt ∧
    titled.value? titleAt = some (.of title.ty [.nonNull]) ∧
    (titled.assign Tables.empty.oracle (.field (.this library) count) none).value? titleAt =
      some (.of title.ty [.nonNull]) ∧
    (titled.assign Tables.empty.oracle (.localVariable j) none).value? titleAt =
      some (.of title.ty [.nonNull]) ∧
    (titled.assign Tables.empty.oracle (.localVariable i) none).value? titleAt = none := by
  have hkey : titleAt.isInsertable = true := by decide
  have hapart : ∀ part : Receiver, part.OccursIn titleAt → part.readsHeap = true →
      Tables.empty.canAlias part.ty (Receiver.field (.this library) count).ty = false :=
    (Receiver.dependsOn_eq_false_iff (Store.canAlias_refl _) (by decide)).1 (by decide +kernel)
  have hj : ¬Receiver.OccursIn (.localVariable j) titleAt := fun h =>
    absurd (Receiver.mentions_localVariable.2 h) (by decide)
  have hknown : titled.value? titleAt = some (.of title.ty [.nonNull]) := by decide
  obtain ⟨-, -, -, -, hwrite, -⟩ :=
    Store.assign_frame Tables.empty titled (.field (.this library) count) none
  obtain ⟨-, -, -, hother, -⟩ := Store.assign_frame Tables.empty titled (.localVariable j) none
  exact ⟨hkey, hapart, hj, hknown, (hwrite titleAt (fun _ => nofun) hkey hapart).trans hknown,
    (hother j titleAt rfl hj).trans hknown, by decide⟩

end Library

end FlowTyping
