import FlowTyping.Receiver
import Mathlib.Tactic.Cases

/-!
# Occurrences in a receiver

A receiver occurs in another if it is the other or occurs in one of the receivers from which the
other is built. What the library decides by looking through a whole receiver is whether something
of a certain kind occurs in it: an untracked expression, a given local, or an expression whose value
a write may change.
-/

namespace FlowTyping.Receiver

/-- A receiver is the whole of a key, or occurs in a direct part of it. -/
inductive OccursIn (r : Receiver) : Receiver → Prop where
  | whole : OccursIn r r
  | part {key c : Receiver} (hc : c ∈ key.children) (h : OccursIn r c) : OccursIn r key

variable {r key target : Receiver} {canAlias : Ty → Ty → Bool}

theorem induct_children {P : Receiver → Prop} (h : ∀ r, (∀ c ∈ r.children, P c) → P r)
    (r : Receiver) : P r := by
  apply Receiver.rec (motive_1 := P) (motive_2 := fun rs => ∀ c ∈ rs, P c)
  case localVariable => exact fun x => h _ (by simp [children])
  case field => exact fun base f hbase => h _ (by simpa [children] using hbase)
  case this => exact fun ty => h _ (by simp [children])
  case className => exact fun ty => h _ (by simp [children])
  case array =>
    exact fun ty base index hbase hindex => h _ (by simpa [children] using ⟨hbase, hindex⟩)
  case call =>
    exact fun ty m base arguments hbase harguments =>
      h _ (List.forall_mem_cons.2 ⟨hbase, harguments⟩)
  case literal => exact fun ty value => h _ (by simp [children])
  case unknown => exact fun ty => h _ (by simp [children])
  case nil => exact List.forall_mem_nil _
  case cons => exact fun c rs hc hrs => List.forall_mem_cons.2 ⟨hc, hrs⟩

theorem OccursIn.eq_of_children (h : r.OccursIn key) (hkey : key.children = []) : r = key := by
  cases h with
  | whole => rfl
  | part hc _ =>
    rw [hkey] at hc
    cases hc

theorem OccursIn.trans {part : Receiver} (hpart : part.OccursIn r) (h : r.OccursIn key) :
    part.OccursIn key := by
  induction h with
  | whole => exact hpart
  | part hc _ ih => exact .part hc ih

theorem exists_occursIn {Q : Receiver → Prop} : (∃ part, part.OccursIn key ∧ Q part) ↔
    Q key ∨ ∃ c ∈ key.children, ∃ part, part.OccursIn c ∧ Q part := by
  constructor
  · rintro ⟨part, hpart, hq⟩
    cases hpart with
    | whole => exact Or.inl hq
    | part hc h => exact Or.inr ⟨_, hc, part, h, hq⟩
  · rintro (hq | ⟨c, hc, part, h, hq⟩)
    · exact ⟨key, .whole, hq⟩
    · exact ⟨part, .part hc h, hq⟩

theorem forall_occursIn {Q : Receiver → Prop} : (∀ part, OccursIn part key → Q part) ↔
    Q key ∧ ∀ c ∈ key.children, ∀ part, OccursIn part c → Q part := by
  simpa [not_or] using not_congr (exists_occursIn (Q := fun part => ¬Q part))

theorem any_occursIn (test found : Receiver → Bool)
    (h : ∀ r, test r = (found r || r.children.any test)) (key : Receiver) :
    test key = true ↔ ∃ part, part.OccursIn key ∧ found part = true := by
  induction key using induct_children with
  | h key ih =>
    rw [h, exists_occursIn, Bool.or_eq_true, List.any_eq_true]
    exact or_congr_right (exists_congr fun c => and_congr_right fun hc => ih c hc)

theorem syntacticEq_localVariable {x : Variable} :
    syntacticEq key (.localVariable x) = true ↔ key = .localVariable x := by
  cases key <;> simp [syntacticEq]

/-- A key mentions a receiver exactly if something syntactically equal to the receiver occurs in
it. -/
theorem mentions_iff : key.mentions target = true ↔
    ∃ part : Receiver, part.OccursIn key ∧ part.syntacticEq target = true := by
  refine any_occursIn (mentions · target) (syntacticEq · target) (fun r => ?_) key
  cases r <;> simp [mentions, children, Bool.or_assoc]

/-- A key mentions a local exactly if the local occurs in it. -/
theorem mentions_localVariable {x : Variable} :
    key.mentions (.localVariable x) = true ↔ OccursIn (.localVariable x) key := by
  simp only [mentions_iff, syntacticEq_localVariable, exists_eq_right]

/-- Whether evaluating the expression itself reads a field or an element, or calls a method. -/
def readsHeap : Receiver → Bool
  | field _ _ => true
  | array _ _ _ => true
  | call _ _ _ _ => true
  | _ => false

/-- Whether writing `target` may change what the expression itself denotes while its parts keep
their values. -/
def isChangedBy (canAlias : Ty → Ty → Bool) (r target : Receiver) : Bool :=
  match r with
  | unknown _ => true
  | r => r.readsHeap && (r = target || canAlias r.ty target.ty)

theorem isChangedBy_iff (h : ∀ ty, r ≠ .unknown ty) : r.isChangedBy canAlias target = true ↔
    r.readsHeap = true ∧ (r = target ∨ canAlias r.ty target.ty = true) := by
  cases r
  case unknown ty => exact absurd rfl (h ty)
  all_goals simp [isChangedBy]

/-- A key depends on a location exactly if something that a write may change occurs in it. -/
theorem dependsOn_iff : key.dependsOn canAlias target = true ↔
    ∃ part : Receiver, part.OccursIn key ∧ part.isChangedBy canAlias target = true := by
  refine any_occursIn (dependsOn canAlias · target) (isChangedBy canAlias · target)
    (fun r => ?_) key
  cases r <;> simp [dependsOn, isChangedBy, readsHeap, children, Bool.or_assoc, ty]

theorem containsUnknown_iff : key.containsUnknown = true ↔
    ∃ ty, OccursIn (.unknown ty) key := by
  rw [any_occursIn containsUnknown (fun | unknown _ => true | _ => false)
    (fun r => by cases r <;> simp [containsUnknown, children]) key]
  constructor
  · rintro ⟨part, hpart, hunknown⟩
    cases part with
    | unknown ty => exact ⟨ty, hpart⟩
    | _ => cases hunknown
  · exact fun ⟨ty, hty⟩ => ⟨_, hty, rfl⟩

theorem containsUnknown_of_isInsertable (h : key.isInsertable = true) :
    key.containsUnknown = false := by
  cases key <;> simp_all [isInsertable, containsUnknown]

/-- A key without untracked parts is independent of a location exactly if the type of nothing that
is read in the key can alias that of the location. -/
theorem dependsOn_eq_false_iff (hrefl : ∀ ty, canAlias ty ty = true)
    (hknown : key.containsUnknown = false) : key.dependsOn canAlias target = false ↔
      ∀ part : Receiver, part.OccursIn key → part.readsHeap = true →
        canAlias part.ty target.ty = false := by
  have hchanged : ∀ part : Receiver, part.OccursIn key →
      (part.isChangedBy canAlias target = true ↔
        part.readsHeap = true ∧ canAlias part.ty target.ty = true) := by
    intro part hpart
    have htracked : ∀ ty, part ≠ .unknown ty := by
      rintro ty rfl
      rw [containsUnknown_iff.2 ⟨ty, hpart⟩] at hknown
      cases hknown
    have hsame : part = target → canAlias part.ty target.ty = true := fun h => h ▸ hrefl _
    rw [isChangedBy_iff htracked, or_iff_right_of_imp hsame]
  rw [Bool.eq_false_iff, ne_eq, dependsOn_iff]
  simp only [not_exists, not_and, Bool.eq_false_iff]
  refine forall_congr' fun part => forall_congr' fun hpart => ?_
  rw [hchanged part hpart, not_and]

end FlowTyping.Receiver
