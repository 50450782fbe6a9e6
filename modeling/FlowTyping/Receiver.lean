import FlowTyping.Element
import FlowTyping.Literal

/-!
# Receivers

A receiver is the identity under which facts about an expression are recorded. Two nodes that
denote the same location have equal receivers. `Receiver.unknown` stands for an expression whose
identity is not tracked; it is syntactically equal to nothing, not even to itself.

Functions on receivers recurse through the argument lists of calls, so each comes with a twin on
lists; a lemma after each pair says what the twin is in terms of the list operations.
-/

namespace FlowTyping

/-- The canonical identity of an expression. -/
inductive Receiver where
  | localVariable (declaration : Variable)
  | field (base : Receiver) (field : Field)
  | this (ty : Ty)
  /-- A class used as the receiver of static members. -/
  | className (ty : Ty)
  | array (ty : Ty) (base index : Receiver)
  /-- A call of a deterministic method. -/
  | call (ty : Ty) (method : Method) (base : Receiver) (arguments : List Receiver)
  | literal (ty : Ty) (value : Literal)
  | unknown (ty : Ty)

namespace Receiver

mutual

def same : Receiver → Receiver → Bool
  | localVariable x, localVariable y => x = y
  | field base f, field base' f' => f = f' && same base base'
  | this ty, this ty' => ty = ty'
  | className ty, className ty' => ty = ty'
  | array ty base index, array ty' base' index' =>
    ty = ty' && same base base' && same index index'
  | call ty m base arguments, call ty' m' base' arguments' =>
    ty = ty' && m = m' && same base base' && sameList arguments arguments'
  | literal ty value, literal ty' value' => ty = ty' && value = value'
  | unknown ty, unknown ty' => ty = ty'
  | _, _ => false

def sameList : List Receiver → List Receiver → Bool
  | [], [] => true
  | r :: rs, s :: ss => same r s && sameList rs ss
  | _, _ => false

end

mutual

private theorem same_refl : ∀ r : Receiver, same r r = true
  | localVariable _ => by simp [same]
  | field base _ => by simp [same, same_refl base]
  | this _ => by simp [same]
  | className _ => by simp [same]
  | array _ base index => by simp [same, same_refl base, same_refl index]
  | call _ _ base arguments => by simp [same, same_refl base, sameList_refl arguments]
  | literal _ _ => by simp [same]
  | unknown _ => by simp [same]

private theorem sameList_refl : ∀ rs : List Receiver, sameList rs rs = true
  | [] => rfl
  | r :: rs => by simp [sameList, same_refl r, sameList_refl rs]

end

mutual

private theorem eq_of_same : ∀ r s : Receiver, same r s = true → r = s
  | localVariable _, s, h => by cases s <;> simp_all [same]
  | field base _, s, h => by
    cases s <;> simp_all [same]
    exact eq_of_same base _ h.2
  | this _, s, h => by cases s <;> simp_all [same]
  | className _, s, h => by cases s <;> simp_all [same]
  | array _ base index, s, h => by
    cases s <;> simp_all [same]
    exact ⟨eq_of_same base _ h.1.2, eq_of_same index _ h.2⟩
  | call _ _ base arguments, s, h => by
    cases s <;> simp_all [same]
    exact ⟨eq_of_same base _ h.1.2, eq_of_sameList arguments _ h.2⟩
  | literal _ _, s, h => by cases s <;> simp_all [same]
  | unknown _, s, h => by cases s <;> simp_all [same]

private theorem eq_of_sameList : ∀ rs ss : List Receiver, sameList rs ss = true → rs = ss
  | [], ss, h => by cases ss <;> simp_all [sameList]
  | r :: rs, ss, h => by
    cases ss with
    | nil => simp [sameList] at h
    | cons s ss =>
      simp only [sameList, Bool.and_eq_true] at h
      rw [eq_of_same r s h.1, eq_of_sameList rs ss h.2]

end

theorem same_iff {r s : Receiver} : same r s = true ↔ r = s :=
  ⟨eq_of_same r s, fun h => h ▸ same_refl r⟩

instance : DecidableEq Receiver := fun _ _ => decidable_of_iff _ same_iff

def ty : Receiver → Ty
  | localVariable x => x.ty
  | field _ f => f.ty
  | this ty => ty
  | className ty => ty
  | array ty _ _ => ty
  | call ty _ _ _ => ty
  | literal ty _ => ty
  | unknown ty => ty

/-- The receivers from which a receiver is directly built. -/
def children : Receiver → List Receiver
  | field base _ => [base]
  | array _ base index => [base, index]
  | call _ _ base arguments => base :: arguments
  | _ => []

/-- The identity of a field as seen from inside its declaring class. -/
def implicitField (f : Field) (cls : Ty) : Receiver :=
  field (if f.isStatic then className cls else this cls) f

mutual

/-- Whether an untracked expression occurs at any depth. -/
def containsUnknown : Receiver → Bool
  | unknown _ => true
  | field base _ => base.containsUnknown
  | array _ base index => base.containsUnknown || index.containsUnknown
  | call _ _ base arguments => base.containsUnknown || anyContainsUnknown arguments
  | _ => false

def anyContainsUnknown : List Receiver → Bool
  | [] => false
  | r :: rs => r.containsUnknown || anyContainsUnknown rs

end

@[simp] theorem anyContainsUnknown_eq (rs : List Receiver) :
    anyContainsUnknown rs = rs.any containsUnknown := by
  induction rs with
  | nil => rfl
  | cons r rs ih => simp [anyContainsUnknown, ih]

/-- Whether facts can be recorded under this receiver: a location or call whose identity is
tracked at every depth. -/
def isInsertable (r : Receiver) : Bool :=
  match r with
  | literal _ _ => false
  | unknown _ => false
  | _ => !r.containsUnknown

mutual

/-- Whether no other thread and no called method can change what this expression denotes. -/
def isUnassignable : Receiver → Bool
  | localVariable _ => true
  | this _ => true
  | className _ => true
  | literal _ _ => true
  | field base f => f.isFinal && base.isUnassignable
  | call _ _ base arguments => base.isUnassignable && allUnassignable arguments
  | array _ _ _ => false
  | unknown _ => false

def allUnassignable : List Receiver → Bool
  | [] => true
  | r :: rs => r.isUnassignable && allUnassignable rs

end

@[simp] theorem allUnassignable_eq (rs : List Receiver) :
    allUnassignable rs = rs.all isUnassignable := by
  induction rs with
  | nil => rfl
  | cons r rs ih => simp [allUnassignable, ih]

mutual

/-- Structural equality under which an untracked expression equals nothing. The types of array
accesses and calls do not take part. -/
def syntacticEq : Receiver → Receiver → Bool
  | field base f, field base' f' => f = f' && syntacticEq base base'
  | array _ base index, array _ base' index' =>
    syntacticEq base base' && syntacticEq index index'
  | call _ m base arguments, call _ m' base' arguments' =>
    m = m' && syntacticEq base base' && syntacticEqList arguments arguments'
  | localVariable x, localVariable y => x = y
  | this ty, this ty' => ty = ty'
  | className ty, className ty' => ty = ty'
  | literal ty value, literal ty' value' => ty = ty' && value = value'
  | _, _ => false

def syntacticEqList : List Receiver → List Receiver → Bool
  | [], [] => true
  | r :: rs, s :: ss => syntacticEq r s && syntacticEqList rs ss
  | _, _ => false

end

mutual

/-- Whether a receiver occurs syntactically inside another, at any depth or as the whole. -/
def mentions (r target : Receiver) : Bool :=
  match r with
  | field base f => syntacticEq (field base f) target || base.mentions target
  | array ty base index =>
    syntacticEq (array ty base index) target || base.mentions target || index.mentions target
  | call ty m base arguments =>
    syntacticEq (call ty m base arguments) target || base.mentions target ||
      anyMentions arguments target
  | r => syntacticEq r target

def anyMentions (rs : List Receiver) (target : Receiver) : Bool :=
  match rs with
  | [] => false
  | r :: rs => r.mentions target || anyMentions rs target

end

@[simp] theorem anyMentions_eq (rs : List Receiver) (target : Receiver) :
    anyMentions rs target = rs.any (·.mentions target) := by
  induction rs with
  | nil => rfl
  | cons r rs ih => simp [anyMentions, ih]

mutual

/-- Whether writing `target` may change the value a receiver denotes, given which types may
belong to the same object. -/
def dependsOn (canAlias : Ty → Ty → Bool) (r target : Receiver) : Bool :=
  match r with
  | unknown _ => true
  | field base f =>
    field base f = target || canAlias f.ty target.ty || base.dependsOn canAlias target
  | array ty base index =>
    array ty base index = target || canAlias ty target.ty ||
      base.dependsOn canAlias target || index.dependsOn canAlias target
  | call ty m base arguments =>
    call ty m base arguments = target || canAlias ty target.ty ||
      base.dependsOn canAlias target || anyDependsOn canAlias arguments target
  | _ => false

def anyDependsOn (canAlias : Ty → Ty → Bool) (rs : List Receiver) (target : Receiver) : Bool :=
  match rs with
  | [] => false
  | r :: rs => r.dependsOn canAlias target || anyDependsOn canAlias rs target

end

@[simp] theorem anyDependsOn_eq (canAlias : Ty → Ty → Bool) (rs : List Receiver)
    (target : Receiver) :
    anyDependsOn canAlias rs target = rs.any (·.dependsOn canAlias target) := by
  induction rs with
  | nil => rfl
  | cons r rs ih => simp [anyDependsOn, ih]

mutual

def text : Receiver → String
  | localVariable x => x.name
  | field base f => base.text ++ "." ++ f.name
  | this _ => "this"
  | className ty => ty.simpleName
  | array _ base index => base.text ++ "[" ++ index.text ++ "]"
  | call _ m base arguments =>
    base.text ++ "." ++ m.name ++ "(" ++ ", ".intercalate (texts arguments) ++ ")"
  | literal _ value => value.text
  | unknown ty => "?" ++ ty.text

def texts : List Receiver → List String
  | [] => []
  | r :: rs => r.text :: texts rs

end

@[simp] theorem texts_eq (rs : List Receiver) : texts rs = rs.map text := by
  induction rs with
  | nil => rfl
  | cons r rs ih => simp [texts, ih]

/-- The place of a receiver's kind in a listing of facts: locals, `this`, fields, arrays, calls,
and class names last. -/
def rank : Receiver → Nat
  | localVariable _ => 0
  | this _ => 1
  | field _ _ => 2
  | array _ _ _ => 3
  | call _ _ _ _ => 4
  | _ => 5

end Receiver

end FlowTyping
