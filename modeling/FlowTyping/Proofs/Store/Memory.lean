import FlowTyping.Receiver
import Mathlib.Logic.Function.Basic

/-!
# A concrete memory

What receivers denote while a program runs. A memory gives a value to every variable, field and
array element, so every receiver without calls and untracked parts denotes a value. A receiver
that does not depend on the written location denotes the same value after a write.
-/

namespace FlowTyping

universe u

/-- The values of all variables, fields and array elements at one moment of a run. -/
structure Memory (Val : Type u) where
  locals : Variable → Val
  this : Val
  classes : Ty → Val
  literals : Ty → Literal → Val
  fields : Val → Field → Val
  elements : Val → Val → Val

/-- A place that an assignment can write. -/
inductive Location (Val : Type u) where
  | variable (x : Variable)
  | field (object : Val) (f : Field)
  | element (array index : Val)

/-- The object that holds a location has to exist; a variable needs none. -/
def Location.InObject {Val : Type u} (isObject : Val → Prop) : Location Val → Prop
  | .variable _ => True
  | .field object _ => isObject object
  | .element array _ => isObject array

namespace Memory

variable {Val : Type u}

/-- The value that a receiver denotes; calls and untracked expressions denote nothing here. -/
def eval (m : Memory Val) : Receiver → Option Val
  | .localVariable x => some (m.locals x)
  | .this _ => some m.this
  | .className ty => some (m.classes ty)
  | .literal ty value => some (m.literals ty value)
  | .field base f => (m.eval base).map fun o => m.fields o f
  | .array _ base index => (m.eval base).bind fun a => (m.eval index).map (m.elements a)
  | .call _ _ _ _ => none
  | .unknown _ => none

def location? (m : Memory Val) : Receiver → Option (Location Val)
  | .localVariable x => some (.variable x)
  | .field base f => (m.eval base).map fun o => .field o f
  | .array _ base index => (m.eval base).bind fun a => (m.eval index).map (.element a)
  | _ => none

theorem eval_field_eq_some {m : Memory Val} {base : Receiver} {f : Field} {y : Val} :
    m.eval (.field base f) = some y ↔ ∃ o, m.eval base = some o ∧ m.fields o f = y := by
  simp [eval]

theorem eval_array_eq_some {m : Memory Val} {ty : Ty} {base index : Receiver} {y : Val} :
    m.eval (.array ty base index) = some y ↔
      ∃ a i, m.eval base = some a ∧ m.eval index = some i ∧ m.elements a i = y := by
  cases hb : m.eval base <;> cases hi : m.eval index <;> simp [eval, hb, hi]

theorem location?_field_eq_some {m : Memory Val} {base : Receiver} {f : Field}
    {l : Location Val} :
    m.location? (.field base f) = some l ↔ ∃ o, m.eval base = some o ∧ .field o f = l := by
  simp [location?]

theorem location?_array_eq_some {m : Memory Val} {ty : Ty} {base index : Receiver}
    {l : Location Val} :
    m.location? (.array ty base index) = some l ↔
      ∃ a i, m.eval base = some a ∧ m.eval index = some i ∧ .element a i = l := by
  cases hb : m.eval base <;> cases hi : m.eval index <;> simp [location?, hb, hi]

/-- Types may alias whenever two receivers that occur denote the same object, and whenever two
array accesses that occur denote the same element. -/
structure AliasesSeen (m : Memory Val) (isObject : Val → Prop) (occurs : Receiver → Prop)
    (canAlias : Ty → Ty → Bool) : Prop where
  children : ∀ r, occurs r → ∀ c ∈ r.children, occurs c
  refl : ∀ ty, canAlias ty ty = true
  objects : ∀ r r' o, occurs r → occurs r' → m.eval r = some o → m.eval r' = some o →
    isObject o → canAlias r.ty r'.ty = true
  elements : ∀ ty ty' base base' index index' a i, occurs (.array ty base index) →
    occurs (.array ty' base' index') → m.eval base = some a → m.eval index = some i →
    m.eval base' = some a → m.eval index' = some i → isObject a → canAlias ty ty' = true

variable [DecidableEq Val]

def write (m : Memory Val) : Location Val → Val → Memory Val
  | .variable x, v => { m with locals := fun y => if y = x then v else m.locals y }
  | .field o f, v =>
    { m with fields := fun o' f' => if o' = o ∧ f' = f then v else m.fields o' f' }
  | .element a i, v =>
    { m with elements := fun a' i' => if a' = a ∧ i' = i then v else m.elements a' i' }

variable {m : Memory Val} {isObject : Val → Prop} {occurs : Receiver → Prop}
  {canAlias : Ty → Ty → Bool}

theorem eval_write_variable {x : Variable} (v : Val) (r : Receiver)
    (h : r.mentions (.localVariable x) = false) :
    (m.write (.variable x) v).eval r = m.eval r := by
  induction r using eval.induct with
  | case1 y =>
    have hne : ¬y = x := by simpa [Receiver.mentions, Receiver.syntacticEq] using h
    simp [eval, write, hne]
  | case2 => rfl
  | case3 => rfl
  | case4 => rfl
  | case5 base f ih =>
    simp only [Receiver.mentions, Bool.or_eq_false_iff] at h
    rw [eval, eval, ih h.2]
    rfl
  | case6 ty base index ihb ihi =>
    simp only [Receiver.mentions, Bool.or_eq_false_iff] at h
    rw [eval, eval, ihb h.1.2, ihi h.2]
    rfl
  | case7 => rfl
  | case8 => rfl

theorem eval_write_field (hrefl : ∀ ty, canAlias ty ty = true) {base : Receiver} {f : Field}
    (o v : Val) (r : Receiver) (h : r.dependsOn canAlias (.field base f) = false) :
    (m.write (.field o f) v).eval r = m.eval r := by
  induction r using eval.induct with
  | case1 => rfl
  | case2 => rfl
  | case3 => rfl
  | case4 => rfl
  | case5 base' f' ih =>
    simp only [Receiver.dependsOn, Bool.or_eq_false_iff] at h
    have hne : ¬f' = f := by
      rintro rfl
      have halias := hrefl f'.ty
      rw [show canAlias f'.ty f'.ty = false from h.1.2] at halias
      cases halias
    rw [eval, eval, ih h.2]
    simp [write, hne]
  | case6 ty base' index' ihb ihi =>
    simp only [Receiver.dependsOn, Bool.or_eq_false_iff] at h
    rw [eval, eval, ihb h.1.2, ihi h.2]
    rfl
  | case7 => rfl
  | case8 => rfl

theorem eval_write_element (hseen : m.AliasesSeen isObject occurs canAlias) {ty : Ty}
    {base index : Receiver} {a i : Val} (htarget : occurs (.array ty base index))
    (hbase : m.eval base = some a) (hindex : m.eval index = some i) (hobject : isObject a)
    (v : Val) (r : Receiver) (hr : occurs r)
    (h : r.dependsOn canAlias (.array ty base index) = false) :
    (m.write (.element a i) v).eval r = m.eval r := by
  induction r using eval.induct with
  | case1 => rfl
  | case2 => rfl
  | case3 => rfl
  | case4 => rfl
  | case5 base' f' ih =>
    simp only [Receiver.dependsOn, Bool.or_eq_false_iff] at h
    rw [eval, eval, ih (hseen.children _ hr base' (by simp [Receiver.children])) h.2]
    rfl
  | case6 ty' base' index' ihb ihi =>
    simp only [Receiver.dependsOn, Bool.or_eq_false_iff] at h
    have hb' : occurs base' := hseen.children _ hr base' (by simp [Receiver.children])
    have hi' : occurs index' := hseen.children _ hr index' (by simp [Receiver.children])
    rw [eval, eval, ihb hb' h.1.2, ihi hi' h.2]
    cases hb : m.eval base' with
    | none => rfl
    | some a' =>
      cases hi : m.eval index' with
      | none => rfl
      | some i' =>
        have hne : ¬(a' = a ∧ i' = i) := by
          rintro ⟨rfl, rfl⟩
          have halias := hseen.elements ty' ty base' base index' index a' i' hr htarget hb hi
            hbase hindex hobject
          rw [show canAlias ty' ty = false from h.1.1.2] at halias
          cases halias
        simp [write, hne]
  | case7 => rfl
  | case8 => rfl

end Memory

end FlowTyping
