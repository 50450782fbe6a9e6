import FlowTyping.FinMap
import FlowTyping.Receiver
import FlowTyping.Value

/-!
# Stores

A store holds the most refined value known for each receiver at one program point; a missing
entry means that nothing is known beyond the declared type. `this` is a single slot, whatever
type it is seen at. Under concurrent semantics a store takes in no fact that another thread could
falsify: fields that other code can assign, array elements and call results.

The view of a store is `Store.value?`. `Store.agrees` compares two stores through it, and
`Store.lub` keeps what both of two stores know.
-/

namespace FlowTyping

/-- What is known at one program point. -/
structure Store where
  /-- Whether only one thread runs. -/
  sequential : Bool
  thisValue : Option Value
  /-- The facts about receivers other than `this`. -/
  facts : FinMap Receiver Value

namespace Store

def empty (sequential : Bool) : Store := ⟨sequential, none, .empty⟩

def isEmpty (s : Store) : Bool := s.thisValue.isNone && s.facts.isEmpty

def value? (s : Store) : Receiver → Option Value
  | .this _ => s.thisValue
  | r => s.facts.get? r

/-- Whether the store takes in facts about a receiver. -/
def tracks (s : Store) (r : Receiver) : Bool :=
  r.isInsertable && match r with
    | .field _ _ => s.sequential || r.isUnassignable
    | .array _ _ _ => s.sequential
    | .call _ _ _ _ => s.sequential
    | _ => true

/-- Sets or removes the fact about a receiver, whether or not the store tracks it. -/
def put (s : Store) (r : Receiver) (v : Option Value) : Store :=
  match r with
  | .this _ => { s with thisValue := v }
  | r => { s with facts := s.facts.set r v }

/-- Records a value for a receiver that the store tracks, over whatever was known. -/
def insert (s : Store) (r : Receiver) (v : Value) : Store :=
  if s.tracks r then s.put r (some v) else s

/-- Combines a value with what is known about a receiver that the store tracks. -/
def refine (s : Store) (r : Receiver) (v : Value) : Store :=
  if s.tracks r then
    s.put r (some (match s.value? r with
      | some existing => existing.refine v
      | none => v))
  else s

def clear (s : Store) (r : Receiver) : Store := s.put r none

/-- Forgets what is known about a receiver and records what is known instead. -/
def replace (s : Store) (r : Receiver) (v : Option Value) : Store :=
  match v with
  | some v => (s.clear r).insert r v
  | none => s.clear r

def setParameter (s : Store) (x : Variable) (v : Option Value) : Store :=
  match v with
  | some v => s.put (.localVariable x) (some v)
  | none => s

def setThis (s : Store) (v : Option Value) : Store :=
  match v with
  | some v => { s with thisValue := some v }
  | none => s

/-- Changes or drops each fact about a receiver other than `this`. -/
def mapFacts (s : Store) (f : Receiver → Value → Option Value) : Store :=
  { s with facts := s.facts.filterMap f }

/-- Keeps the facts about `this` and those about receivers that pass a test. -/
def retain (s : Store) (keep : Receiver → Bool) : Store :=
  { s with facts := s.facts.retain keep }

/-- What both stores know, each two values merged; the semantics are those of the first. -/
def upperBound (merge : Value → Value → Value) (s t : Store) : Store where
  sequential := s.sequential
  thisValue := match s.thisValue, t.thisValue with
    | some v, some w => some (merge v w)
    | _, _ => none
  facts := s.facts.merge merge t.facts

/-- Least upper bound: what holds whichever of the two stores is the real one. -/
def lub (s t : Store) : Store := upperBound .lub s t

/-- The join used at a loop head that has been visited too often. -/
def widen (s previous : Store) : Store := upperBound .widen s previous

/-- Whether two stores have the same semantics and know the same. -/
def agrees (s t : Store) : Bool :=
  s.sequential = t.sequential && s.thisValue = t.thisValue && s.facts.agrees t.facts

@[simp] theorem value?_empty (sequential : Bool) (r : Receiver) :
    (empty sequential).value? r = none := by
  cases r <;> rfl

/-- Whether two receivers share a slot of a store: they are equal, or both are `this`. -/
def SameSlot : Receiver → Receiver → Prop
  | .this _, .this _ => True
  | r, s => r = s

instance (r s : Receiver) : Decidable (SameSlot r s) := by
  unfold SameSlot
  split <;> infer_instance

theorem value?_put (s : Store) (r : Receiver) (v : Option Value) (r' : Receiver) :
    (s.put r v).value? r' = if SameSlot r' r then v else s.value? r' := by
  cases r <;> cases r' <;> simp [put, value?, SameSlot]

theorem agrees_iff {s t : Store} :
    s.agrees t = true ↔
      s.sequential = t.sequential ∧ s.thisValue = t.thisValue ∧
        ∀ r, s.facts.get? r = t.facts.get? r := by
  simp [agrees, FinMap.agrees_iff, and_assoc]

end Store

end FlowTyping
