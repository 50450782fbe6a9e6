import FlowTyping.Store
import FlowTyping.StoreOracle

/-!
# Writes, calls and captures

How a store changes when the program writes a location, calls a method, or becomes the entry
store of a lambda. A write drops every fact that could be about the written location or whose
identity depends on it, before the new fact is recorded; a call drops every fact that the callee
could falsify, except what a monotonic qualifier guarantees.
-/

namespace FlowTyping.Store

/-- What becomes of a fact when `value` is written to the field `f` of `base`. An entry for the
same field of a possibly equal object is weakened by the written value. -/
def afterFieldWrite (oracle : StoreOracle) (base : Receiver) (f : Field) (value : Option Value)
    (key : Receiver) (old : Value) : Option Value :=
  match key with
  | .field base' f' =>
    if base'.dependsOn oracle.canAlias (.field base f) then none
    else if f' = f && oracle.canAlias base.ty base'.ty && !f'.isFinal then
      value.map fun v => v.lub old
    else some old
  | key => if key.dependsOn oracle.canAlias (.field base f) then none else some old

/-- The store after `value` is written to `target`; `none` is an unknown value. -/
def assign (s : Store) (oracle : StoreOracle) (target : Receiver) (value : Option Value) : Store :=
  match target with
  | .localVariable _ => (s.retain fun key => !key.mentions target).put target value
  | .field base f =>
    let kept := s.mapFacts (afterFieldWrite oracle base f value)
    match value with
    | some v =>
      if (s.sequential || oracle.isMonotonicUpdate f v || target.isUnassignable) &&
          !target.containsUnknown then
        kept.put target (some v)
      else kept
    | none => kept
  | .array _ _ _ =>
    let kept := s.retain fun key => !key.dependsOn oracle.canAlias target
    match value with
    | some v => if s.sequential && !target.containsUnknown then kept.put target (some v) else kept
    | none => kept
  | _ => s.retain fun key => !key.dependsOn oracle.canAlias target

/-- What becomes of a fact when an arbitrary method is called. -/
def afterCall (oracle : StoreOracle) (key : Receiver) (old : Value) : Option Value :=
  match key with
  | .field _ f =>
    match oracle.monotonicRetained f old with
    | some kept => some kept
    | none => if key.isUnassignable then some old else none
  | .array _ _ _ => none
  | .call _ _ _ _ => none
  | _ => some old

/-- The store after a call whose result has the given value. -/
def afterMethodCall (s : Store) (oracle : StoreOracle) (call : Receiver) (sideEffectFree : Bool)
    (result : Option Value) : Store :=
  (if sideEffectFree then s else s.mapFacts (afterCall oracle)).replace call result

/-- Drops what a lambda body cannot rely on: class, array and call facts. -/
def withoutTransient (s : Store) : Store :=
  s.retain fun
    | .className _ => false
    | .array _ _ _ => false
    | .call _ _ _ _ => false
    | _ => true

/-- Changes or drops each fact about a field. -/
def mapFields (s : Store) (f : Field → Value → Option Value) : Store :=
  s.mapFacts fun
    | .field _ g, v => f g v
    | _, v => some v

end FlowTyping.Store
