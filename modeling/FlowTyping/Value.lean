import FlowTyping.Qualifier
import FlowTyping.Ty

/-!
# Abstract values

A value is an underlying type with a set of qualifiers. `Value.of` keeps one qualifier per
hierarchy, the most specific of those given. In `Value.lub` a hierarchy that only one side knows
becomes unknown; in `Value.mostSpecific` it is kept.
-/

namespace FlowTyping

/-- An underlying type with the qualifiers known to hold. -/
structure Value where
  ty : Ty
  qualifiers : QualifierSet
deriving DecidableEq

namespace Value

/-- The value with the most specific of the given qualifiers in each hierarchy. -/
def of (ty : Ty) (qualifiers : List Qualifier) : Value :=
  ⟨ty, (QualifierSet.ofList qualifiers).normalize⟩

/-- The value with the given qualifiers, or nothing when there are none. -/
def of? (ty : Ty) (qualifiers : List Qualifier) : Option Value :=
  if qualifiers.isEmpty then none else some (of ty qualifiers)

/-- At most one qualifier in each hierarchy. -/
def Normalized (v : Value) : Prop :=
  v.qualifiers.normalize = v.qualifiers

instance (v : Value) : Decidable v.Normalized :=
  inferInstanceAs (Decidable (_ = _))

def qualifier? (v : Value) (h : Hierarchy) : Option Qualifier :=
  v.qualifiers.strongest? h

def has (v : Value) (q : Qualifier) : Bool :=
  v.qualifiers.contains q

/-- Replaces whatever is known in the hierarchy of `q` by `q`. -/
def withQualifier (v : Value) (q : Qualifier) : Value :=
  { v with qualifiers := (v.qualifiers.filter (·.hierarchy ≠ q.hierarchy)).insert q }

/-- Forgets the qualifiers outside one hierarchy. -/
def restrict (v : Value) (h : Hierarchy) : Value :=
  { v with qualifiers := v.qualifiers.filter (·.hierarchy = h) }

/-- The join of what two sides know of a hierarchy: unknown if either side knows nothing. -/
def joinQualifier : Option Qualifier → Option Qualifier → Option Qualifier
  | some p, some q => p.lub? q
  | _, _ => none

/-- The more specific of what two sides know of a hierarchy. -/
def sharperQualifier : Option Qualifier → Option Qualifier → Option Qualifier
  | some p, some q => some (if p.isSubtype q then p else q)
  | some p, none => some p
  | none, q => q

/-- Least upper bound: what holds whichever of the two values is the real one. -/
def lub (v w : Value) : Value where
  ty := v.ty.lub w.ty
  qualifiers := .choose fun h => joinQualifier (v.qualifier? h) (w.qualifier? h)

/-- The lower of two types, or `fallback` when neither is below the other. -/
def lowerTy (s t fallback : Ty) : Ty :=
  if s = t then s
  else if s.lub t = t then s
  else if s.lub t = s then t
  else fallback

/-- All that either value knows, the more specific qualifier where both know one. The type is
the lower of the two, or that of `fallback` when they are incomparable. -/
def mostSpecific (v w fallback : Value) : Value where
  ty := lowerTy v.ty w.ty fallback.ty
  qualifiers := .choose fun h => sharperQualifier (v.qualifier? h) (w.qualifier? h)

/-- The join used at a loop head that has been visited too often. -/
def widen (v previous : Value) : Value :=
  v.lub previous

/-- An existing fact combined with an incoming one; the incoming type wins unless the existing
one is lower. -/
def refine (existing incoming : Value) : Value :=
  incoming.mostSpecific existing incoming

def moreSpecific? : Option Value → Option Value → Option Value
  | some v, some w => some (v.mostSpecific w v)
  | some v, none => some v
  | none, w => w

def lub? : Option Value → Option Value → Option Value
  | some v, some w => some (v.lub w)
  | _, _ => none

/-- Whether `v` says strictly more than `other`. -/
def isStrictlyMorePrecise (v : Value) : Option Value → Bool
  | none => true
  | some other => v ≠ other && v.mostSpecific other other = v

def text (v : Value) : String :=
  String.join (v.qualifiers.toList.map fun q => q.text ++ " ") ++ v.ty.simpleName

end Value

end FlowTyping
