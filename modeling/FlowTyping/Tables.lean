import FlowTyping.Contract
import FlowTyping.Node
import FlowTyping.StoreOracle

/-!
# Type tables

What is known about a program, as plain tables of trees, elements and methods, and the questions
the analysis asks of them. A table is read by its first entry for a key; `Tables.check`, in a
module of its own, accepts the tables in which no key has a second one.

Declared subtyping is the reflexive transitive closure of the supertype pairs, with `Object`
above every reference type and `null` below. A tree without an entry gets what its node kind
alone says: `null` is nullable, literals, creations and `this` are non-null, string literals are
interned.
-/

namespace FlowTyping

inductive ScopeKind where
  | method
  | classBody
  | lambda
  | block
  | other
deriving DecidableEq

/-- One scope around a piece of syntax, with its declared element if it has one. -/
structure Scope where
  kind : ScopeKind
  element : Option ElementId
deriving DecidableEq

/-- Qualifiers known for a tree, optionally with its type. -/
structure TreeEntry where
  tree : TreeId
  ty : Option Ty
  qualifiers : List Qualifier
deriving DecidableEq

structure VariableEntry where
  variableId : ElementId
  qualifiers : List Qualifier
deriving DecidableEq

/-- The declared qualifiers of a field and those of its initializer, if it has one. -/
structure FieldEntry where
  field : Field
  qualifiers : List Qualifier
  initializer : Option (List Qualifier)
deriving DecidableEq

/-- An effectively final local that nested code may capture. -/
structure FinalLocal where
  declaration : Variable
  qualifiers : List Qualifier
deriving DecidableEq

structure ElementEntry where
  element : ElementId
  kind : ElementKind
  enclosing : Option ElementId
deriving DecidableEq

/-- The scopes around a tree, innermost first. -/
structure LexicalPath where
  tree : TreeId
  path : List Scope
deriving DecidableEq

/-- A method that another one overrides, with its recorded signature. -/
structure OverrideEntry where
  method : Method
  receiver : List Qualifier
  parameters : List Value
deriving DecidableEq

structure MethodEntry where
  method : ElementId
  contracts : List Contract
  sideEffectFree : Bool
  deterministic : Bool
  overrides : List OverrideEntry
deriving DecidableEq

structure Tables where
  /-- Direct supertypes, as pairs of a subtype and a supertype name. -/
  supertypes : List (String × String)
  trees : List TreeEntry
  /-- Type trees: class literals and reference types. -/
  typeTrees : List TreeEntry
  /-- Left-hand sides of declarations. -/
  declarations : List TreeEntry
  declaredVariables : List VariableEntry
  fields : List FieldEntry
  finalLocals : List FinalLocal
  elements : List ElementEntry
  lexicalPaths : List LexicalPath
  methods : List MethodEntry
deriving DecidableEq

/-- An overridden method with the values recorded for its signature. -/
structure Overridden where
  method : Method
  receiver : Option Value
  parameters : List (Option Value)
deriving DecidableEq

def Tables.empty : Tables := ⟨[], [], [], [], [], [], [], [], [], []⟩

/-- Supertypes of known names that are not known themselves. -/
def freshSupertypes (pairs : List (String × String)) (known : List String) : List String :=
  (pairs.filter fun p => p.1 ∈ known && p.2 ∉ known).map (·.2)

private theorem length_filter_lt_of_mem {α : Type} {xs : List α} {p q : α → Bool}
    (hqp : ∀ x, q x = true → p x = true) {a : α} (ha : a ∈ xs) (hp : p a = true)
    (hq : q a = false) : (xs.filter q).length < (xs.filter p).length := by
  have hsplit : xs.filter q = (xs.filter p).filter q := by
    rw [List.filter_filter]
    refine List.filter_congr fun x _ => ?_
    by_cases hx : q x = true
    · simp [hx, hqp x hx]
    · simp [hx]
  rw [hsplit]
  refine List.length_filter_lt_length_iff_exists.2 ⟨a, List.mem_filter.2 ⟨ha, hp⟩, ?_⟩
  simp [hq]

/-- Some names with all their direct and indirect supertypes. -/
def ancestors (pairs : List (String × String)) (known : List String) : List String :=
  if _hfresh : freshSupertypes pairs known = [] then known
  else ancestors pairs (known ++ freshSupertypes pairs known)
termination_by (pairs.filter fun p => p.2 ∉ known).length
decreasing_by
  obtain ⟨name, hname⟩ := List.exists_mem_of_ne_nil _ _hfresh
  obtain ⟨pair, hpair, rfl⟩ := List.mem_map.1 hname
  have hfilter := List.mem_filter.1 hpair
  refine length_filter_lt_of_mem (a := pair) ?_ hfilter.1 ?_ ?_
  · simp_all
  · simp_all
  · simpa using fun _ => hname

namespace Tables

/-- Whether a class name is another or has it among its supertypes. -/
def isDeclaredSubtype (t : Tables) (sub sup : String) : Bool :=
  sup ∈ ancestors t.supertypes [sub]

/-- Subtyping between underlying types. Arrays of references are covariant. -/
def isSubtypeTy (t : Tables) (sub sup : Ty) : Bool :=
  sub = sup ||
    match sub, sup with
    | .null, sup => sup.isReference
    | .array a, .array b => a.isReference && b.isReference && t.isSubtypeTy a b
    | sub, .declared name =>
      if .declared name = Ty.object then sub.isReference
      else match sub with
        | .declared name' => t.isDeclaredSubtype name' name
        | _ => false
    | _, _ => false

/-- Whether expressions of the two types may refer to the same object. -/
def canAlias (t : Tables) (a b : Ty) : Bool := t.isSubtypeTy a b || t.isSubtypeTy b a

def fieldEntry? (t : Tables) (f : Field) : Option FieldEntry :=
  t.fields.find? (·.field.id = f.id)

def declaredQualifiers (t : Tables) (f : Field) : List Qualifier :=
  match t.fieldEntry? f with
  | some entry => entry.qualifiers
  | none => []

/-- The target of a monotonic qualifier of the field that the value has reached. -/
def reachedTarget? (t : Tables) (f : Field) (v : Value) : Option Qualifier :=
  ((t.declaredQualifiers f).filterMap (·.monotonicTarget?)).find? v.has

def isMonotonicUpdate (t : Tables) (f : Field) (v : Value) : Bool :=
  (t.reachedTarget? f v).isSome

/-- The part of a field's value that survives an arbitrary call: the monotonic target. -/
def monotonicRetained (t : Tables) (f : Field) (v : Value) : Option Value :=
  (t.reachedTarget? f v).map fun target => .of v.ty [target]

def oracle (t : Tables) : StoreOracle := ⟨t.canAlias, t.isMonotonicUpdate, t.monotonicRetained⟩

/-- What a node kind alone says about an expression. -/
def defaultQualifiers : NodeKind → List Qualifier
  | .literal .null => [.nullable]
  | .literal (.string _) => [.nonNull, .interned]
  | .literal _ => [.nonNull]
  | .objectCreation _ _ => [.nonNull]
  | .thisLiteral => [.nonNull]
  | .stringConcatenateAssignment _ _ => [.nonNull]
  | _ => []

def valueOfTree (t : Tables) (tree : TreeId) (node : Node) : Option Value :=
  match t.trees.find? (·.tree = tree) with
  | some entry => Value.of? (entry.ty.getD node.ty) entry.qualifiers
  | none => Value.of? node.ty (defaultQualifiers node.kind)

def valueOfTypeTree (t : Tables) (tree : TreeId) : Option Value :=
  (t.typeTrees.find? (·.tree = tree)).bind fun entry =>
    Value.of? (entry.ty.getD .object) entry.qualifiers

/-- The declared value of the left-hand side of a declaration. -/
def valueOfDeclaration (t : Tables) (tree : TreeId) : Option Value :=
  (t.declarations.find? (·.tree = tree)).bind fun entry =>
    Value.of? (entry.ty.getD .object) entry.qualifiers

def valueOfVariable (t : Tables) (x : Variable) : Option Value :=
  (t.declaredVariables.find? (·.variableId = x.id)).bind fun entry =>
    Value.of? x.ty entry.qualifiers

def valueOfField (t : Tables) (f : Field) : Option Value :=
  Value.of? f.ty (t.declaredQualifiers f)

/-- Qualifiers carried over a conversion: a primitive is never null. -/
def convertQualifiers (qualifiers : QualifierSet) (source target : Ty) : QualifierSet :=
  if source.isPrimitive || target.isPrimitive then
    (qualifiers.filter (·.hierarchy ≠ .nullness)).insert .nonNull
  else qualifiers

/-- Qualified subtyping: every qualifier asked for is implied by one that is known. -/
def isSubtype (t : Tables) (v w : Value) : Bool :=
  t.isSubtypeTy v.ty w.ty &&
    w.qualifiers.toList.all fun required =>
      match v.qualifier? required.hierarchy with
      | some actual => actual.isSubtype required
      | none => false

/-- The fields with an initializer whose value is known, in table order. -/
def initializerValues (t : Tables) : List (Field × Value) :=
  t.fields.filterMap fun entry =>
    entry.initializer.bind fun qualifiers =>
      (Value.of? entry.field.ty qualifiers).map fun v => (entry.field, v)

/-- The captured locals whose value is known, in table order. -/
def finalLocalValues (t : Tables) : List (Variable × Value) :=
  t.finalLocals.filterMap fun entry =>
    (Value.of? entry.declaration.ty entry.qualifiers).map fun v => (entry.declaration, v)

def element? (t : Tables) (id : ElementId) : Option ElementEntry :=
  t.elements.find? (·.element = id)

def enclosing? (t : Tables) (id : ElementId) : Option ElementId :=
  (t.element? id).bind (·.enclosing)

def elementKind? (t : Tables) (id : ElementId) : Option ElementKind :=
  (t.element? id).map (·.kind)

def lexicalPath (t : Tables) (tree : TreeId) : List Scope :=
  match t.lexicalPaths.find? (·.tree = tree) with
  | some entry => entry.path
  | none => []

def methodEntry? (t : Tables) (m : Method) : Option MethodEntry :=
  t.methods.find? (·.method = m.id)

def overridden (t : Tables) (m : Method) : List Overridden :=
  match t.methodEntry? m with
  | some entry => entry.overrides.map fun o =>
    { method := o.method
      receiver := Value.of? o.method.owner o.receiver
      parameters := o.parameters.map fun p => Value.of? p.ty p.qualifiers.toList }
  | none => []

def contracts (t : Tables) (m : Method) : List Contract :=
  match t.methodEntry? m with
  | some entry => entry.contracts
  | none => []

def isSideEffectFree (t : Tables) (m : Method) : Bool :=
  match t.methodEntry? m with
  | some entry => entry.sideEffectFree
  | none => false

/-- Whether two calls with equal arguments return equal results. -/
def isDeterministic (t : Tables) (m : Method) : Bool :=
  match t.methodEntry? m with
  | some entry => entry.deterministic
  | none => false

def fieldList (t : Tables) : List Field := t.fields.map (·.field)

end Tables

/-- Whether `this` may be only partly initialized when the body of a method starts. -/
def Method.receiverMayBeUninitialized (m : Method) : Bool := m.isConstructor

end FlowTyping
