/-!
# Qualifier hierarchies

Two independent chains: `NonNull ≤ MonotonicNonNull ≤ Nullable` and
`Interned ≤ UnknownInterned`. A field declared `MonotonicNonNull` that once holds a non-null
value keeps holding one, so `NonNull` is the monotonic target of that qualifier.

`QualifierSet` is a finite set of qualifiers in a canonical form: two sets with the same
members are equal (`QualifierSet.ext_contains`).
-/

namespace FlowTyping

/-- A family of comparable qualifiers. -/
inductive Hierarchy where
  | nullness
  | interning
deriving DecidableEq

/-- The qualifiers, each chain listed from its bottom. -/
inductive Qualifier where
  | nonNull
  | monotonicNonNull
  | nullable
  | interned
  | unknownInterned
deriving DecidableEq

namespace Qualifier

/-- All qualifiers, in the order in which sets of them are listed. -/
def all : List Qualifier := [nonNull, monotonicNonNull, nullable, interned, unknownInterned]

theorem mem_all (q : Qualifier) : q ∈ all := by
  cases q <;> decide

def hierarchy : Qualifier → Hierarchy
  | nonNull => .nullness
  | monotonicNonNull => .nullness
  | nullable => .nullness
  | interned => .interning
  | unknownInterned => .interning

/-- Position in the chain of its hierarchy, bottom first. -/
def rank : Qualifier → Nat
  | nonNull => 0
  | interned => 0
  | monotonicNonNull => 1
  | unknownInterned => 1
  | nullable => 2

def index : Qualifier → Nat
  | nonNull => 0
  | monotonicNonNull => 1
  | nullable => 2
  | interned => 3
  | unknownInterned => 4

/-- Subtyping inside one hierarchy; qualifiers of different hierarchies are unrelated. -/
def isSubtype (p q : Qualifier) : Bool :=
  p.hierarchy = q.hierarchy && p.rank ≤ q.rank

/-- Join inside one hierarchy. -/
def lub? (p q : Qualifier) : Option Qualifier :=
  if p.isSubtype q then some q
  else if q.isSubtype p then some p
  else none

/-- The least informative qualifier of a hierarchy. -/
def top : Hierarchy → Qualifier
  | .nullness => nullable
  | .interning => unknownInterned

/-- What a field declared with a monotonic qualifier only ever moves towards. -/
def monotonicTarget? : Qualifier → Option Qualifier
  | monotonicNonNull => some nonNull
  | _ => none

def name : Qualifier → String
  | nonNull => "NonNull"
  | monotonicNonNull => "MonotonicNonNull"
  | nullable => "Nullable"
  | interned => "Interned"
  | unknownInterned => "UnknownInterned"

def text (q : Qualifier) : String := "@" ++ q.name

theorem isSubtype_refl (q : Qualifier) : q.isSubtype q = true := by
  cases q <;> rfl

theorem isSubtype_trans {p q r : Qualifier} (hpq : p.isSubtype q = true)
    (hqr : q.isSubtype r = true) : p.isSubtype r = true := by
  cases p <;> cases q <;> cases r <;> simp_all [isSubtype, hierarchy, rank]

theorem isSubtype_antisymm {p q : Qualifier} (hpq : p.isSubtype q = true)
    (hqp : q.isSubtype p = true) : p = q := by
  cases p <;> cases q <;> simp_all [isSubtype, hierarchy, rank]

end Qualifier

/-- A set of qualifiers, one membership flag each. -/
structure QualifierSet where
  nonNull : Bool
  monotonicNonNull : Bool
  nullable : Bool
  interned : Bool
  unknownInterned : Bool
deriving DecidableEq

namespace QualifierSet

def contains (s : QualifierSet) : Qualifier → Bool
  | .nonNull => s.nonNull
  | .monotonicNonNull => s.monotonicNonNull
  | .nullable => s.nullable
  | .interned => s.interned
  | .unknownInterned => s.unknownInterned

def ofPred (test : Qualifier → Bool) : QualifierSet :=
  ⟨test .nonNull, test .monotonicNonNull, test .nullable, test .interned, test .unknownInterned⟩

@[simp] theorem contains_ofPred (test : Qualifier → Bool) (q : Qualifier) :
    (ofPred test).contains q = test q := by
  cases q <;> rfl

theorem ext_contains {s t : QualifierSet} (h : ∀ q, s.contains q = t.contains q) : s = t := by
  obtain ⟨a, b, c, d, e⟩ := s
  obtain ⟨a', b', c', d', e'⟩ := t
  have h₁ : a = a' := h .nonNull
  have h₂ : b = b' := h .monotonicNonNull
  have h₃ : c = c' := h .nullable
  have h₄ : d = d' := h .interned
  have h₅ : e = e' := h .unknownInterned
  subst h₁ h₂ h₃ h₄ h₅
  rfl

/-- The set of the qualifiers in a list, repetitions ignored. -/
def ofList (qualifiers : List Qualifier) : QualifierSet :=
  ofPred fun q => qualifiers.contains q

/-- The members, in the order of `Qualifier.all`. -/
def toList (s : QualifierSet) : List Qualifier :=
  Qualifier.all.filter s.contains

def isEmpty (s : QualifierSet) : Bool :=
  s.toList.isEmpty

def filter (s : QualifierSet) (test : Qualifier → Bool) : QualifierSet :=
  ofPred fun q => s.contains q && test q

def insert (s : QualifierSet) (q : Qualifier) : QualifierSet :=
  ofPred fun r => s.contains r || r = q

/-- The most specific member of a hierarchy. -/
def strongest? (s : QualifierSet) (h : Hierarchy) : Option Qualifier :=
  s.toList.find? (·.hierarchy = h)

/-- The set holding, for each hierarchy, the qualifier chosen for it. -/
def choose (pick : Hierarchy → Option Qualifier) : QualifierSet :=
  ofPred fun q => pick q.hierarchy = some q

/-- The set with only the most specific member of each hierarchy. -/
def normalize (s : QualifierSet) : QualifierSet :=
  choose s.strongest?

@[simp] theorem contains_ofList (qualifiers : List Qualifier) (q : Qualifier) :
    (ofList qualifiers).contains q = qualifiers.contains q := by
  simp [ofList]

theorem mem_toList {s : QualifierSet} {q : Qualifier} : q ∈ s.toList ↔ s.contains q = true := by
  simp [toList, Qualifier.mem_all]

@[simp] theorem ofList_toList (s : QualifierSet) : ofList s.toList = s := by
  refine ext_contains fun q => ?_
  rw [contains_ofList, Bool.eq_iff_iff, List.contains_iff_mem, mem_toList]

theorem hierarchy_of_strongest? {s : QualifierSet} {h : Hierarchy} {q : Qualifier}
    (hq : s.strongest? h = some q) : q.hierarchy = h := by
  simpa using List.find?_some hq

theorem contains_of_strongest? {s : QualifierSet} {h : Hierarchy} {q : Qualifier}
    (hq : s.strongest? h = some q) : s.contains q = true :=
  mem_toList.1 (List.mem_of_find?_eq_some hq)

end QualifierSet

end FlowTyping
