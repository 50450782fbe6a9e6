/-!
# Finite maps

A map with finitely many keys, kept as a list of entries in which no key occurs twice. The view
is `get?`: each operation comes with an equation that says what it does to a lookup, and
`mem_entries` says that the entries are the pairs that lookups find. The order of the entries
carries no meaning; `agrees` compares two maps by their lookups.
-/

namespace FlowTyping

universe u v

/-- A finite map as a list of entries with distinct keys. -/
structure FinMap (κ : Type u) (α : Type v) where
  entries : List (κ × α)
  nodup : (entries.map Prod.fst).Nodup

namespace FinMap

variable {κ : Type u} {α : Type v} [DecidableEq κ]

private def lookup (k : κ) : List (κ × α) → Option α
  | [] => none
  | (k', a) :: rest => if k' = k then some a else lookup k rest

private theorem lookup_eq_some {k : κ} {a : α} {es : List (κ × α)}
    (hn : (es.map Prod.fst).Nodup) : lookup k es = some a ↔ (k, a) ∈ es := by
  induction es with
  | nil => simp [lookup]
  | cons e es ih =>
    obtain ⟨k', a'⟩ := e
    rw [List.map_cons, List.nodup_cons] at hn
    by_cases hk : k' = k
    · subst hk
      have habs : (k', a) ∉ es := fun h => hn.1 (List.mem_map.2 ⟨_, h, rfl⟩)
      simp [lookup, habs, eq_comm]
    · have hk' : ¬k = k' := fun h => hk h.symm
      simp [lookup, hk, hk', ih hn.2]

def get? (m : FinMap κ α) (k : κ) : Option α := lookup k m.entries

def contains (m : FinMap κ α) (k : κ) : Bool := (m.get? k).isSome

omit [DecidableEq κ] in
private theorem nodup_filterMap {β : Type v} {es : List (κ × α)} {f : κ → α → Option β}
    (hn : (es.map Prod.fst).Nodup) :
    ((es.filterMap fun e => (f e.1 e.2).map fun b => (e.1, b)).map Prod.fst).Nodup := by
  refine List.Nodup.sublist ?_ hn
  induction es with
  | nil => simp
  | cons e es ih =>
    rw [List.map_cons, List.nodup_cons] at hn
    cases h : f e.1 e.2 with
    | none => simpa [h] using (ih hn.2).cons e.1
    | some b => simpa [h] using ih hn.2

theorem mem_entries {m : FinMap κ α} {k : κ} {a : α} : (k, a) ∈ m.entries ↔ m.get? k = some a :=
  (lookup_eq_some m.nodup).symm

def empty : FinMap κ α := ⟨[], List.nodup_nil⟩

def isEmpty (m : FinMap κ α) : Bool := m.entries.isEmpty

def filterMap {β : Type v} (f : κ → α → Option β) (m : FinMap κ α) : FinMap κ β where
  entries := m.entries.filterMap fun e => (f e.1 e.2).map fun b => (e.1, b)
  nodup := nodup_filterMap m.nodup

def retain (keep : κ → Bool) (m : FinMap κ α) : FinMap κ α :=
  m.filterMap fun k a => if keep k then some a else none

def erase (m : FinMap κ α) (k : κ) : FinMap κ α :=
  m.retain fun k' => k' ≠ k

@[simp] theorem get?_empty (k : κ) : (empty : FinMap κ α).get? k = none := rfl

@[simp] theorem get?_filterMap {β : Type v} (f : κ → α → Option β) (m : FinMap κ α) (k : κ) :
    (m.filterMap f).get? k = (m.get? k).bind (f k) := by
  refine Option.ext fun b => ?_
  rw [← mem_entries]
  simp only [filterMap, List.mem_filterMap, Option.map_eq_some_iff, Option.bind_eq_some_iff,
    Prod.mk.injEq, ← mem_entries]
  constructor
  · rintro ⟨⟨k', a⟩, hmem, b', hb, rfl, rfl⟩
    exact ⟨a, hmem, hb⟩
  · rintro ⟨a, hmem, hb⟩
    exact ⟨(k, a), hmem, b, hb, rfl, rfl⟩

@[simp] theorem get?_retain (keep : κ → Bool) (m : FinMap κ α) (k : κ) :
    (m.retain keep).get? k = if keep k then m.get? k else none := by
  rw [retain, get?_filterMap]
  split <;> cases m.get? k <;> rfl

@[simp] theorem get?_erase (m : FinMap κ α) (k k' : κ) :
    (m.erase k).get? k' = if k' = k then none else m.get? k' := by
  rw [erase, get?_retain]
  by_cases h : k' = k <;> simp [h]

def insert (m : FinMap κ α) (k : κ) (a : α) : FinMap κ α where
  entries := (k, a) :: (m.erase k).entries
  nodup := by
    rw [List.map_cons, List.nodup_cons]
    refine ⟨fun h => ?_, (m.erase k).nodup⟩
    obtain ⟨⟨k', a'⟩, hmem, rfl⟩ := List.mem_map.1 h
    have := mem_entries.1 hmem
    rw [get?_erase, if_pos rfl] at this
    cases this

@[simp] theorem get?_insert (m : FinMap κ α) (k : κ) (a : α) (k' : κ) :
    (m.insert k a).get? k' = if k' = k then some a else m.get? k' := by
  by_cases h : k' = k
  · subst h
    simp [get?, insert, lookup]
  · have h' : ¬k = k' := fun e => h e.symm
    have := get?_erase m k k'
    simp only [get?, insert, lookup, if_neg h', if_neg h] at this ⊢
    exact this

def set (m : FinMap κ α) (k : κ) : Option α → FinMap κ α
  | some a => m.insert k a
  | none => m.erase k

@[simp] theorem get?_set (m : FinMap κ α) (k : κ) (a : Option α) (k' : κ) :
    (m.set k a).get? k' = if k' = k then a else m.get? k' := by
  cases a <;> simp [set]

/-- The common keys of two maps, each with its two values merged. -/
def merge (f : α → α → α) (m n : FinMap κ α) : FinMap κ α :=
  m.filterMap fun k a => (n.get? k).map (f a)

def isSubmap [DecidableEq α] (m n : FinMap κ α) : Bool :=
  m.entries.all fun e => n.get? e.1 = some e.2

/-- Whether two maps have the same entries, in whatever order. -/
def agrees [DecidableEq α] (m n : FinMap κ α) : Bool :=
  m.isSubmap n && n.isSubmap m

theorem isSubmap_iff [DecidableEq α] {m n : FinMap κ α} :
    m.isSubmap n = true ↔ ∀ k a, m.get? k = some a → n.get? k = some a := by
  simp only [isSubmap, List.all_eq_true, decide_eq_true_eq, Prod.forall, mem_entries]

/-- Two maps agree when every lookup gives the same answer. -/
theorem agrees_iff [DecidableEq α] {m n : FinMap κ α} :
    m.agrees n = true ↔ ∀ k, m.get? k = n.get? k := by
  rw [agrees, Bool.and_eq_true, isSubmap_iff, isSubmap_iff]
  constructor
  · rintro ⟨hmn, hnm⟩ k
    exact Option.ext fun a => ⟨hmn k a, hnm k a⟩
  · intro h
    exact ⟨fun k a hk => (h k) ▸ hk, fun k a hk => (h k).symm ▸ hk⟩

end FinMap

end FlowTyping
