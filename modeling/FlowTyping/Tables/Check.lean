import FlowTyping.Tables

/-!
# Accepting tables

Tables are accepted when no type is listed as its own supertype and no keyed table holds two
entries for one key. `Tables.fault?` names the first violation, supertypes first and then the
tables in a fixed order.
-/

namespace FlowTyping

inductive TableError where
  | duplicateTree (table : String) (tree : TreeId)
  | duplicateElement (table : String) (element : ElementId)
  | selfSupertype (name : String)
deriving DecidableEq

def TableError.message : TableError → String
  | duplicateTree table tree =>
    "table `" ++ table ++ "` has more than one entry for TreeId(" ++
      toString tree.val.toNat ++ ")"
  | duplicateElement table element =>
    "table `" ++ table ++ "` has more than one entry for ElementId(" ++
      toString element.val.toNat ++ ")"
  | selfSupertype name => "type `" ++ name ++ "` is listed as its own supertype"

/-- The first member of a list that also stands earlier in it. -/
def firstRepeated? {α : Type} [DecidableEq α] : List α → List α → Option α
  | _, [] => none
  | seen, x :: xs => if x ∈ seen then some x else firstRepeated? (x :: seen) xs

def repeated? {α : Type} [DecidableEq α] (xs : List α) : Option α := firstRepeated? [] xs

private theorem firstRepeated?_eq_none {α : Type} [DecidableEq α] (xs : List α) :
    ∀ seen : List α, firstRepeated? seen xs = none ↔ xs.Nodup ∧ ∀ x ∈ xs, x ∉ seen := by
  induction xs with
  | nil => simp [firstRepeated?]
  | cons x xs ih =>
    intro seen
    by_cases h : x ∈ seen
    · simp [firstRepeated?, h]
    · rw [firstRepeated?, if_neg h, ih, List.nodup_cons]
      simp only [List.mem_cons, not_or, forall_eq_or_imp]
      constructor
      · rintro ⟨hn, hx⟩
        exact ⟨⟨fun hmem => (hx x hmem).1 rfl, hn⟩, h, fun y hy => (hx y hy).2⟩
      · rintro ⟨⟨hxs, hn⟩, _, hs⟩
        exact ⟨hn, fun y hy => ⟨fun e => hxs (e ▸ hy), hs y hy⟩⟩

theorem repeated?_eq_none {α : Type} [DecidableEq α] {xs : List α} :
    repeated? xs = none ↔ xs.Nodup := by
  simp [repeated?, firstRepeated?_eq_none]

namespace Tables

/-- The first violation of the rules for tables. -/
def fault? (t : Tables) : Option TableError :=
  ((t.supertypes.find? fun p => p.1 = p.2).map fun p => .selfSupertype p.1).or <|
  ((repeated? (t.trees.map (·.tree))).map (.duplicateTree "trees")).or <|
  ((repeated? (t.typeTrees.map (·.tree))).map (.duplicateTree "type_trees")).or <|
  ((repeated? (t.declarations.map (·.tree))).map (.duplicateTree "declarations")).or <|
  ((repeated? (t.declaredVariables.map (·.variableId))).map (.duplicateElement "variables")).or <|
  ((repeated? (t.fields.map (·.field.id))).map (.duplicateElement "fields")).or <|
  ((repeated? (t.elements.map (·.element))).map (.duplicateElement "elements")).or <|
  ((repeated? (t.lexicalPaths.map (·.tree))).map (.duplicateTree "lexical_paths")).or <|
  (repeated? (t.methods.map (·.method))).map (.duplicateElement "methods")

def check (t : Tables) : Except TableError Unit :=
  match t.fault? with
  | some e => .error e
  | none => .ok ()

end Tables

end FlowTyping
