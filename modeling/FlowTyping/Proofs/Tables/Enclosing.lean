import FlowTyping.EntryStore
import Mathlib.Data.Finset.Card
import Mathlib.Logic.Relation

/-!
# Enclosing elements

Going outwards from an element passes the elements around it, one after the other. Where no element
is around itself, this ends: `Tables.enclosingChain`, which stops after as many steps as there are
elements, never stops short. What the search for the code around a lambda finds is then a matter of
the scopes around the lambda and of such climbs: `Tables.codeAround?_eq_some_iff`.
-/

namespace FlowTyping

namespace Tables

variable {t : Tables} {e e' x : ElementId} {chain : List ElementId}

def DirectlyInside (t : Tables) (inner outer : ElementId) : Prop :=
  t.enclosing? inner = some outer

/-- Going outwards from the inner element, zero or more steps, reaches the outer one. -/
def Encloses (t : Tables) (outer inner : ElementId) : Prop :=
  Relation.ReflTransGen t.DirectlyInside inner outer

/-- Going outwards never comes back to where it started. -/
def AcyclicEnclosing (t : Tables) : Prop :=
  ∀ e, ¬Relation.TransGen t.DirectlyInside e e

/-- Going outwards from an element passes the elements of a list and ends at its last one. -/
inductive Climb (t : Tables) : ElementId → List ElementId → Prop where
  | top {e : ElementId} (hend : t.enclosing? e = none) : Climb t e [e]
  | step {e e' : ElementId} {chain : List ElementId} (hstep : t.enclosing? e = some e')
      (rest : Climb t e' chain) : Climb t e (e :: chain)

theorem Climb.unique {chain' : List ElementId} (h : t.Climb e chain) (h' : t.Climb e chain') :
    chain = chain' := by
  induction h generalizing chain' with
  | top hend =>
    cases h' with
    | top => rfl
    | step hstep => rw [hend] at hstep; cases hstep
  | step hstep _ ih =>
    cases h' with
    | top hend => rw [hend] at hstep; cases hstep
    | step hstep' rest' =>
      rw [hstep] at hstep'
      cases hstep'
      rw [ih rest']

theorem encloses_iff :
    t.Encloses x e ↔ e = x ∨ ∃ e', t.enclosing? e = some e' ∧ t.Encloses x e' :=
  Relation.ReflTransGen.cases_head_iff

theorem Climb.mem_iff (h : t.Climb e chain) : x ∈ chain ↔ t.Encloses x e := by
  induction h with
  | top hend =>
    rw [encloses_iff, hend]
    simp [eq_comm]
  | step hstep _ ih =>
    rw [encloses_iff, hstep, List.mem_cons, ih]
    simp [eq_comm]

/-- Elements that are ordered from the inside to the outside are not around themselves. -/
theorem acyclicEnclosing_of_lt (depth : ElementId → Nat)
    (h : ∀ entry ∈ t.elements, ∀ e' ∈ entry.enclosing, depth entry.element < depth e') :
    t.AcyclicEnclosing := by
  have hstep : ∀ a b, t.DirectlyInside a b → depth a < depth b := by
    intro a b hab
    obtain ⟨entry, hfound, henclosing⟩ := Option.bind_eq_some_iff.1 hab
    have hkey : entry.element = a := by simpa using List.find?_some hfound
    exact hkey ▸ h entry (List.mem_of_find?_eq_some hfound) b henclosing
  intro e hloop
  have hless : ∀ b, Relation.TransGen t.DirectlyInside e b → depth e < depth b := by
    intro b hb
    induction hb with
    | single hab => exact hstep _ _ hab
    | tail _ hbc ih => exact Nat.lt_trans ih (hstep _ _ hbc)
  exact Nat.lt_irrefl _ (hless e hloop)

open Classical in
noncomputable def above (t : Tables) (e : ElementId) : Finset ElementId :=
  (t.elements.map (·.element)).toFinset.filter fun x => t.Encloses x e

theorem mem_above : x ∈ t.above e ↔ x ∈ t.elements.map (·.element) ∧ t.Encloses x e := by
  simp only [above, Finset.mem_filter, List.mem_toFinset]

theorem card_above_le (t : Tables) (e : ElementId) : (t.above e).card ≤ t.elements.length := by
  have hsub : t.above e ⊆ (t.elements.map (·.element)).toFinset :=
    fun x hx => List.mem_toFinset.2 (mem_above.1 hx).1
  calc (t.above e).card ≤ (t.elements.map (·.element)).toFinset.card := Finset.card_le_card hsub
    _ ≤ (t.elements.map (·.element)).length := List.toFinset_card_le _
    _ = t.elements.length := List.length_map _

theorem mem_elements_of_enclosing? (h : t.enclosing? e = some e') :
    e ∈ t.elements.map (·.element) := by
  obtain ⟨entry, hfound, -⟩ := Option.bind_eq_some_iff.1 h
  have hkey : entry.element = e := by simpa using List.find?_some hfound
  exact List.mem_map.2 ⟨entry, List.mem_of_find?_eq_some hfound, hkey⟩

theorem card_above_lt (hacyclic : t.AcyclicEnclosing) (h : t.enclosing? e = some e') :
    (t.above e').card < (t.above e).card := by
  apply Finset.card_lt_card
  refine (Finset.ssubset_iff_of_subset fun x hx => ?_).2 ⟨e, ?_, fun hback => ?_⟩
  · obtain ⟨hmem, houter⟩ := mem_above.1 hx
    exact mem_above.2 ⟨hmem, .head h houter⟩
  · exact mem_above.2 ⟨mem_elements_of_enclosing? h, .refl⟩
  · exact hacyclic e (Relation.TransGen.head' h (mem_above.1 hback).2)

/-- A chain that may be longer than there are elements above its start is a whole climb. -/
theorem climb_enclosingChainWithin (hacyclic : t.AcyclicEnclosing) {length : Nat}
    (hlength : (t.above e).card < length) : t.Climb e (t.enclosingChainWithin length e) := by
  induction length generalizing e with
  | zero => omega
  | succ length ih =>
    rw [enclosingChainWithin]
    cases henclosing : t.enclosing? e with
    | none => exact .top henclosing
    | some e' =>
      have hless := card_above_lt hacyclic henclosing
      exact .step henclosing (ih (by omega))

/-- Going outwards ends, and the chain of enclosing elements is what it passes. -/
theorem climb_enclosingChain (hacyclic : t.AcyclicEnclosing) (e : ElementId) :
    t.Climb e (t.enclosingChain e) :=
  climb_enclosingChainWithin hacyclic (Nat.lt_succ_of_le (t.card_above_le e))

theorem mem_enclosingChain_iff (hacyclic : t.AcyclicEnclosing) :
    x ∈ t.enclosingChain e ↔ t.Encloses x e :=
  (climb_enclosingChain hacyclic e).mem_iff

/-! ### The code around a lambda -/

end Tables

/-- The scope of a method, or of a class, where the code may be an initializer. -/
def Scope.IsCode (s : Scope) : Prop := s.kind = .method ∨ s.kind = .classBody

instance (s : Scope) : Decidable s.IsCode := inferInstanceAs (Decidable (_ ∨ _))

namespace Tables

/-- An element is that of the code around a tree. If a method comes first among the methods and
classes around the tree, it is that method. If a class does, it is the first initializer that is
met when going outwards from the innermost scope before the class that has an element, as long as
the class itself is not met. -/
inductive CodeAround (t : Tables) (tree : TreeId) (e : ElementId) : Prop where
  | method {inner outer : List Scope} {scope : Scope}
      (hpath : t.lexicalPath tree = inner ++ scope :: outer) (hinner : ∀ s ∈ inner, ¬s.IsCode)
      (hkind : scope.kind = .method) (helement : scope.element = some e)
  | initializer {inner outer : List Scope} {cls : Scope}
      (hpath : t.lexicalPath tree = inner ++ cls :: outer) (hinner : ∀ s ∈ inner, ¬s.IsCode)
      (hkind : cls.kind = .classBody)
      {before after : List Scope} {scope : Scope} {innermost : ElementId}
      (hscopes : inner = before ++ scope :: after) (hbefore : ∀ s ∈ before, s.element = none)
      (hinnermost : scope.element = some innermost)
      {passed rest : List ElementId} (hclimb : t.Climb innermost (passed ++ e :: rest))
      (hpassed : ∀ x ∈ passed, some x ≠ cls.element ∧ t.isInitializer x = false)
      (hclass : some e ≠ cls.element) (hinitializer : t.isInitializer e = true)

variable {t : Tables} {tree : TreeId} {e : ElementId} {inner outer : List Scope} {scope : Scope}

/-- The code around a tree once the first method or class around the tree is known. -/
theorem codeAround?_eq (hpath : t.lexicalPath tree = inner ++ scope :: outer)
    (hinner : ∀ s ∈ inner, ¬s.IsCode) (hscope : scope.IsCode) :
    t.codeAround? tree =
      if scope.kind = .method then scope.element
      else (inner.findSome? (·.element)).bind fun innermost =>
        ((t.enclosingChain innermost).takeWhile fun e => some e ≠ scope.element).find?
          t.isInitializer := by
  have htest : ∀ s : Scope, (s.kind = .method || s.kind = .classBody : Bool) = decide s.IsCode :=
    fun s => (Bool.decide_or _ _).symm
  have hfind : (t.lexicalPath tree).find? (fun s => decide s.IsCode) = some scope := by
    rw [hpath, List.find?_eq_some_iff_append]
    exact ⟨by simpa using hscope, inner, outer, rfl, fun s hs => by simpa using hinner s hs⟩
  have htake : (t.lexicalPath tree).takeWhile (fun s => !decide s.IsCode) = inner := by
    rw [hpath, List.takeWhile_append_of_pos fun s hs => by simpa using hinner s hs,
      List.takeWhile_cons_of_neg (by simpa using hscope), List.append_nil]
  simp only [codeAround?, htest, hfind, htake]
  split
  · rfl
  · cases inner.findSome? (·.element) <;> rfl

theorem codeAround?_eq_none (h : ∀ s ∈ t.lexicalPath tree, ¬s.IsCode) :
    t.codeAround? tree = none := by
  have hfind : (t.lexicalPath tree).find?
      (fun s => (s.kind = .method || s.kind = .classBody : Bool)) = none := by
    rw [List.find?_eq_none]
    intro s hs hcode
    exact h s hs (by simpa [Scope.IsCode] using hcode)
  simp only [codeAround?, hfind]

private theorem find?_takeWhile_eq_some {α : Type} {chain : List α} {p q : α → Bool} {e : α} :
    (chain.takeWhile p).find? q = some e ↔
      ∃ passed rest, chain = passed ++ e :: rest ∧
        (∀ x ∈ passed, p x = true ∧ q x = false) ∧ p e = true ∧ q e = true := by
  induction chain with
  | nil => simp
  | cons a chain ih =>
    constructor
    · intro h
      by_cases hp : p a = true
      · rw [List.takeWhile_cons_of_pos hp] at h
        by_cases hq : q a = true
        · rw [List.find?_cons_of_pos hq] at h
          cases h
          exact ⟨[], chain, rfl, by simp, hp, hq⟩
        · rw [List.find?_cons_of_neg hq] at h
          obtain ⟨passed, rest, rfl, hpassed, hfound⟩ := ih.1 h
          refine ⟨a :: passed, rest, rfl, ?_, hfound⟩
          intro x hx
          rcases List.mem_cons.1 hx with rfl | hx
          · exact ⟨hp, by simpa using hq⟩
          · exact hpassed x hx
      · rw [List.takeWhile_cons_of_neg hp] at h
        cases h
    · rintro ⟨passed, rest, hsplit, hpassed, hp, hq⟩
      cases passed with
      | nil =>
        obtain ⟨rfl, -⟩ := List.cons_eq_cons.1 hsplit
        rw [List.takeWhile_cons_of_pos hp, List.find?_cons_of_pos hq]
      | cons b passed =>
        obtain ⟨rfl, hsplit'⟩ := List.cons_eq_cons.1 hsplit
        obtain ⟨hpa, hqa⟩ := hpassed a List.mem_cons_self
        rw [List.takeWhile_cons_of_pos hpa, List.find?_cons_of_neg (by simp [hqa])]
        exact ih.2 ⟨passed, rest, hsplit',
          fun x hx => hpassed x (List.mem_cons_of_mem _ hx), hp, hq⟩

/-- What the search for the code around a tree finds. -/
theorem codeAround?_eq_some_iff (hacyclic : t.AcyclicEnclosing) :
    t.codeAround? tree = some e ↔ t.CodeAround tree e := by
  constructor
  · intro h
    by_cases hnone : ∀ s ∈ t.lexicalPath tree, ¬s.IsCode
    · rw [codeAround?_eq_none hnone] at h
      cases h
    · -- The first scope of code splits the path.
      have hsome : ((t.lexicalPath tree).find? fun s => decide s.IsCode).isSome := by
        rw [List.find?_isSome]
        push Not at hnone
        simpa using hnone
      obtain ⟨scope, hfind⟩ := Option.isSome_iff_exists.1 hsome
      obtain ⟨hscope, inner, outer, hpath, hinner⟩ := List.find?_eq_some_iff_append.1 hfind
      have hscope : scope.IsCode := by simpa using hscope
      have hinner : ∀ s ∈ inner, ¬s.IsCode := fun s hs => by simpa using hinner s hs
      rw [codeAround?_eq hpath hinner hscope] at h
      by_cases hmethod : scope.kind = .method
      · rw [if_pos hmethod] at h
        exact .method hpath hinner hmethod h
      · rw [if_neg hmethod] at h
        obtain ⟨innermost, hfirst, hsearch⟩ := Option.bind_eq_some_iff.1 h
        obtain ⟨before, s, after, hscopes, helement, hbefore⟩ := List.findSome?_eq_some_iff.1 hfirst
        obtain ⟨passed, rest, hchain, hpassed, hclass, hinitializer⟩ :=
          find?_takeWhile_eq_some.1 hsearch
        have hclimb := hchain ▸ climb_enclosingChain hacyclic innermost
        exact .initializer hpath hinner (hscope.resolve_left hmethod) hscopes hbefore helement
          hclimb (by simpa using hpassed) (by simpa using hclass) hinitializer
  · rintro (⟨hpath, hinner, hkind, helement⟩ |
      ⟨hpath, hinner, hkind, hscopes, hbefore, hinnermost, hclimb, hpassed, hclass, hinitializer⟩)
    · rw [codeAround?_eq hpath hinner (Or.inl hkind), if_pos hkind, helement]
    · have hfirst := List.findSome?_eq_some_iff.2 ⟨_, _, _, hscopes, hinnermost, hbefore⟩
      rw [codeAround?_eq hpath hinner (Or.inr hkind), if_neg (by simp [hkind]), hfirst,
        Option.bind_some, (climb_enclosingChain hacyclic _).unique hclimb,
        find?_takeWhile_eq_some]
      exact ⟨_, _, rfl, by simpa using hpassed, by simpa using hclass, hinitializer⟩

/-! ### Tables with the same elements -/

section Congruence

variable {t' : Tables}

theorem enclosingChain_congr (helements : t.elements = t'.elements) :
    t.enclosingChain = t'.enclosingChain := by
  have henclosing : t.enclosing? = t'.enclosing? := by
    funext e
    rw [enclosing?, enclosing?, element?, element?, helements]
  have hwithin : ∀ length e,
      t.enclosingChainWithin length e = t'.enclosingChainWithin length e := by
    intro length
    induction length with
    | zero => exact fun _ => rfl
    | succ length ih =>
      intro e
      simp only [enclosingChainWithin, henclosing, ih]
  funext e
  rw [enclosingChain, enclosingChain, helements, hwithin]

theorem codeAround?_congr (helements : t.elements = t'.elements)
    (hpaths : t.lexicalPaths = t'.lexicalPaths) : t.codeAround? = t'.codeAround? := by
  have hinitializer : t.isInitializer = t'.isInitializer := by
    funext e
    simp only [isInitializer, elementKind?, element?, helements]
  funext tree
  simp only [codeAround?, lexicalPath, hpaths, enclosingChain_congr helements, hinitializer]

end Congruence

end Tables

end FlowTyping
