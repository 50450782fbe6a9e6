import FlowTyping.Proofs.Loop
import FlowTyping.Proofs.Store.Normalized
import FlowTyping.Proofs.Value.Join
import FlowTyping.Tables.Check
import Mathlib.Logic.Relation
import Mathlib.Tactic.ByContra

/-!
# Subtyping

Between class names, subtyping is what following the supertype table leads to, and a search with a
queue and the names seen so far decides it, also where the table has cycles. On types it is the
closure under the rules of `Conforms`: `null` below and `Object` above every reference type, and
arrays of references compared by their components.
-/

namespace FlowTyping

section Names

variable {pairs : List (String × String)} {known : List String} {name sup : String}

theorem mem_freshSupertypes :
    sup ∈ freshSupertypes pairs known ↔ (∃ sub ∈ known, (sub, sup) ∈ pairs) ∧ sup ∉ known := by
  simp only [freshSupertypes, List.mem_map, List.mem_filter, Bool.and_eq_true, decide_eq_true_iff]
  constructor
  · rintro ⟨⟨sub, _⟩, ⟨hpair, hsub, hsup⟩, rfl⟩
    exact ⟨⟨sub, hsub, hpair⟩, hsup⟩
  · rintro ⟨⟨sub, hsub, hpair⟩, hsup⟩
    exact ⟨(sub, sup), ⟨hpair, hsub, hsup⟩, rfl⟩

/-- Adding supertypes until none is new finds what following the pairs leads to. -/
theorem mem_ancestors : name ∈ ancestors pairs known ↔
    ∃ start ∈ known, Relation.ReflTransGen (fun a b => (a, b) ∈ pairs) start name := by
  fun_induction ancestors pairs known with
  | case1 known hfresh =>
    constructor
    · exact fun h => ⟨name, h, .refl⟩
    · rintro ⟨start, hstart, h⟩
      induction h with
      | refl => exact hstart
      | @tail b c _ hbc ih =>
        by_contra hnew
        have hmem := mem_freshSupertypes.2 ⟨⟨b, ih, hbc⟩, hnew⟩
        rw [hfresh] at hmem
        cases hmem
  | case2 known hfresh ih =>
    rw [ih]
    constructor
    · rintro ⟨start, hstart, h⟩
      rcases List.mem_append.1 hstart with hstart | hstart
      · exact ⟨start, hstart, h⟩
      · obtain ⟨⟨sub, hsub, hpair⟩, -⟩ := mem_freshSupertypes.1 hstart
        exact ⟨sub, hsub, .head hpair h⟩
    · rintro ⟨start, hstart, h⟩
      exact ⟨start, List.mem_append_left _ hstart, h⟩

end Names

namespace Tables

variable {t : Tables} {sub sup name : String} {a b c : Ty}

def Lists (t : Tables) (sub sup : String) : Prop := (sub, sup) ∈ t.supertypes

/-- Following the table leads from the first name to the second. -/
def Inherits (t : Tables) (sub sup : String) : Prop := Relation.ReflTransGen t.Lists sub sup

theorem isDeclaredSubtype_iff : t.isDeclaredSubtype sub sup = true ↔ t.Inherits sub sup := by
  rw [isDeclaredSubtype, decide_eq_true_iff, mem_ancestors]
  simp only [List.mem_singleton, exists_eq_left]
  exact Iff.rfl

section Search

/-- The state of a breadth-first search through supertypes: names taken up, and names waiting. -/
structure SupertypeSearch where
  seen : List String
  queue : List String

/-- The direct supertypes of a name, as often as they are listed. -/
def parents (t : Tables) (name : String) : List String :=
  (t.supertypes.filter (·.1 = name)).map (·.2)

/-- One turn of the search for a supertype: it takes up the name that has waited longest. -/
def searchTurn (t : Tables) (sup : String) (s : SupertypeSearch) : SupertypeSearch ⊕ Bool :=
  match s.queue with
  | [] => .inr false
  | current :: queue =>
    if current = sup then .inr true
    else if current ∈ s.seen then .inl ⟨s.seen, queue⟩
    else .inl ⟨current :: s.seen, queue ++ t.parents current⟩

variable {s s' : SupertypeSearch}

theorem mem_parents : sup ∈ t.parents sub ↔ t.Lists sub sup := by
  simp only [parents, List.mem_map, List.mem_filter, decide_eq_true_iff, Lists]
  constructor
  · rintro ⟨pair, ⟨hpair, rfl⟩, rfl⟩
    exact hpair
  · exact fun h => ⟨_, ⟨h, rfl⟩, rfl⟩

/-- What the search for a supertype preserves as long as it goes on. -/
structure SearchInvariant (t : Tables) (sub sup : String) (s : SupertypeSearch) : Prop where
  start : sub ∈ s.seen ∨ sub ∈ s.queue
  missed : sup ∉ s.seen
  inherits : ∀ name ∈ s.queue, t.Inherits sub name
  closed : ∀ name ∈ s.seen, ∀ above, t.Lists name above → above ∈ s.seen ∨ above ∈ s.queue

/-- What is left to do: the names that wait, and those that names not taken up can still add. -/
def searchMeasure (t : Tables) (s : SupertypeSearch) : Nat :=
  s.queue.length + (t.supertypes.filter (·.1 ∉ s.seen)).length

theorem length_parents_add (t : Tables) {seen : List String} (hname : name ∉ seen) :
    (t.parents name).length + (t.supertypes.filter (·.1 ∉ name :: seen)).length =
      (t.supertypes.filter (·.1 ∉ seen)).length := by
  rw [parents, List.length_map]
  induction t.supertypes with
  | nil => rfl
  | cons pair pairs ih =>
    by_cases hsame : pair.1 = name
    · simp [hsame, hname] at ih ⊢
      omega
    · by_cases hseen : pair.1 ∈ seen
      · simpa [hsame, hseen] using ih
      · simpa [hsame, hseen, ← Nat.add_assoc] using ih

section Turn

variable {seen queue : List String} {current : String}

/-- A name that is taken up again adds nothing. -/
theorem SearchInvariant.again (h : t.SearchInvariant sub sup ⟨seen, current :: queue⟩)
    (hseen : current ∈ seen) : t.SearchInvariant sub sup ⟨seen, queue⟩ := by
  have hkept : ∀ name, name ∈ seen ∨ name ∈ current :: queue → name ∈ seen ∨ name ∈ queue := by
    rintro name (hname | hname)
    · exact .inl hname
    · rcases List.mem_cons.1 hname with rfl | hname
      · exact .inl hseen
      · exact .inr hname
  exact {
    start := hkept sub h.start
    missed := h.missed
    inherits := fun name hname => h.inherits name (List.mem_cons_of_mem _ hname)
    closed := fun name hname above habove => hkept above (h.closed name hname above habove) }

/-- A name that is taken up for the first time adds its direct supertypes. -/
theorem SearchInvariant.takeUp (h : t.SearchInvariant sub sup ⟨seen, current :: queue⟩)
    (hne : current ≠ sup) :
    t.SearchInvariant sub sup ⟨current :: seen, queue ++ t.parents current⟩ := by
  have hkept : ∀ name, name ∈ seen ∨ name ∈ current :: queue →
      name ∈ current :: seen ∨ name ∈ queue ++ t.parents current := by
    rintro name (hname | hname)
    · exact .inl (List.mem_cons_of_mem _ hname)
    · rcases List.mem_cons.1 hname with rfl | hname
      · exact .inl List.mem_cons_self
      · exact .inr (List.mem_append_left _ hname)
  refine ⟨hkept sub h.start, ?_, ?_, ?_⟩
  · intro hsup
    rcases List.mem_cons.1 hsup with rfl | hsup
    · exact hne rfl
    · exact h.missed hsup
  · intro name hname
    rcases List.mem_append.1 hname with hname | hname
    · exact h.inherits name (List.mem_cons_of_mem _ hname)
    · exact (h.inherits current List.mem_cons_self).tail (mem_parents.1 hname)
  · intro name hname above habove
    rcases List.mem_cons.1 hname with rfl | hname
    · exact .inr (List.mem_append_right _ (mem_parents.2 habove))
    · exact hkept above (h.closed name hname above habove)

end Turn

theorem SearchInvariant.turn (h : t.SearchInvariant sub sup s)
    (hturn : t.searchTurn sup s = .inl s') :
    t.SearchInvariant sub sup s' ∧ t.searchMeasure s' < t.searchMeasure s := by
  obtain ⟨seen, queue⟩ := s
  cases queue with
  | nil => cases hturn
  | cons current queue =>
    by_cases hfound : current = sup
    · simp [searchTurn, hfound] at hturn
    by_cases hseen : current ∈ seen
    · obtain rfl : ⟨seen, queue⟩ = s' := by simpa [searchTurn, hfound, hseen] using hturn
      exact ⟨h.again hseen, by simp [searchMeasure]⟩
    · obtain rfl : ⟨current :: seen, queue ++ t.parents current⟩ = s' := by
        simpa [searchTurn, hfound, hseen] using hturn
      refine ⟨h.takeUp hfound, ?_⟩
      have hpairs := t.length_parents_add hseen
      simp only [searchMeasure, List.length_append, List.length_cons]
      omega

/-- A search that stops answers whether the name is among the supertypes. -/
theorem SearchInvariant.result {found : Bool} (h : t.SearchInvariant sub sup s)
    (hturn : t.searchTurn sup s = .inr found) : found = true ↔ t.Inherits sub sup := by
  obtain ⟨seen, queue⟩ := s
  cases queue with
  | nil =>
    obtain rfl : false = found := by simpa [searchTurn] using hturn
    have hall : ∀ name, t.Inherits sub name → name ∈ seen := by
      intro name hname
      induction hname with
      | refl => simpa using h.start
      | tail _ hstep ih => simpa using h.closed _ ih _ hstep
    simpa using fun hsup => h.missed (hall sup hsup)
  | cons current queue =>
    by_cases hfound : current = sup
    · obtain rfl : true = found := by simpa [searchTurn, hfound] using hturn
      simpa [hfound] using h.inherits current List.mem_cons_self
    · rw [searchTurn] at hturn
      by_cases hseen : current ∈ seen <;> simp [hfound, hseen] at hturn

/-- The search with a queue ends, also where the table has cycles, and answers what
`isDeclaredSubtype` says. -/
theorem ends_search (t : Tables) (sub sup : String) :
    Ends (t.searchTurn sup) ⟨[], [sub]⟩ (t.isDeclaredSubtype sub sup) := by
  have hstart : t.SearchInvariant sub sup ⟨[], [sub]⟩ :=
    ⟨.inr List.mem_cons_self, List.not_mem_nil,
      fun name hname => List.mem_singleton.1 hname ▸ .refl,
      fun _ hname => absurd hname List.not_mem_nil⟩
  obtain ⟨last, found, hlast, hstop, hends⟩ :=
    exists_ends (t.SearchInvariant sub sup) t.searchMeasure (fun _ _ h hturn => h.turn hturn) hstart
  have hsame : t.isDeclaredSubtype sub sup = found := by
    rw [Bool.eq_iff_iff, isDeclaredSubtype_iff, hlast.result hstop]
  exact hsame ▸ hends

end Search

/-- Subtyping of types, given by the table for class names. -/
inductive Conforms (t : Tables) : Ty → Ty → Prop where
  | refl (a : Ty) : Conforms t a a
  | null {b : Ty} (hb : b.isReference = true) : Conforms t .null b
  | object {a : Ty} (ha : a.isReference = true) : Conforms t a .object
  | declared {sub sup : String} (h : t.Inherits sub sup) :
      Conforms t (.declared sub) (.declared sup)
  | array {a b : Ty} (ha : a.isReference = true) (hb : b.isReference = true)
      (h : Conforms t a b) : Conforms t (.array a) (.array b)

theorem isSubtypeTy_iff : t.isSubtypeTy a b = true ↔ t.Conforms a b := by
  constructor
  · intro h
    fun_induction isSubtypeTy t a b with
    | case1 a b ih =>
      rcases Bool.or_eq_true_iff.1 h with hsame | h
      · exact of_decide_eq_true hsame ▸ .refl a
      split at h
      · exact .null h
      · simp only [Bool.and_eq_true] at h
        exact .array h.1.1 h.1.2 (ih h.2)
      · split at h
        · next hobject => exact hobject ▸ .object h
        · split at h
          · exact .declared (isDeclaredSubtype_iff.1 h)
          · cases h
      · cases h
  · intro h
    induction h with
    | refl a =>
      rw [isSubtypeTy.eq_def]
      simp
    | null hb =>
      rw [isSubtypeTy.eq_def]
      simp [hb]
    | @object a ha =>
      rw [isSubtypeTy.eq_def]
      cases a <;> simp_all [Ty.object, Ty.isReference]
    | declared h =>
      rw [isSubtypeTy.eq_def]
      simp [Ty.isReference, isDeclaredSubtype_iff.2 h]
    | array ha hb _ ih =>
      rw [isSubtypeTy.eq_def]
      simp [ha, hb, ih]

/-- A class other than `Object` is conformed to by the classes below it. -/
theorem conforms_declared_iff (hsup : .declared sup ≠ Ty.object) :
    t.Conforms (.declared sub) (.declared sup) ↔ t.Inherits sub sup := by
  refine ⟨fun h => ?_, .declared⟩
  cases h with
  | refl => exact .refl
  | object => exact absurd rfl hsup
  | declared h => exact h

namespace Conforms

theorem isReference_eq (h : t.Conforms a b) : a.isReference = b.isReference := by
  cases h with
  | refl => rfl
  | null hb => exact hb.symm
  | object ha => exact ha
  | declared _ => rfl
  | array _ _ _ => rfl

theorem eq_object (hroot : ∀ sup, ¬t.Lists "java.lang.Object" sup) (h : t.Conforms .object c) :
    c = .object := by
  generalize htop : Ty.object = top at h
  cases h with
  | refl => rfl
  | null => cases htop
  | object => exact htop
  | declared hsup =>
    cases htop
    obtain rfl | ⟨above, hstep, -⟩ := hsup.cases_head
    · rfl
    · exact absurd hstep (hroot above)
  | array => cases htop

theorem trans (hroot : ∀ sup, ¬t.Lists "java.lang.Object" sup) (hab : t.Conforms a b)
    (hbc : t.Conforms b c) : t.Conforms a c := by
  have hrefs : a.isReference = c.isReference := hab.isReference_eq.trans hbc.isReference_eq
  -- The step below is the one that decides, and arrays go on with their components.
  induction hab generalizing c with
  | refl a => exact hbc
  | null _ => exact .null (hrefs ▸ rfl)
  | object ha => exact hbc.eq_object hroot ▸ .object ha
  | declared hab =>
    cases hbc with
    | refl => exact .declared hab
    | object _ => exact .object rfl
    | declared hbc => exact .declared (hab.trans hbc)
  | array ha hb hab ih =>
    cases hbc with
    | refl => exact .array ha hb hab
    | object _ => exact .object rfl
    | array _ hc hbc => exact .array ha hc (ih hbc (ha.trans hc.symm))

/-- A reference type conforms to its join with another one. -/
theorem lub_left (ha : a.isReference = true) (hb : b.isReference = true) :
    t.Conforms a (a.lub b) := by
  by_cases hsame : a = b
  · subst hsame
    rw [Ty.lub_self]
    exact .refl a
  rw [Ty.lub, if_neg hsame]
  cases a with
  | null => exact .null (by simp [Ty.joinDistinct, hb])
  | primitive kind => cases ha
  | void => cases ha
  | declared name =>
    cases b with
    | null => exact .refl _
    | _ => exact .object ha
  | array component =>
    cases b with
    | null => exact .refl _
    | _ => exact .object ha

end Conforms

section Values

variable {u v w : Value}

theorem exists_qualifier_le {q : Qualifier} (hq : v.has q = true) :
    ∃ p, v.qualifier? q.hierarchy = some p ∧ p.isSubtype q = true := by
  obtain ⟨p, hp⟩ := Option.isSome_iff_exists.1 (QualifierSet.isSome_strongest? hq)
  have hsame : p.hierarchy = q.hierarchy := QualifierSet.hierarchy_of_strongest? hp
  exact ⟨p, hp, (QualifierSet.strongest?_eq_some.1 (hsame ▸ hp)).2 q hq hsame.symm⟩

theorem isSubtype_iff : t.isSubtype v w = true ↔ t.isSubtypeTy v.ty w.ty = true ∧
    ∀ q, w.has q = true → ∃ p, v.qualifier? q.hierarchy = some p ∧ p.isSubtype q = true := by
  rw [isSubtype, Bool.and_eq_true, List.all_eq_true]
  refine and_congr_right fun _ => forall_congr' fun q => ?_
  rw [QualifierSet.mem_toList]
  refine imp_congr_right fun _ => ?_
  cases v.qualifier? q.hierarchy <;> simp

theorem isSubtype_refl (t : Tables) (v : Value) : t.isSubtype v v = true :=
  isSubtype_iff.2 ⟨isSubtypeTy_iff.2 (.refl v.ty), fun _ hq => exists_qualifier_le hq⟩

theorem isSubtype_trans (hroot : ∀ sup, ¬t.Lists "java.lang.Object" sup)
    (huv : t.isSubtype u v = true) (hvw : t.isSubtype v w = true) : t.isSubtype u w = true := by
  obtain ⟨htyv, hv⟩ := isSubtype_iff.1 huv
  obtain ⟨htyw, hw⟩ := isSubtype_iff.1 hvw
  refine isSubtype_iff.2 ⟨isSubtypeTy_iff.2
    ((isSubtypeTy_iff.1 htyv).trans hroot (isSubtypeTy_iff.1 htyw)), fun q hq => ?_⟩
  obtain ⟨p, hp, hpq⟩ := hw q hq
  obtain ⟨o, ho, hop⟩ := hv p (QualifierSet.contains_of_strongest? hp)
  rw [QualifierSet.hierarchy_of_strongest? hp] at ho
  exact ⟨o, ho, Qualifier.isSubtype_trans hop hpq⟩

end Values

/-- In a table that lists nothing above `Object`, also one with cycles and repeated pairs, the
search for a supertype ends and finds what following the table leads to. Subtyping of types and of
values is a preorder, with `null` below and `Object` above every reference type, and the join of two
reference types is above both. -/
theorem subtyping_closure (hroot : ∀ sup, ¬t.Lists "java.lang.Object" sup) :
    (∀ sub sup, Ends (t.searchTurn sup) ⟨[], [sub]⟩ (t.isDeclaredSubtype sub sup) ∧
      (t.isDeclaredSubtype sub sup = true ↔ t.Inherits sub sup) ∧
      (.declared sup ≠ Ty.object →
        (t.isSubtypeTy (.declared sub) (.declared sup) = true ↔ t.Inherits sub sup))) ∧
    (∀ a, t.isSubtypeTy a a = true) ∧
    (∀ a b c, t.isSubtypeTy a b = true → t.isSubtypeTy b c = true → t.isSubtypeTy a c = true) ∧
    (∀ a, a.isReference = true →
      t.isSubtypeTy a .object = true ∧ t.isSubtypeTy .null a = true) ∧
    (∀ a b, a.isReference = true → b.isReference = true →
      t.isSubtypeTy a (a.lub b) = true ∧ t.isSubtypeTy b (a.lub b) = true) ∧
    (∀ v, t.isSubtype v v = true) ∧
    ∀ u v w, t.isSubtype u v = true → t.isSubtype v w = true → t.isSubtype u w = true := by
  refine ⟨fun sub sup => ⟨t.ends_search sub sup, isDeclaredSubtype_iff, fun hsup => ?_⟩,
    fun a => isSubtypeTy_iff.2 (.refl a), fun a b c hab hbc => ?_, fun a ha => ?_,
    fun a b ha hb => ?_, t.isSubtype_refl, fun _ _ _ => isSubtype_trans hroot⟩
  · rw [isSubtypeTy_iff, conforms_declared_iff hsup]
  · exact isSubtypeTy_iff.2 ((isSubtypeTy_iff.1 hab).trans hroot (isSubtypeTy_iff.1 hbc))
  · exact ⟨isSubtypeTy_iff.2 (.object ha), isSubtypeTy_iff.2 (.null ha)⟩
  · exact ⟨isSubtypeTy_iff.2 (.lub_left ha hb),
      isSubtypeTy_iff.2 (Ty.lub_comm b a ▸ .lub_left hb ha)⟩

end Tables

namespace CyclicHierarchy

/-- Two classes that are listed above each other, one of them twice, and a third one above both. -/
def table : Tables :=
  { Tables.empty with
    supertypes := [("Left", "Right"), ("Right", "Left"), ("Left", "Right"), ("Right", "Top"),
      ("Top", "java.lang.Object")] }

theorem top_above_left :
    table.check = .ok () ∧
      table.isSubtypeTy (.declared "Left") (.declared "Top") = true ∧
      table.isSubtypeTy (.declared "Right") (.declared "Left") = true ∧
      table.isSubtypeTy (.declared "Top") (.declared "Left") = false := by
  have hroot : ∀ sup, ¬table.Lists "java.lang.Object" sup := by
    simp [Tables.Lists, table, Tables.empty]
  obtain ⟨hnames, -⟩ := Tables.subtyping_closure hroot
  have hleft : table.Lists "Left" "Right" := by simp [Tables.Lists, table]
  have hright : table.Lists "Right" "Left" := by simp [Tables.Lists, table]
  have htop : table.Lists "Right" "Top" := by simp [Tables.Lists, table]
  refine ⟨rfl, ?_, ?_, ?_⟩
  · exact ((hnames "Left" "Top").2.2 (by decide)).2 (.tail (.single hleft) htop)
  · exact ((hnames "Right" "Left").2.2 (by decide)).2 (.single hright)
  · rw [← Bool.not_eq_true, (hnames "Top" "Left").2.2 (by decide)]
    intro h
    obtain hsame | ⟨above, habove, hrest⟩ := h.cases_head
    · simp at hsame
    · obtain rfl : above = "java.lang.Object" := by simpa [Tables.Lists, table] using habove
      obtain hsame | ⟨next, hnext, -⟩ := hrest.cases_head
      · simp at hsame
      · exact hroot next hnext

end CyclicHierarchy

end FlowTyping
