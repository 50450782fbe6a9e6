import FlowTyping.Proofs.Contract.FieldChain
import FlowTyping.Proofs.Contract.Meet
import FlowTyping.Proofs.EntryStore.FieldFacts
import FlowTyping.Proofs.EntryStore.LambdaStore

/-!
# Captured locals in entry stores

Each row of the table of final locals adds one fact to the entry stores of the code that its
declaring element encloses, and changes nothing else: neither other entry stores nor what is known
of other receivers. `Tables.Captures` says which rows a piece of code captures. The step from one
row to the next is `Setting.value?_builtStore_concat`; what all rows leave behind follows by
induction over the table.
-/

namespace FlowTyping

namespace Tables

/-- The element from which going outwards reaches what a piece of code captures. -/
def CapturePoint (t : Tables) : Code → ElementId → Prop
  | .method m _ _, e => e = m.id
  | .lambda tree, e => t.CodeAround tree e
  | .fragment _, _ => False

/-- A row of the table of final locals is about a local that a piece of code captures. -/
def Captures (t : Tables) (code : Code) (row : FinalLocal) : Prop :=
  row.qualifiers ≠ [] ∧
    ∃ owner e, row.declaration.declaredIn = some owner ∧ t.CapturePoint code e ∧ t.Encloses owner e

/-- The search for the element from which captured locals are looked up. -/
def capturePoint? (t : Tables) : Code → Option ElementId
  | .method m _ _ => some m.id
  | .lambda tree => t.codeAround? tree
  | .fragment _ => none

variable {t : Tables} {code : Code} {row : FinalLocal} {e : ElementId}

theorem capturePoint?_eq_some_iff (hacyclic : t.AcyclicEnclosing) :
    t.capturePoint? code = some e ↔ t.CapturePoint code e := by
  cases code with
  | method m tree cls => exact ⟨fun h => (Option.some.inj h).symm, fun h => congrArg some h.symm⟩
  | lambda tree => exact codeAround?_eq_some_iff hacyclic
  | fragment tree => exact ⟨nofun, nofun⟩

theorem captures_iff (hacyclic : t.AcyclicEnclosing) :
    t.Captures code row ↔ row.qualifiers ≠ [] ∧ ∃ e, t.capturePoint? code = some e ∧
      row.declaration.declaredIn.any (· ∈ t.enclosingChain e) = true := by
  simp only [Captures, capturePoint?_eq_some_iff hacyclic, Option.any_eq_true,
    decide_eq_true_eq, mem_enclosingChain_iff hacyclic]
  constructor
  · rintro ⟨hqualifiers, owner, e, howner, hpoint, houter⟩
    exact ⟨hqualifiers, e, hpoint, owner, howner, houter⟩
  · rintro ⟨hqualifiers, e, hpoint, owner, howner, houter⟩
    exact ⟨hqualifiers, owner, e, howner, hpoint, houter⟩

end Tables

theorem Store.insertFacts_concat (s : Store) (facts : List (Receiver × Value))
    (fact : Receiver × Value) :
    s.insertFacts (facts ++ [fact]) = (s.insertFacts facts).insert fact.1 fact.2 :=
  List.foldl_append

namespace Setting

variable {st : Setting} {code : Code} {rows : List FinalLocal} {row : FinalLocal}

def withFinalLocals (st : Setting) (rows : List FinalLocal) : Setting :=
  { st with tables := { st.tables with finalLocals := rows } }

def captures (st : Setting) (code : Code) : List (Receiver × Value) :=
  (st.tables.capturePoint? code).elim [] st.capturedFacts

def beforeCaptures (st : Setting) (fixed : Option Store) (parameters : List Variable) :
    Code → Store
  | .method m _ cls =>
    refineAll ((st.assumedStore fixed m parameters).insertFacts (st.initialFacts cls m))
      (st.declaredFacts cls m)
  | .lambda _ => st.addParameters parameters (st.fixedOrEmpty fixed).withoutTransient
  | .fragment _ => st.fixedOrEmpty fixed

/-- What is left of a fact after the captured locals are added. -/
def keptAtEntry (st : Setting) : Code → Receiver → Value → Option Value
  | .lambda _ => st.weakened
  | _ => fun _ v => some v

def afterCaptures (st : Setting) (code : Code) (s : Store) : Store :=
  match code with
  | .lambda _ => s.mapFields fun f known =>
      (st.tables.valueOfField f).map fun declared => declared.lub known
  | _ => s

/-- The entry store of a piece of code, if it has what it needs. -/
def builtStore (st : Setting) (fixed : Option Store) (parameters : List Variable) (code : Code) :
    Store :=
  st.afterCaptures code
    ((st.beforeCaptures fixed parameters code).insertFacts (st.captures code))

/-- Only a lambda without a store around it has no entry store. -/
theorem entryStore_eq (fixed : Option Store) (code : Code) (parameters : List Variable) :
    (∃ tree, code = .lambda tree ∧ fixed = none ∧
      st.entryStore fixed code parameters = .error (.missingFixedStore tree)) ∨
    ((∀ tree, code = .lambda tree → fixed ≠ none) ∧
      ∃ log, st.entryStore fixed code parameters =
        .ok (st.builtStore fixed parameters code, log)) := by
  cases code with
  | method m tree cls =>
    refine Or.inr ⟨nofun, st.observe (some tree) m.id (st.overriddenObservations m), ?_⟩
    rw [entryStore, methodStore_eq]
    rfl
  | lambda tree =>
    cases fixed with
    | none => exact Or.inl ⟨tree, rfl, rfl, rfl⟩
    | some enclosing =>
      refine Or.inr ⟨nofun, .empty, ?_⟩
      rw [entryStore, lambdaStore_eq]
      rfl
  | fragment tree => exact Or.inr ⟨nofun, _, rfl⟩

theorem value?_builtStore (fixed : Option Store) (parameters : List Variable) (code : Code)
    (r : Receiver) :
    (st.builtStore fixed parameters code).value? r =
      (((st.beforeCaptures fixed parameters code).insertFacts (st.captures code)).value? r).bind
        (st.keptAtEntry code r) := by
  cases code with
  | lambda tree =>
    rw [builtStore, afterCaptures, Store.mapFields]
    cases r with
    | field base f => exact Store.value?_mapFacts _ _ _
    | _ =>
      exact (Store.value?_mapFacts_of_kept (fun _ => rfl) _).trans (Option.bind_fun_some _).symm
  | _ => exact (Option.bind_fun_some _).symm

/-! ### One row -/

theorem finalLocalValues_concat (rows : List FinalLocal) (row : FinalLocal) :
    (st.withFinalLocals (rows ++ [row])).tables.finalLocalValues =
      (st.withFinalLocals rows).tables.finalLocalValues ++
        if row.qualifiers = [] then []
        else [(row.declaration, .of row.declaration.ty row.qualifiers)] := by
  rw [Tables.finalLocalValues, withFinalLocals, List.filterMap_append]
  by_cases hqualifiers : row.qualifiers = [] <;>
    simp [Tables.finalLocalValues, withFinalLocals, Value.of?, hqualifiers]

theorem capturedFacts_concat (rows : List FinalLocal) (row : FinalLocal) (e : ElementId) :
    (st.withFinalLocals (rows ++ [row])).capturedFacts e =
      (st.withFinalLocals rows).capturedFacts e ++
        if row.qualifiers ≠ [] ∧
            row.declaration.declaredIn.any (· ∈ st.tables.enclosingChain e) = true then
          [(.localVariable row.declaration, .of row.declaration.ty row.qualifiers)]
        else [] := by
  have hchain : ∀ rows', (st.withFinalLocals rows').tables.enclosingChain =
      st.tables.enclosingChain := fun _ => Tables.enclosingChain_congr rfl
  simp only [capturedFacts, finalLocalValues_concat, List.filter_append, List.map_append, hchain]
  congr 1
  by_cases hqualifiers : row.qualifiers = []
  · simp [hqualifiers]
  · by_cases hseen : row.declaration.declaredIn.any (· ∈ st.tables.enclosingChain e) = true <;>
      simp [hqualifiers, hseen]

theorem captures_concat (hacyclic : st.tables.AcyclicEnclosing) (code : Code)
    (rows : List FinalLocal) (row : FinalLocal) :
    (st.tables.Captures code row → (st.withFinalLocals (rows ++ [row])).captures code =
      (st.withFinalLocals rows).captures code ++
        [(.localVariable row.declaration, .of row.declaration.ty row.qualifiers)]) ∧
    (¬st.tables.Captures code row → (st.withFinalLocals (rows ++ [row])).captures code =
      (st.withFinalLocals rows).captures code) := by
  have hpoint : ∀ rows', (st.withFinalLocals rows').tables.capturePoint? code =
      st.tables.capturePoint? code := by
    intro rows'
    have hcode : (st.withFinalLocals rows').tables.codeAround? = st.tables.codeAround? :=
      Tables.codeAround?_congr rfl rfl
    cases code with
    | lambda tree => exact congrFun hcode tree
    | _ => rfl
  simp only [captures, hpoint, Tables.captures_iff hacyclic]
  cases hfound : st.tables.capturePoint? code with
  | none => simp
  | some e => simp only [Option.elim_some, capturedFacts_concat]; simp

/-- One more row changes what is known of its local if the code captures it, and nothing else. -/
theorem builtStore_concat (hacyclic : st.tables.AcyclicEnclosing) (fixed : Option Store)
    (parameters : List Variable) (code : Code) (rows : List FinalLocal) (row : FinalLocal) :
    (st.tables.Captures code row → ∀ r,
      ((st.withFinalLocals (rows ++ [row])).builtStore fixed parameters code).value? r =
        if r = .localVariable row.declaration then
          some (.of row.declaration.ty row.qualifiers)
        else ((st.withFinalLocals rows).builtStore fixed parameters code).value? r) ∧
    (¬st.tables.Captures code row →
      (st.withFinalLocals (rows ++ [row])).builtStore fixed parameters code =
        (st.withFinalLocals rows).builtStore fixed parameters code) := by
  have hbefore : ∀ rows', (st.withFinalLocals rows').beforeCaptures fixed parameters code =
      st.beforeCaptures fixed parameters code := by
    intro rows'
    cases code <;> rfl
  have hkept : ∀ rows', (st.withFinalLocals rows').keptAtEntry code = st.keptAtEntry code := by
    intro rows'
    cases code <;> rfl
  obtain ⟨hcaptured, hignored⟩ := captures_concat hacyclic code rows row
  constructor
  · intro hrow r
    rw [value?_builtStore, value?_builtStore, hbefore, hbefore, hkept, hkept, hcaptured hrow,
      Store.insertFacts_concat, Store.value?_insert]
    have htracks : ((st.beforeCaptures fixed parameters code).insertFacts
        ((st.withFinalLocals rows).captures code)).tracks (.localVariable row.declaration) = true :=
      rfl
    have hslot : Store.SameSlot r (.localVariable row.declaration) ↔
        r = .localVariable row.declaration := by
      cases r <;> simp [Store.SameSlot]
    by_cases hr : r = .localVariable row.declaration
    · rw [if_pos ⟨hslot.2 hr, htracks⟩, if_pos hr, hr]
      cases code <;> rfl
    · rw [if_neg fun hboth => hr (hslot.1 hboth.1), if_neg hr]
  · intro hrow
    have hafter : ∀ rows',
        (st.withFinalLocals rows').afterCaptures code = st.afterCaptures code := by
      intro rows'
      cases code <;> rfl
    rw [builtStore, builtStore, hignored hrow, hbefore, hbefore, hafter, hafter]

/-- What an entry store knows of a local comes from the last row about it that the code captures,
and else from elsewhere. -/
theorem value?_builtStore_local (hacyclic : st.tables.AcyclicEnclosing) (fixed : Option Store)
    (parameters : List Variable) (code : Code) (rows : List FinalLocal) (x : Variable) :
    (∃ before row after, rows = before ++ row :: after ∧ row.declaration = x ∧
      st.tables.Captures code row ∧
      (∀ row' ∈ after, row'.declaration = x → ¬st.tables.Captures code row') ∧
      ((st.withFinalLocals rows).builtStore fixed parameters code).value? (.localVariable x) =
        some (.of x.ty row.qualifiers)) ∨
    ((∀ row ∈ rows, row.declaration = x → ¬st.tables.Captures code row) ∧
      ((st.withFinalLocals rows).builtStore fixed parameters code).value? (.localVariable x) =
        ((st.withFinalLocals []).builtStore fixed parameters code).value?
          (.localVariable x)) := by
  induction rows using List.reverseRecOn with
  | nil => exact Or.inr ⟨nofun, rfl⟩
  | append_singleton rows row ih =>
    obtain ⟨hcaptured, hignored⟩ := builtStore_concat hacyclic fixed parameters code rows row
    by_cases hrow : st.tables.Captures code row ∧ row.declaration = x
    · obtain ⟨hrow, rfl⟩ := hrow
      exact Or.inl ⟨rows, row, [], rfl, rfl, hrow, nofun, (hcaptured hrow _).trans (if_pos rfl)⟩
    · -- The new row says nothing about the local, so the rows before it decide.
      have hsame : ((st.withFinalLocals (rows ++ [row])).builtStore fixed parameters code).value?
          (.localVariable x) =
            ((st.withFinalLocals rows).builtStore fixed parameters code).value?
              (.localVariable x) := by
        by_cases hcode : st.tables.Captures code row
        · exact (hcaptured hcode _).trans
            (if_neg fun he => hrow ⟨hcode, (Receiver.localVariable.inj he).symm⟩)
        · rw [hignored hcode]
      have hlast : row.declaration = x → ¬st.tables.Captures code row :=
        fun hx hcode => hrow ⟨hcode, hx⟩
      rw [hsame]
      rcases ih with ⟨before, row', after, rfl, hx, hcode, hafter, hvalue⟩ | ⟨hnone, hvalue⟩
      · refine Or.inl ⟨before, row', after ++ [row], by simp, hx, hcode, ?_, hvalue⟩
        intro row'' hmem
        rcases List.mem_append.1 hmem with hmem | hmem
        · exact hafter row'' hmem
        · exact List.mem_singleton.1 hmem ▸ hlast
      · refine Or.inr ⟨?_, hvalue⟩
        intro row'' hmem
        rcases List.mem_append.1 hmem with hmem | hmem
        · exact hnone row'' hmem
        · exact List.mem_singleton.1 hmem ▸ hlast

/-- Preconditions are about parameters, `this` and fields, so without captured locals a method
knows of no other local. -/
theorem value?_builtStore_method_nil {fields : List Field} {parameters : List Variable}
    {x : Variable} (hreader : st.reader = pathReader fields) (hx : x ∉ parameters) (m : Method)
    (tree : TreeId) (cls : ClassInfo) :
    ((st.withFinalLocals []).builtStore none parameters (.method m tree cls)).value?
      (.localVariable x) = none := by
  have hcontract : ∀ fact ∈ st.contractFacts (.ofDeclaration m parameters)
      (st.contractsAt m .precondition), ¬Store.SameSlot (.localVariable x) fact.1 := by
    intro fact hfact hslot
    obtain ⟨c, -, r, hr, rfl⟩ := mem_contractFacts.1 hfact
    obtain rfl : r = .localVariable x := Store.sameSlot_local.1 hslot
    rw [hreader] at hr
    rcases pathReader_cases hr with hthis | hargument | ⟨base, f, hfield⟩
    · simp only [ExpressionContext.ofDeclaration] at hthis
      split at hthis <;> cases hthis
    · obtain ⟨y, hy, heq⟩ := List.mem_map.1 hargument
      cases heq
      exact hx hy
    · cases hfield
  have hassumed : (st.assumedStore none m parameters).value? (.localVariable x) = none := by
    rw [assumedStore, assumePreconditions, Store.value?_refineAll_of_ne hcontract,
      value?_addParameters_local, if_neg hx]
    exact Store.value?_empty _ _
  have hfields : ∀ fact ∈ st.fieldFacts cls m, ¬Store.SameSlot (.localVariable x) fact.1 := by
    intro fact hfact hslot
    obtain ⟨f, hf⟩ := exists_of_mem_fieldFacts hfact
    rw [hf] at hslot
    cases hslot
  have hinitial : Store.lastValue? (st.initialFacts cls m) (.localVariable x) = none :=
    Store.lastValue?_eq_none.2 fun fact hfact => hfields fact (List.mem_append_left _ hfact)
  have hbefore : (st.beforeCaptures none parameters (.method m tree cls)).value?
      (.localVariable x) = none := by
    rw [beforeCaptures, Store.value?_refineAll_of_ne fun fact hfact =>
      hfields fact (List.mem_append_right _ hfact), Store.value?_insertFacts, hinitial, hassumed]
    exact ite_self _
  exact hbefore

/-- Building an entry store ends, and a row of the table of final locals adds a fact about its local
exactly if it has qualifiers and its declaring element is reached by going outwards from the element
of the code. So no method sees the locals of one that does not enclose it. -/
theorem entryStore_finalLocals (hacyclic : st.tables.AcyclicEnclosing) (fixed : Option Store)
    (code : Code) (parameters : List Variable) :
    (∀ e, ∃ chain, st.tables.Climb e chain) ∧
    ((∃ tree, code = .lambda tree ∧ fixed = none ∧
        st.entryStore fixed code parameters = .error (.missingFixedStore tree)) ∨
      ∃ entry : List FinalLocal → Store,
        (∀ rows, ∃ log, (st.withFinalLocals rows).entryStore fixed code parameters =
          .ok (entry rows, log)) ∧
        (∃ log, st.entryStore fixed code parameters = .ok (entry st.tables.finalLocals, log)) ∧
        (∀ rows row,
          (st.tables.Captures code row → ∀ r, (entry (rows ++ [row])).value? r =
            if r = .localVariable row.declaration then
              some (.of row.declaration.ty row.qualifiers)
            else (entry rows).value? r) ∧
          (¬st.tables.Captures code row → entry (rows ++ [row]) = entry rows)) ∧
        (∀ rows x,
          (∃ before row after, rows = before ++ row :: after ∧ row.declaration = x ∧
            st.tables.Captures code row ∧
            (∀ row' ∈ after, row'.declaration = x → ¬st.tables.Captures code row') ∧
            (entry rows).value? (.localVariable x) = some (.of x.ty row.qualifiers)) ∨
          ((∀ row ∈ rows, row.declaration = x → ¬st.tables.Captures code row) ∧
            (entry rows).value? (.localVariable x) = (entry []).value? (.localVariable x))) ∧
        ∀ m tree cls owner x, code = .method m tree cls → ¬st.tables.Encloses owner m.id →
          x.declaredIn = some owner →
          (∀ rows, (entry rows).value? (.localVariable x) =
            (entry []).value? (.localVariable x)) ∧
          ∀ fields, st.reader = pathReader fields → fixed = none → x ∉ parameters →
            (entry []).value? (.localVariable x) = none) := by
  refine ⟨fun e => ⟨_, Tables.climb_enclosingChain hacyclic e⟩, ?_⟩
  rcases st.entryStore_eq fixed code parameters with hmissing | ⟨hfixed, hentry⟩
  · exact Or.inl hmissing
  refine Or.inr ⟨fun rows => (st.withFinalLocals rows).builtStore fixed parameters code,
    fun rows => ?_, hentry,
    fun rows row => builtStore_concat hacyclic fixed parameters code rows row,
    fun rows x => value?_builtStore_local hacyclic fixed parameters code rows x, ?_⟩
  · rcases (st.withFinalLocals rows).entryStore_eq fixed code parameters with
      ⟨tree, htree, hnone, -⟩ | ⟨-, hentry'⟩
    · exact absurd hnone (hfixed tree htree)
    · exact hentry'
  · rintro m tree cls owner x rfl houter howner
    refine ⟨fun rows => ?_, ?_⟩
    · rcases value?_builtStore_local hacyclic fixed parameters (.method m tree cls) rows x with
        ⟨_, row, _, -, rfl, ⟨-, owner', e, howner', he, houter'⟩, -⟩ | ⟨-, hsame⟩
      · rw [howner] at howner'
        cases howner'
        exact absurd (he ▸ houter') houter
      · exact hsame
    · rintro fields hreader rfl hx
      exact value?_builtStore_method_nil hreader hx m tree cls

end Setting

namespace SiblingMethods

private def box : Ty := .declared "Box"

private def leaf : Ty := .declared "Leaf"

private def nonNull : Value := .of leaf [.nonNull]

private def first : Method := ⟨⟨10⟩, "first", box, .void, false, false⟩

private def boxClass : ClassInfo := ⟨⟨1000⟩, box, []⟩

private def own : Variable := ⟨⟨50⟩, "own", .localVariable, leaf, some ⟨10⟩⟩

private def other : Variable := ⟨⟨51⟩, "other", .localVariable, leaf, some ⟨12⟩⟩

/-- `own` is declared in `first`, `other` in the next method of the same class. -/
private def setting : Setting :=
  .ofTables { Tables.empty with
    finalLocals := [⟨own, [.nonNull]⟩, ⟨other, [.nonNull]⟩]
    elements := [⟨⟨10⟩, .method, some ⟨1000⟩⟩, ⟨⟨12⟩, .method, some ⟨1000⟩⟩,
      ⟨⟨1000⟩, .classType, none⟩] } .empty .default

/-- A method sees its own local and not that of its sibling. -/
theorem first_ignores_other :
    setting.tables.AcyclicEnclosing ∧ ¬setting.tables.Encloses ⟨12⟩ ⟨10⟩ ∧
    ∃ s log, setting.entryStore none (.method first ⟨0⟩ boxClass) [] = .ok (s, log) ∧
      s.value? (.localVariable own) = some nonNull ∧ s.value? (.localVariable other) = none := by
  have hacyclic : setting.tables.AcyclicEnclosing :=
    Tables.acyclicEnclosing_of_lt (·.val.toNat) (by decide)
  have hclimb : setting.tables.Climb ⟨10⟩ [⟨10⟩, ⟨1000⟩] := .step rfl (.top rfl)
  have houter : ¬setting.tables.Encloses ⟨12⟩ ⟨10⟩ :=
    fun h => absurd (hclimb.mem_iff.2 h) (by decide)
  obtain ⟨-, ⟨tree, hcode, -⟩ | ⟨entry, -, ⟨log, hs⟩, -, -, hsiblings⟩⟩ :=
    Setting.entryStore_finalLocals hacyclic none (.method first ⟨0⟩ boxClass) []
  · cases hcode
  · obtain ⟨hsame, hnone⟩ := hsiblings first ⟨0⟩ boxClass ⟨12⟩ other rfl houter rfl
    have hstore : setting.methodStore none first boxClass [] = entry setting.tables.finalLocals :=
      congrArg Prod.fst (Except.ok.inj hs)
    refine ⟨hacyclic, houter, _, log, hs, ?_, (hsame _).trans (hnone _ rfl rfl (by decide))⟩
    rw [← hstore]
    decide

end SiblingMethods

end FlowTyping
