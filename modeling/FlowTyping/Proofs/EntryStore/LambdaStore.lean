import FlowTyping.Proofs.EntryStore.Facts
import FlowTyping.Proofs.Store.Locals
import FlowTyping.Proofs.Tables.Enclosing

/-!
# Entry stores of lambdas

A lambda may run at any time after it was written, so its entry store keeps of the store around it
what still holds then. Facts about classes, array elements and calls are gone. `this` and the locals
stay, with parameters and captured locals added. A fact about a field is weakened to what holds both
where the lambda is written and by the declaration of the field, and is gone where nothing is
declared.
-/

namespace FlowTyping

/-- Whether a fact about the receiver is lost on the way into a lambda. -/
def Receiver.isTransient : Receiver → Bool
  | .className _ => true
  | .array _ _ _ => true
  | .call _ _ _ _ => true
  | _ => false

theorem Tables.valueOfField_eq_none_iff {t : Tables} {f : Field} :
    t.valueOfField f = none ↔ t.declaredQualifiers f = [] := by
  rw [valueOfField, Value.of?]
  simp

namespace Store

theorem value?_withoutTransient (s : Store) (r : Receiver) :
    s.withoutTransient.value? r = if r.isTransient then none else s.value? r := by
  cases r with
  | this ty => rfl
  | _ => simp [withoutTransient, retain, value?, Receiver.isTransient]

end Store

namespace Setting

variable {st : Setting} {x : Variable} {r : Receiver} {v : Value}

theorem value?_setParameter (s : Store) (y : Variable) (w : Option Value) (r : Receiver) :
    (s.setParameter y w).value? r = if r = .localVariable y then w.or (s.value? r)
      else s.value? r := by
  cases w with
  | none => simp [Store.setParameter]
  | some w =>
    have hslot : Store.SameSlot r (.localVariable y) ↔ r = .localVariable y := by
      cases r <;> simp [Store.SameSlot]
    rw [Store.setParameter, Store.value?_put, if_congr hslot rfl rfl, Option.some_or]

theorem value?_addParameters_of_ne (hr : ∀ x, r ≠ .localVariable x) (parameters : List Variable)
    (s : Store) : (st.addParameters parameters s).value? r = s.value? r := by
  induction parameters generalizing s with
  | nil => rfl
  | cons y parameters ih =>
    rw [addParameters, List.foldl_cons, ← addParameters, ih, value?_setParameter, if_neg (hr y)]

theorem value?_addParameters_local (parameters : List Variable) (s : Store) (x : Variable) :
    (st.addParameters parameters s).value? (.localVariable x) =
      if x ∈ parameters then (st.tables.valueOfVariable x).or (s.value? (.localVariable x))
      else s.value? (.localVariable x) := by
  induction parameters generalizing s with
  | nil => rfl
  | cons y parameters ih =>
    rw [addParameters, List.foldl_cons, ← addParameters, ih, value?_setParameter]
    by_cases hxy : x = y
    · subst hxy
      cases st.tables.valueOfVariable x <;> simp
    · simp [hxy]

def lambdaCaptures (st : Setting) (tree : TreeId) : List (Receiver × Value) :=
  (st.tables.codeAround? tree).elim [] st.capturedFacts

/-- What is left of a fact on the way into a lambda that keeps it. -/
def weakened (st : Setting) : Receiver → Value → Option Value
  | .field _ f, known => (st.tables.valueOfField f).map fun declared => declared.lub known
  | _, known => some known

theorem lambdaStore_eq (enclosing : Store) (tree : TreeId) (parameters : List Variable) :
    st.lambdaStore enclosing tree parameters =
      ((st.addParameters parameters enclosing.withoutTransient).insertFacts
        (st.lambdaCaptures tree)).mapFields fun f known =>
          (st.tables.valueOfField f).map fun declared => declared.lub known := by
  rw [lambdaStore, lambdaCaptures]
  cases st.tables.codeAround? tree with
  | none => rfl
  | some element => exact congrArg (Store.mapFields · _) (addFinalLocals_eq element _)

theorem value?_lambdaStore (enclosing : Store) (tree : TreeId) (parameters : List Variable)
    (r : Receiver) :
    (st.lambdaStore enclosing tree parameters).value? r =
      (((st.addParameters parameters enclosing.withoutTransient).insertFacts
        (st.lambdaCaptures tree)).value? r).bind (st.weakened r) := by
  rw [lambdaStore_eq, Store.mapFields]
  cases r with
  | field base f => exact Store.value?_mapFacts _ _ _
  | _ => exact (Store.value?_mapFacts_of_kept (fun _ => rfl) _).trans (Option.bind_fun_some _).symm

theorem sequential_addParameters (parameters : List Variable) (s : Store) :
    (st.addParameters parameters s).sequential = s.sequential := by
  induction parameters generalizing s with
  | nil => rfl
  | cons y parameters ih =>
    refine (ih _).trans ?_
    exact Store.sequential_apply s st.tables.oracle (.setParameter y (st.tables.valueOfVariable y))

theorem sequential_lambdaStore (enclosing : Store) (tree : TreeId) (parameters : List Variable) :
    (st.lambdaStore enclosing tree parameters).sequential = enclosing.sequential := by
  rw [lambdaStore_eq]
  exact (Store.sequential_insertFacts _ _).trans (sequential_addParameters _ _)

theorem exists_of_mem_capturedFacts {element : ElementId} {fact : Receiver × Value}
    (h : fact ∈ st.capturedFacts element) :
    ∃ row ∈ st.tables.finalLocals, row.qualifiers ≠ [] ∧
      fact = (.localVariable row.declaration, .of row.declaration.ty row.qualifiers) := by
  obtain ⟨entry, hentry, rfl⟩ := List.mem_map.1 h
  obtain ⟨row, hrow, hvalue⟩ := List.mem_filterMap.1 (List.mem_filter.1 hentry).1
  obtain ⟨v, hv, rfl⟩ := Option.map_eq_some_iff.1 hvalue
  rw [Value.of?] at hv
  split at hv
  · cases hv
  · next hempty =>
    cases hv
    exact ⟨row, hrow, by simpa using hempty, rfl⟩

theorem exists_of_mem_lambdaCaptures {tree : TreeId} {fact : Receiver × Value}
    (h : fact ∈ st.lambdaCaptures tree) :
    ∃ row ∈ st.tables.finalLocals, row.qualifiers ≠ [] ∧
      fact = (.localVariable row.declaration, .of row.declaration.ty row.qualifiers) := by
  rw [lambdaCaptures] at h
  cases hcode : st.tables.codeAround? tree with
  | none => rw [hcode] at h; cases h
  | some element => rw [hcode] at h; exact exists_of_mem_capturedFacts h

theorem exists_of_lastValue?_lambdaCaptures {tree : TreeId}
    (h : Store.lastValue? (st.lambdaCaptures tree) (.localVariable x) = some v) :
    ∃ row ∈ st.tables.finalLocals, row.qualifiers ≠ [] ∧ row.declaration = x ∧
      v = .of row.declaration.ty row.qualifiers := by
  obtain ⟨fact, hfound, rfl⟩ := Option.map_eq_some_iff.1 h
  have hslot : fact.1 = .localVariable x := by
    simpa [Store.sameSlot_local] using List.find?_some hfound
  obtain ⟨row, hrow, hqualifiers, rfl⟩ :=
    exists_of_mem_lambdaCaptures (List.mem_reverse.1 (List.mem_of_find?_eq_some hfound))
  cases hslot
  exact ⟨row, hrow, hqualifiers, rfl, rfl⟩

theorem lastValue?_lambdaCaptures_of_ne (hr : ∀ x, r ≠ .localVariable x) (tree : TreeId) :
    Store.lastValue? (st.lambdaCaptures tree) r = none := by
  rw [Store.lastValue?_eq_none]
  intro fact hfact hslot
  obtain ⟨row, -, -, rfl⟩ := exists_of_mem_lambdaCaptures hfact
  cases r <;> first | exact hr _ rfl | cases hslot

/-- What a lambda knows of anything but locals it knows from the store around it. -/
theorem value?_lambdaStore_of_ne (hr : ∀ x, r ≠ .localVariable x) (enclosing : Store)
    (tree : TreeId) (parameters : List Variable) :
    (st.lambdaStore enclosing tree parameters).value? r =
      if r.isTransient then none else (enclosing.value? r).bind (st.weakened r) := by
  rw [value?_lambdaStore, Store.value?_insertFacts, lastValue?_lambdaCaptures_of_ne hr,
    Option.none_or, ite_self, value?_addParameters_of_ne hr, Store.value?_withoutTransient]
  split <;> rfl

theorem value?_lambdaStore_field (enclosing : Store) (tree : TreeId) (parameters : List Variable)
    (base : Receiver) (f : Field) :
    (st.lambdaStore enclosing tree parameters).value? (.field base f) =
      (enclosing.value? (.field base f)).bind fun known =>
        (st.tables.valueOfField f).map fun declared => declared.lub known :=
  value?_lambdaStore_of_ne (by simp) enclosing tree parameters

/-- What a lambda knows of a local was captured, declared for a parameter, or known around it. -/
theorem value?_lambdaStore_local (enclosing : Store) (tree : TreeId) (parameters : List Variable)
    (x : Variable) :
    (st.lambdaStore enclosing tree parameters).value? (.localVariable x) =
      (Store.lastValue? (st.lambdaCaptures tree) (.localVariable x)).or
        (if x ∈ parameters then
          (st.tables.valueOfVariable x).or (enclosing.value? (.localVariable x))
        else enclosing.value? (.localVariable x)) := by
  have hkept : enclosing.withoutTransient.value? (.localVariable x) =
      enclosing.value? (.localVariable x) := Store.value?_withoutTransient _ _
  have htracks : (st.addParameters parameters enclosing.withoutTransient).tracks
      (.localVariable x) = true := rfl
  rw [value?_lambdaStore, Store.value?_insertFacts, if_pos htracks, value?_addParameters_local,
    hkept]
  exact Option.bind_fun_some _

/-- The entry store of a lambda exists, whatever is known where the lambda is written, and holds
facts that hold whenever its body runs. -/
theorem entryStore_lambda (hacyclic : st.tables.AcyclicEnclosing) (enclosing : Store)
    (tree : TreeId) (parameters : List Variable) :
    (∀ e, ∃ chain, st.tables.Climb e chain) ∧
    ∃ s, st.entryStore (some enclosing) (.lambda tree) parameters = .ok (s, .empty) ∧
      s.sequential = enclosing.sequential ∧
      (∀ r : Receiver, r.isTransient = true → s.value? r = none) ∧
      (∀ ty, s.value? (.this ty) = enclosing.value? (.this ty)) ∧
      (∀ base f, (s.value? (.field base f)).isSome ↔
        (enclosing.value? (.field base f)).isSome ∧ st.tables.declaredQualifiers f ≠ []) ∧
      (∀ base f w, s.value? (.field base f) = some w →
        ∃ known declared, enclosing.value? (.field base f) = some known ∧
          st.tables.valueOfField f = some declared ∧ known.Below w ∧ declared.Below w ∧
          ∀ u, known.Below u → declared.Below u → w.Below u) ∧
      ∀ x v, s.value? (.localVariable x) = some v →
        enclosing.value? (.localVariable x) = some v ∨
        x ∈ parameters ∧ st.tables.valueOfVariable x = some v ∨
        ∃ row ∈ st.tables.finalLocals, row.declaration = x ∧
          Value.of? x.ty row.qualifiers = some v := by
  refine ⟨fun e => ⟨_, Tables.climb_enclosingChain hacyclic e⟩,
    st.lambdaStore enclosing tree parameters, rfl, sequential_lambdaStore _ _ _, fun r hr => ?_,
    fun ty => ?_, fun base f => ?_, fun base f w hw => ?_, fun x v hv => ?_⟩
  · rw [value?_lambdaStore_of_ne (by rintro x rfl; cases hr), if_pos hr]
  · exact (value?_lambdaStore_of_ne (by simp) _ _ _).trans (Option.bind_fun_some _)
  · rw [value?_lambdaStore_field, Ne, ← Tables.valueOfField_eq_none_iff]
    cases enclosing.value? (.field base f) <;> cases st.tables.valueOfField f <;> simp
  · rw [value?_lambdaStore_field] at hw
    obtain ⟨known, hknown, hweakened⟩ := Option.bind_eq_some_iff.1 hw
    obtain ⟨declared, hdeclared, rfl⟩ := Option.map_eq_some_iff.1 hweakened
    exact ⟨known, declared, hknown, hdeclared, Value.below_lub_right _ _, Value.below_lub_left _ _,
      fun u hu hu' => Value.lub_below hu' hu⟩
  · rw [value?_lambdaStore_local] at hv
    rcases Option.or_eq_some_iff.1 hv with hcaptured | ⟨-, hknown⟩
    · obtain ⟨row, hrow, hqualifiers, hx, hvalue⟩ := exists_of_lastValue?_lambdaCaptures hcaptured
      subst hx
      refine Or.inr (Or.inr ⟨row, hrow, rfl, ?_⟩)
      simp [Value.of?, hqualifiers, hvalue]
    · split at hknown
      · next hmem =>
        rcases Option.or_eq_some_iff.1 hknown with hdeclared | ⟨-, hknown⟩
        · exact Or.inr (Or.inl ⟨hmem, hdeclared⟩)
        · exact Or.inl hknown
      · exact Or.inl hknown

end Setting

namespace CachedField

private def box : Ty := .declared "Box"

private def leaf : Ty := .declared "Leaf"

private def value : Field := ⟨⟨20⟩, "value", box, leaf, false, false⟩

private def cache : Field := ⟨⟨21⟩, "cache", box, leaf, false, false⟩

private def item : Variable := ⟨⟨3⟩, "item", .localVariable, leaf, some ⟨10⟩⟩

private def onThis (f : Field) : Receiver := .field (.this box) f

private def nonNull : Value := .of leaf [.nonNull]

/-- `value` is declared to be nullable, and nothing is declared about `cache`. -/
private def setting : Setting :=
  .ofTables { Tables.empty with
    fields := [⟨value, [.nullable], none⟩]
    elements := [⟨⟨10⟩, .method, some ⟨1000⟩⟩, ⟨⟨1000⟩, .classType, none⟩]
    lexicalPaths := [⟨⟨500⟩, [⟨.lambda, none⟩, ⟨.method, some ⟨10⟩⟩, ⟨.classBody, some ⟨1000⟩⟩]⟩] }
    .empty .default

/-- Both fields and a local have been checked for `null` where the lambda is written. -/
private def enclosing : Store :=
  (((Store.empty true).insert (onThis value) nonNull).insert (onThis cache) nonNull).insert
    (.localVariable item) nonNull

/-- The lambda still knows about the local; of the fields it knows what is declared. -/
theorem lambda_forgets_checks :
    setting.tables.AcyclicEnclosing ∧
    ∃ s, setting.entryStore (some enclosing) (.lambda ⟨500⟩) [] = .ok (s, .empty) ∧
      s.value? (.localVariable item) = some nonNull ∧
      s.value? (onThis value) = some (.of leaf [.nullable]) ∧
      s.value? (onThis cache) = none := by
  have hacyclic : setting.tables.AcyclicEnclosing :=
    Tables.acyclicEnclosing_of_lt (·.val.toNat) (by decide)
  obtain ⟨-, s, hs, -, -, -, hkeys, -⟩ :=
    Setting.entryStore_lambda hacyclic enclosing ⟨500⟩ []
  have hcache : s.value? (onThis cache) = none := by
    have hundeclared : setting.tables.declaredQualifiers cache = [] := rfl
    have hnot := mt (hkeys (.this box) cache).1 fun hboth => hboth.2 hundeclared
    exact Option.not_isSome_iff_eq_none.1 hnot
  refine ⟨hacyclic, s, hs, ?_, ?_, hcache⟩
  all_goals
    cases hs
    decide

end CachedField

end FlowTyping
