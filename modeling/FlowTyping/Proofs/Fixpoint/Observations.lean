import FlowTyping.Proofs.Fixpoint.RunLog
import FlowTyping.Proofs.Fixpoint.Settled

/-!
# Observing an analysis

Whether types are observed, and where, does not change what an analysis finds. Every observation
passes one gate on its way to the log. So an analysis with some gate is the one with the gate wide
open, less what the gate holds back.
-/

namespace FlowTyping

/-- Whether neither the tree nor the element of a sighting is suppressed. -/
def Suppression.permits (s : Suppression) (x : Sighting) : Bool :=
  !(x.tree.any s.tree || s.element x.element)

/-- The element that a visit of a node observes: the one assigned, called, created or returned
from. -/
def Graph.observedElement? (g : Graph) (node : Node) : Option ElementId :=
  match node.kind with
  | .assignment target _ => (g.node? target).bind assigned?
  | .stringConcatenateAssignment target _ => (g.node? target).bind assigned?
  | .methodInvocation m _ _ => some m.id
  | .objectCreation constructor _ => some constructor.id
  | .returnStatement _ m => m.map (·.id)
  | _ => none
where
  /-- The field or variable that a target names. -/
  assigned? (target : Node) : Option ElementId :=
    match target.kind with
    | .fieldAccess _ f => some f.id
    | .localVariable x => some x.id
    | _ => none

/-- Some visit of a list is of an expression whose syntax and observed element a sighting is
about. -/
def Graph.Observes (g : Graph) (visits : List Visit) (x : Sighting) : Prop :=
  ∃ visit ∈ visits, ∃ node, g.node? visit.node = some node ∧
    x.tree = (g.lambdaBody node).tree ∧ g.observedElement? (g.lambdaBody node) = some x.element

theorem Graph.Observes.mono {g : Graph} {visits visits' : List Visit} {x : Sighting}
    (h : g.Observes visits x) (hsub : visits ⊆ visits') : g.Observes visits' x := by
  obtain ⟨visit, hvisit, hx⟩ := h
  exact ⟨visit, hsub hvisit, hx⟩

def Code.Observes (code : Code) (x : Sighting) : Prop :=
  ∃ m tree cls, code = .method m tree cls ∧ x.tree = some tree ∧ x.element = m.id

namespace Setting

variable (st : Setting)

/-- The setting with another choice of whether observations are asked for, whether they are
collected, and where they are suppressed. -/
def watched (infer collects : Bool) (suppression : Suppression) : Setting :=
  { st with
    config := { st.config with infer := infer }
    collects := collects
    suppression := suppression }

/-- The setting in which every observation is let through. -/
def openly : Setting := st.watched true true SuppressionList.empty.suppression

def gate (infer collects : Bool) (suppression : Suppression) (x : Sighting) : Bool :=
  infer && collects && suppression.permits x

variable {st} {infer collects : Bool} {suppression : Suppression} {g : Graph}

theorem admits_watched (tree : Option TreeId) (element : ElementId) (o : Observation) :
    (st.watched infer collects suppression).admits tree element =
      gate infer collects suppression ⟨tree, element, o⟩ := by
  cases tree <;> rfl

/-- The one place where the gate stands. -/
theorem observe_watched (tree : Option TreeId) (element : ElementId) (os : List Observation) :
    (st.watched infer collects suppression).observe tree element os =
      (st.openly.observe tree element os).retain (gate infer collects suppression) := by
  have hopen : st.openly.admits tree element = true := by
    cases tree <;> simp [openly, watched, admits, SuppressionList.suppression,
      SuppressionList.empty]
  -- Whether a sighting passes does not depend on what was seen.
  have hgate : ∀ x ∈ os.map fun o => Sighting.mk tree element o,
      gate infer collects suppression x =
        (st.watched infer collects suppression).admits tree element := by
    intro x hx
    obtain ⟨o, -, rfl⟩ := List.mem_map.1 hx
    exact (admits_watched tree element o).symm
  rw [observe, observe, if_pos hopen, Log.retain, Log.ofSightings, List.filter_congr hgate]
  split
  · next h => simp [h]
  · next h => simp [h, Log.empty]

theorem assignmentLog_watched (node : Node) (target : NodeId) (r : Receiver) (v : Option Value)
    (watchesParameters : Bool) :
    (st.watched infer collects suppression).assignmentLog g node target r v watchesParameters =
      (st.openly.assignmentLog g node target r v watchesParameters).retain
        (gate infer collects suppression) := by
  unfold assignmentLog
  cases g.node? target with
  | none => rfl
  | some targetNode =>
    cases hkind : targetNode.kind with
    | fieldAccess base f => simp only [hkind, observe_watched]
    | localVariable x =>
      simp only [hkind, observe_watched]
      split
      · rfl
      · split <;> rfl
    | _ => simp only [hkind, Log.retain_empty]

/-- A visit does the same however it is watched, and tells what the gate lets through. -/
theorem visit_watched (values : NodeValues) (node : Node) (stores : Stores) :
    (st.watched infer collects suppression).visit g values node stores =
      ((st.openly.visit g values node stores).1,
        (st.openly.visit g values node stores).2.retain (gate infer collects suppression)) := by
  unfold visit visitBody
  generalize g.lambdaBody node = body
  cases hkind : body.kind with
  | assignment target expression =>
    exact Prod.ext rfl (assignmentLog_watched body target _ _ true)
  | stringConcatenateAssignment target expression =>
    exact Prod.ext rfl (assignmentLog_watched body target _ _ false)
  | methodInvocation m receiver arguments =>
    refine Prod.ext rfl ?_
    simp only [visitInvocation, observe_watched, Log.retain_append, Log.retain_ofDiagnostics]
    rfl
  | objectCreation constructor arguments => exact Prod.ext rfl (observe_watched _ _ _)
  | returnStatement result m =>
    cases m with
    | none => rfl
    | some m => exact Prod.ext rfl (observe_watched _ _ _)
  | _ => rfl

theorem entryStore_watched (enclosing : Option Store) (code : Code)
    (parameters : List Variable) :
    (st.watched infer collects suppression).entryStore enclosing code parameters =
      (st.openly.entryStore enclosing code parameters).map fun seed =>
        (seed.1, seed.2.retain (gate infer collects suppression)) := by
  cases code with
  | method m tree cls =>
    exact congrArg Except.ok (Prod.ext rfl (observe_watched (some tree) m.id _))
  | lambda tree => cases enclosing <;> rfl
  | fragment tree => rfl

/-- An analysis is the one in which every observation is let through, less what the gate holds
back. -/
theorem analyze_watched (enclosing : Option Store) :
    (st.watched infer collects suppression).analyze g enclosing =
      (st.openly.analyze g enclosing).map (·.retain (gate infer collects suppression)) := by
  have hengine : (st.watched infer collects suppression).engine enclosing =
      (st.openly.engine enclosing).retain (gate infer collects suppression) := by
    rw [engine, engine, Engine.retain, Engine.mk.injEq]
    exact ⟨funext fun code => funext fun parameters => entryStore_watched enclosing code parameters,
      funext fun g => funext fun values => funext fun node => funext fun stores =>
        visit_watched values node stores⟩
  rw [analyze, analyze, hengine, Engine.solve_retain]
  exact congrArg _ (Engine.solve_congr rfl rfl)

/-! ### What sightings are about -/

theorem mem_observe {tree : Option TreeId} {element : ElementId} {os : List Observation}
    {x : Sighting} (hx : x ∈ (st.observe tree element os).sightings) :
    x.tree = tree ∧ x.element = element := by
  rw [observe] at hx
  split at hx
  · obtain ⟨o, -, rfl⟩ := List.mem_map.1 hx
    exact ⟨rfl, rfl⟩
  · cases hx

theorem mem_assignmentLog {node : Node} {target : NodeId} {r : Receiver} {v : Option Value}
    {watchesParameters : Bool} {x : Sighting}
    (hx : x ∈ (st.assignmentLog g node target r v watchesParameters).sightings) :
    x.tree = node.tree ∧
      (g.node? target).bind Graph.observedElement?.assigned? = some x.element := by
  unfold assignmentLog at hx
  cases htarget : g.node? target with
  | none => rw [htarget] at hx; cases hx
  | some targetNode =>
    simp only [htarget] at hx
    cases hkind : targetNode.kind with
    | fieldAccess base f =>
      simp only [hkind] at hx
      obtain ⟨htree, helement⟩ := mem_observe hx
      exact ⟨htree, by simp [Graph.observedElement?.assigned?, hkind, helement]⟩
    | localVariable y =>
      simp only [hkind] at hx
      have hobserve : x.tree = node.tree ∧ x.element = y.id := by
        split at hx
        · exact mem_observe hx
        · split at hx
          · exact mem_observe hx
          · cases hx
      exact ⟨hobserve.1, by simp [Graph.observedElement?.assigned?, hkind, hobserve.2]⟩
    | _ => simp only [hkind] at hx; cases hx

theorem mem_visit {values : NodeValues} {node : Node} {stores : Stores} {x : Sighting}
    (hx : x ∈ (st.visit g values node stores).2.sightings) :
    x.tree = (g.lambdaBody node).tree ∧
      g.observedElement? (g.lambdaBody node) = some x.element := by
  unfold visit visitBody at hx
  generalize g.lambdaBody node = body at hx ⊢
  unfold Graph.observedElement?
  cases hkind : body.kind with
  | assignment target expression => rw [hkind] at hx; exact mem_assignmentLog hx
  | stringConcatenateAssignment target expression =>
    rw [hkind] at hx
    exact mem_assignmentLog hx
  | methodInvocation m receiver arguments =>
    rw [hkind] at hx
    rcases List.mem_append.1 hx with hobserved | hreported
    · obtain ⟨htree, helement⟩ := mem_observe hobserved
      exact ⟨htree, congrArg some helement.symm⟩
    · cases hreported
  | objectCreation constructor arguments =>
    rw [hkind] at hx
    obtain ⟨htree, helement⟩ := mem_observe hx
    exact ⟨htree, congrArg some helement.symm⟩
  | returnStatement result m =>
    rw [hkind] at hx
    cases m with
    | none => cases hx
    | some m =>
      obtain ⟨htree, helement⟩ := mem_observe hx
      exact ⟨htree, congrArg some helement.symm⟩
  | _ => rw [hkind] at hx; cases hx

theorem mem_entryStore {enclosing : Option Store} {code : Code} {parameters : List Variable}
    {s : Store} {log : Log} (h : st.entryStore enclosing code parameters = .ok (s, log))
    {x : Sighting} (hx : x ∈ log.sightings) : code.Observes x := by
  cases code with
  | method m tree cls =>
    cases h
    exact ⟨m, tree, cls, rfl, mem_observe hx⟩
  | lambda tree =>
    cases enclosing with
    | none => cases h
    | some store => cases h; cases hx
  | fragment tree => cases h; cases hx

theorem runNodes_observes {enclosing : Option Store} {ids : List NodeId} {run run' : BlockRun}
    (hrun : ∀ x ∈ run.log.sightings, g.Observes run.visits x)
    (h : (st.engine enclosing).runNodes g run ids = .ok run') :
    ∀ x ∈ run'.log.sightings, g.Observes run'.visits x := by
  refine Engine.runNodes_preserves
    (P := fun run => ∀ x ∈ run.log.sightings, g.Observes run.visits x)
    (fun run id _ node hnode hp x hx => ?_) hrun h
  rcases List.mem_append.1 hx with hearlier | hnow
  · exact (hp x hearlier).mono (List.subset_append_left _ _)
  · exact ⟨_, List.mem_append_right _ (List.mem_singleton.2 rfl), node, hnode, mem_visit hnow⟩

theorem analyze_observes {enclosing : Option Store} {sol : Solution}
    (h : st.analyze g enclosing = .ok sol) :
    ∀ x ∈ sol.log.sightings, g.code.Observes x ∨ g.Observes sol.visits x := by
  obtain ⟨initial, log, p, converged, hentry, hiter, rfl⟩ := Engine.solve_eq_ok h
  refine Engine.iterate_preserves
    (fun p => ∀ x ∈ p.log.sightings, g.code.Observes x ∨ g.Observes p.visits x)
    (fun p id rest p' _ hp hstep => ?_) (fun p rest hp => hp)
    (fun x hx => Or.inl (mem_entryStore hentry hx)) hiter
  rcases Engine.step_cases hstep with ⟨rfl, -⟩ | ⟨block, joined, run, hr, rfl⟩
  · exact hp
  · intro x hx
    rw [Engine.settle_log] at hx
    rw [Engine.settle_visits]
    rcases List.mem_append.1 hx with hearlier | hnow
    · exact (hp x hearlier).imp_right (·.mono (List.subset_append_left _ _))
    · have hrun := runNodes_observes (fun x hx => by cases hx) hr.run_eq x hnow
      exact Or.inr (hrun.mono (List.subset_append_right _ _))

/-- Observing does not change what an analysis finds. It tells nothing unless observations are both
asked for and collected, and then tells, in order, what it would tell if nothing were suppressed,
less what was seen at a suppressed tree or element: those of a visit, or of the method whose entry
store is built. An analysis that fails does so before anything is observed. -/
theorem analyze_only_observes (st : Setting) (g : Graph) (enclosing : Option Store)
    (suppression : Suppression) :
    (∀ infer collects,
      ((st.watched infer collects suppression).analyze g enclosing).map Solution.unobserved =
        (st.analyze g enclosing).map Solution.unobserved) ∧
    (∀ infer collects sol, (infer && collects) = false →
      (st.watched infer collects suppression).analyze g enclosing = .ok sol →
        sol.log.sightings = []) ∧
    (st.watched true true suppression).analyze g enclosing =
      (st.openly.analyze g enclosing).map (·.retain suppression.permits) ∧
    (∀ sol, st.openly.analyze g enclosing = .ok sol →
      ∀ x ∈ sol.log.sightings, g.code.Observes x ∨ g.Observes sol.visits x) ∧
    ∀ e, st.analyze g enclosing = .error e →
      g.check = .error e ∨ st.entryStore enclosing g.code g.parameters = .error e := by
  have hforget : ∀ infer collects suppression,
      ((st.watched infer collects suppression).analyze g enclosing).map Solution.unobserved =
        (st.openly.analyze g enclosing).map Solution.unobserved := by
    intro infer collects suppression
    rw [analyze_watched]
    cases st.openly.analyze g enclosing <;> rfl
  refine ⟨fun infer collects => ?_, fun infer collects sol hoff hsol => ?_,
    analyze_watched enclosing, fun sol hsol => analyze_observes hsol,
    fun e he => Engine.solve_eq_error he⟩
  · -- A setting is its own choice of how it is watched.
    rw [hforget, ← hforget st.config.infer st.collects st.suppression]
    rfl
  · rw [analyze_watched] at hsol
    cases hopen : st.openly.analyze g enclosing with
    | error e => rw [hopen] at hsol; cases hsol
    | ok full =>
      rw [hopen] at hsol
      cases hsol
      refine List.filter_eq_nil_iff.2 fun x _ => ?_
      rw [gate, hoff]
      exact Bool.false_ne_true

end Setting

namespace WatchedFields

private def box : Ty := .declared "Box"

private def leaf : Ty := .declared "Leaf"

private def left : Field := ⟨⟨20⟩, "left", box, leaf, false, false⟩

private def right : Field := ⟨⟨21⟩, "right", box, leaf, false, false⟩

/-- `this.left = null; this.right = null` -/
private def graph : Graph where
  code := .fragment ⟨0⟩
  parameters := []
  nodes := [
    ⟨⟨0⟩, box, none, true, .thisLiteral⟩, ⟨⟨1⟩, leaf, none, true, .fieldAccess ⟨0⟩ left⟩,
    ⟨⟨2⟩, leaf, none, true, .literal .null⟩, ⟨⟨3⟩, leaf, some ⟨3⟩, true, .assignment ⟨1⟩ ⟨2⟩⟩,
    ⟨⟨4⟩, leaf, none, true, .fieldAccess ⟨0⟩ right⟩,
    ⟨⟨5⟩, leaf, some ⟨5⟩, true, .assignment ⟨4⟩ ⟨2⟩⟩]
  blocks := [
    ⟨⟨0⟩, [⟨0⟩, ⟨1⟩, ⟨2⟩, ⟨3⟩, ⟨4⟩, ⟨5⟩], some .leave, [], [⟨1⟩]⟩, ⟨⟨1⟩, [], none, [⟨0⟩], []⟩]
  entry := ⟨0⟩
  exit := ⟨1⟩

/-- The second assignment is suppressed by its tree. -/
private def second : Suppression := SuppressionList.suppression ⟨[⟨5⟩], []⟩

private def sees (tree : TreeId) (f : Field) : Sighting :=
  ⟨some tree, f.id, ⟨.field (.field (.this box) f), none⟩⟩

theorem first_assignment_observed :
    ∃ full sol silent, Setting.plain.openly.analyze graph none = .ok full ∧
      (Setting.plain.watched true true second).analyze graph none = .ok sol ∧
      (Setting.plain.watched false true second).analyze graph none = .ok silent ∧
      full.log.sightings = [sees ⟨3⟩ left, sees ⟨5⟩ right] ∧
      sol.log.sightings = [sees ⟨3⟩ left] ∧ silent.log.sightings = [] := by
  obtain ⟨-, hsilent, hfiltered, -⟩ := Setting.analyze_only_observes .plain graph none second
  have horder : graph.reversePostorder = [⟨0⟩, ⟨1⟩] := by cbv
  have hfull : (Setting.plain.openly.analyze graph none).toOption.any (fun sol =>
      decide (sol.log.sightings = [sees ⟨3⟩ left, sees ⟨5⟩ right])) = true := by
    simp only [Setting.analyze, Engine.solve, Engine.start, horder]
    decide
  have hran : ((Setting.plain.watched false true second).analyze graph none).toOption.any
      (fun _ => true) = true := by
    simp only [Setting.analyze, Engine.solve, Engine.start, horder]
    decide
  obtain ⟨full, hfull, hseen⟩ := Solution.exists_of_any hfull
  obtain ⟨silent, hran, -⟩ := Solution.exists_of_any hran
  rw [hfull] at hfiltered
  have hseen := of_decide_eq_true hseen
  refine ⟨full, _, silent, hfull, hfiltered, hran, hseen, ?_, hsilent false true silent rfl hran⟩
  change full.log.sightings.filter second.permits = _
  rw [hseen]
  decide

end WatchedFields

end FlowTyping
