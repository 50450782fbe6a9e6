import FlowTyping.PathExpression
import Mathlib.Data.List.Forall2

/-!
# Contracts at a call

The expression of a contract is read once where the method is declared, with `this` and the
parameters standing for themselves, and once at each call. Reading it at a call is reading it at
the declaration and then putting the receiver and the arguments in their places, provided that
these have the declared types. That is because a path looks at the types of receivers only, and
at whether it ends at a class.
-/

namespace FlowTyping

namespace Receiver

/-- What to put in the places of `this` and of locals. -/
structure Substitution where
  /-- What `this` becomes. -/
  self : Receiver
  /-- What a local becomes, unless it is kept. -/
  local? : Variable → Option Receiver

mutual

def substitute (σ : Substitution) : Receiver → Receiver
  | localVariable x => (σ.local? x).getD (localVariable x)
  | field base f => field (substitute σ base) f
  | this _ => σ.self
  | className ty => className ty
  | array ty base index => array ty (substitute σ base) (substitute σ index)
  | call ty m base arguments => call ty m (substitute σ base) (substituteList σ arguments)
  | literal ty value => literal ty value
  | unknown ty => unknown ty

def substituteList (σ : Substitution) : List Receiver → List Receiver
  | [] => []
  | r :: rs => substitute σ r :: substituteList σ rs

end

@[simp] theorem substituteList_eq (σ : Substitution) (rs : List Receiver) :
    substituteList σ rs = rs.map (substitute σ) := by
  induction rs with
  | nil => rfl
  | cons r rs ih => rw [substituteList, ih, List.map_cons]

def isClassName : Receiver → Bool
  | className _ => true
  | _ => false

/-- A path that starts at one of the receivers goes on as from the other: they have the same type,
and both or none of them are classes. -/
structure Alike (r s : Receiver) : Prop where
  ty : s.ty = r.ty
  isClassName : s.isClassName = r.isClassName

/-- A receiver can be passed where one of a declared type is expected: it has exactly that type, and
is no class. -/
structure Fits (r : Receiver) (ty : Ty) : Prop where
  ty : r.ty = ty
  isClassName : r.isClassName = false

end Receiver

/-- The second context is the first one after a substitution, from whose receivers each path goes on
as before. -/
structure ExpressionContext.Instantiates (σ : Receiver.Substitution)
    (declared actual : ExpressionContext) : Prop where
  receiver : actual.receiver = declared.receiver.substitute σ
  outer : actual.outer = declared.outer.substitute σ
  arguments : actual.arguments = declared.arguments.map (Receiver.substitute σ)
  alike_receiver : declared.receiver.Alike (declared.receiver.substitute σ)
  alike_outer : declared.outer.Alike (declared.outer.substitute σ)
  alike_arguments : ∀ r ∈ declared.arguments, r.Alike (r.substitute σ)

namespace Path

open Receiver (substitute Alike)

variable {fields : List Field} {σ : Receiver.Substitution} {declared actual : ExpressionContext}
  {r r' : Receiver}

/-! ### The fields of a path -/

theorem alike_of_select {name : String} (h : select fields r name = .ok r') :
    Alike r' (r'.substitute σ) := by
  rw [select] at h
  split at h
  · cases h
    exact ⟨rfl, rfl⟩
  · cases h

theorem select_substitute (h : Alike r (r.substitute σ)) (name : String) :
    select fields (r.substitute σ) name = (select fields r name).map (substitute σ) := by
  rw [select, select, h.ty]
  cases field? fields r.ty name with
  | none => rfl
  | some f =>
    -- a static field hangs off its class, whatever the base was
    by_cases hstatic : f.isStatic = true
    · simp only [if_pos hstatic, Except.map, substitute]
    · simp only [if_neg hstatic, Except.map, substitute]

theorem foldlM_select_substitute (h : Alike r (r.substitute σ)) (names : List String) :
    names.foldlM (select fields) (r.substitute σ) =
      (names.foldlM (select fields) r).map (substitute σ) := by
  induction names generalizing r with
  | nil => rfl
  | cons name names ih =>
    rw [List.foldlM_cons, List.foldlM_cons, select_substitute h]
    cases hselect : select fields r name with
    | error fault => rfl
    | ok r' => exact ih (alike_of_select hselect)

theorem alike_of_foldlM_select (h : Alike r (r.substitute σ)) {names : List String}
    (hr : names.foldlM (select fields) r = .ok r') : Alike r' (r'.substitute σ) := by
  induction names generalizing r with
  | nil =>
    cases hr
    exact h
  | cons name names ih =>
    rw [List.foldlM_cons] at hr
    cases hselect : select fields r name with
    | error fault =>
      rw [hselect] at hr
      cases hr
    | ok r₁ =>
      rw [hselect] at hr
      exact ih (alike_of_select hselect) hr

/-! ### The start of a path -/

theorem start_substitute (h : declared.Instantiates σ actual) (head : PathHead) :
    start fields actual head = (start fields declared head).map (substitute σ) := by
  cases head with
  | this => exact congrArg Except.ok h.receiver
  | parameter digits =>
    simp only [start]
    split
    · rfl
    · rw [h.arguments, List.getElem?_map]
      cases declared.arguments[Text.digitsValue digits - 1]? <;> rfl
  | name text =>
    simp only [start]
    rw [h.outer, h.alike_outer.ty]
    split
    · exact select_substitute h.alike_outer text
    · cases class? fields text <;> rfl

theorem alike_of_start (h : declared.Instantiates σ actual) {head : PathHead}
    (hr : start fields declared head = .ok r) : Alike r (r.substitute σ) := by
  cases head with
  | this =>
    cases hr
    exact h.alike_receiver
  | parameter digits =>
    simp only [start] at hr
    split at hr
    · cases hr
    · split at hr
      · next hargument =>
        cases hr
        exact h.alike_arguments r (List.mem_of_getElem? hargument)
      · cases hr
  | name text =>
    simp only [start] at hr
    split at hr
    · exact alike_of_select hr
    · split at hr
      · cases hr
        exact ⟨rfl, rfl⟩
      · cases hr

/-! ### Whole paths -/

/-- The last check of a path: a class alone is no expression. -/
theorem resolve_eq (context : ExpressionContext) (path : Path) :
    path.resolve fields context =
      (start fields context path.head >>= fun r =>
        path.selectors.foldlM (select fields) r >>= fun r =>
          if r.isClassName then .error .classNameAlone else .ok r) := by
  rw [resolve]
  cases start fields context path.head with
  | error fault => rfl
  | ok r =>
    simp only [bind, Except.bind]
    cases path.selectors.foldlM (select fields) r with
    | error fault => rfl
    | ok r' => cases r' <;> rfl

theorem resolve_substitute (h : declared.Instantiates σ actual) (path : Path) :
    path.resolve fields actual = (path.resolve fields declared).map (substitute σ) := by
  rw [resolve_eq, resolve_eq, start_substitute h]
  cases hstart : start fields declared path.head with
  | error fault => rfl
  | ok r =>
    have hr : Alike r (r.substitute σ) := alike_of_start h hstart
    simp only [Except.map, bind, Except.bind, foldlM_select_substitute hr]
    cases hselectors : path.selectors.foldlM (select fields) r with
    | error fault => rfl
    | ok r' =>
      have hr' : Alike r' (r'.substitute σ) := alike_of_foldlM_select hr hselectors
      simp only [hr'.isClassName]
      split <;> rfl

end Path

theorem pathReader_substitute {fields : List Field} {σ : Receiver.Substitution}
    {declared actual : ExpressionContext} (h : declared.Instantiates σ actual) (e : String) :
    pathReader fields actual e = (pathReader fields declared e).map (Receiver.substitute σ) := by
  simp only [pathReader]
  cases Path.ofText? (Text.trim e.toList) with
  | none => rfl
  | some path =>
    simp only [Path.resolve_substitute h]
    cases path.resolve fields declared <;> rfl

/-! ### At a call -/

/-- Puts the receiver of a call in the place of `this` and its arguments in those of the
parameters. -/
def ExpressionContext.binding (actual : ExpressionContext) (parameters : List Variable) :
    Receiver.Substitution :=
  ⟨actual.receiver, fun x => (parameters.zip actual.arguments).lookup x⟩

theorem map_lookup_zip {xs : List Variable} (hdistinct : xs.Nodup) {rs : List Receiver}
    (hlength : rs.length = xs.length) : xs.map (fun x => (xs.zip rs).lookup x) = rs.map some := by
  induction xs generalizing rs with
  | nil =>
    rw [List.eq_nil_of_length_eq_zero hlength]
    rfl
  | cons x xs ih =>
    obtain ⟨hx, hxs⟩ := List.nodup_cons.1 hdistinct
    cases rs with
    | nil => cases hlength
    | cons r rs =>
      have hfirst : ((x :: xs).zip (r :: rs)).lookup x = some r := by
        rw [List.zip_cons_cons, List.lookup_cons, beq_self_eq_true]
      have hrest : xs.map (fun y => ((x :: xs).zip (r :: rs)).lookup y) = rs.map some := by
        rw [← ih hxs (Nat.succ.inj hlength)]
        apply List.map_congr_left
        intro y hy
        have hne : (y == x) = false := beq_false_of_ne fun h => hx (h ▸ hy)
        rw [List.zip_cons_cons, List.lookup_cons, hne]
      rw [List.map_cons, List.map_cons, hfirst, hrest]

namespace ExpressionContext

variable {g : Graph} {isDeterministic : Method → Bool} {call : CallSite}
  {parameters : List Variable}

theorem map_substitute_parameters {actual : ExpressionContext} (hdistinct : parameters.Nodup)
    (hcount : actual.arguments.length = parameters.length) :
    (parameters.map .localVariable).map (Receiver.substitute (actual.binding parameters)) =
      actual.arguments := by
  have hfound : parameters.map (actual.binding parameters).local? = actual.arguments.map some :=
    map_lookup_zip hdistinct hcount
  apply (List.map_inj_right fun _ _ => Option.some.inj).1
  rw [← hfound, List.map_map, List.map_map]
  apply List.map_congr_left
  intro x hx
  have hmem : (actual.binding parameters).local? x ∈ actual.arguments.map some :=
    hfound ▸ List.mem_map_of_mem hx
  obtain ⟨r, -, hr⟩ := List.mem_map.1 hmem
  simp [Receiver.substitute, ← hr]

theorem receiver_ofCall_eq_substitute (parameters : List Variable) :
    (ofCall g isDeterministic call).receiver =
      (ofDeclaration call.method parameters).receiver.substitute
        ((ofCall g isDeterministic call).binding parameters) := by
  by_cases hstatic : call.method.isStatic = true
  · simp only [ofCall, ofDeclaration, if_pos hstatic, Receiver.substitute]
  · simp only [binding, ofCall, ofDeclaration, if_neg hstatic, Receiver.substitute]

theorem alike_receiver_ofCall (parameters : List Variable)
    (hreceiver : call.method.isStatic = false →
      (Receiver.ofNode g isDeterministic call.receiver).Fits call.method.owner) :
    (ofDeclaration call.method parameters).receiver.Alike
      (ofCall g isDeterministic call).receiver := by
  by_cases hstatic : call.method.isStatic = true
  · simp only [ofCall, ofDeclaration, if_pos hstatic]
    exact ⟨rfl, rfl⟩
  · obtain ⟨hty, hclass⟩ := hreceiver (eq_false_of_ne_true hstatic)
    simp only [ofCall, ofDeclaration, if_neg hstatic]
    exact ⟨hty, hclass⟩

/-- A call whose receiver and arguments fit the declared types instantiates the declaration. -/
theorem instantiates_ofCall (hdistinct : parameters.Nodup)
    (hreceiver : call.method.isStatic = false →
      (Receiver.ofNode g isDeterministic call.receiver).Fits call.method.owner)
    (harguments : List.Forall₂ (fun n x => (Receiver.ofNode g isDeterministic n).Fits x.ty)
      call.arguments parameters) :
    (ofDeclaration call.method parameters).Instantiates
      ((ofCall g isDeterministic call).binding parameters) (ofCall g isDeterministic call) := by
  have halike := alike_receiver_ofCall parameters hreceiver
  have hself : (ofCall g isDeterministic call).receiver =
      (ofDeclaration call.method parameters).receiver.substitute
        ((ofCall g isDeterministic call).binding parameters) :=
    receiver_ofCall_eq_substitute parameters
  rw [hself] at halike
  have hcount : (ofCall g isDeterministic call).arguments.length = parameters.length := by
    simpa [ofCall] using harguments.length_eq
  have hbound := map_substitute_parameters hdistinct hcount
  refine ⟨hself, hself, hbound.symm, halike, halike, ?_⟩
  have hfits : List.Forall₂ (fun r (x : Variable) => r.Fits x.ty)
      (ofCall g isDeterministic call).arguments parameters :=
    List.forall₂_map_left_iff.2 harguments
  rw [← hbound, List.map_map, List.forall₂_map_left_iff, List.forall₂_same] at hfits
  intro r hr
  obtain ⟨x, hx, rfl⟩ := List.mem_map.1 hr
  exact ⟨(hfits x hx).ty, (hfits x hx).isClassName⟩

end ExpressionContext

/-- An expression is read at a call as it is read at the declaration, with the receiver in the place
of `this` and the arguments in those of the parameters; where one reading fails the other fails
with the same error. The method may be static, and then has no receiver. -/
theorem pathReader_ofCall {fields : List Field} {g : Graph} {isDeterministic : Method → Bool}
    {call : CallSite} {parameters : List Variable} (hdistinct : parameters.Nodup)
    (hreceiver : call.method.isStatic = false →
      (Receiver.ofNode g isDeterministic call.receiver).Fits call.method.owner)
    (harguments : List.Forall₂ (fun n x => (Receiver.ofNode g isDeterministic n).Fits x.ty)
      call.arguments parameters) (e : String) :
    pathReader fields (.ofCall g isDeterministic call) e =
      (pathReader fields (.ofDeclaration call.method parameters) e).map
        (Receiver.substitute
          ((ExpressionContext.ofCall g isDeterministic call).binding parameters)) :=
  pathReader_substitute
    (ExpressionContext.instantiates_ofCall hdistinct hreceiver harguments) e

namespace NestedArgument

private def element : Ty := .declared "app.Node"

private def next : Field := ⟨⟨20⟩, "next", element, element, false, false⟩

private def link : Method := ⟨⟨30⟩, "link", element, .void, false, false⟩

private def head : Variable := ⟨⟨10⟩, "head", .localVariable, element, none⟩

private def target : Variable := ⟨⟨11⟩, "target", .parameter, element, none⟩

private def nodeAt (index : Nat) (kind : NodeKind) : Node := ⟨⟨index⟩, element, none, true, kind⟩

/-- `head.link(head.next)` -/
private def graph : Graph where
  code := .fragment ⟨0⟩
  parameters := []
  nodes := [nodeAt 0 (.localVariable head), nodeAt 1 (.fieldAccess ⟨0⟩ next),
    nodeAt 2 (.methodInvocation link ⟨0⟩ [⟨1⟩])]
  blocks := [⟨⟨0⟩, [⟨0⟩, ⟨1⟩, ⟨2⟩], some (.goto ⟨1⟩), [], [⟨1⟩]⟩, ⟨⟨1⟩, [], none, [⟨0⟩], []⟩]
  entry := ⟨0⟩
  exit := ⟨1⟩

private def call : CallSite := ⟨link, ⟨0⟩, [⟨1⟩], none⟩

private def noneDeterministic (_ : Method) : Bool := false

/-- With `head.next` for the parameter, its field `next` is that of `head.next`. -/
theorem argument_next_next :
    graph.check = .ok () ∧
    pathReader [next] (.ofDeclaration link [target]) " #1.next" =
      .ok (.field (.localVariable target) next) ∧
    pathReader [next] (.ofCall graph noneDeterministic call) " #1.next" =
      .ok (.field (.field (.localVariable head) next) next) := by
  have hdeclared : pathReader [next] (.ofDeclaration link [target]) " #1.next" =
      .ok (.field (.localVariable target) next) := by decide
  have hread : pathReader [next] (.ofCall graph noneDeterministic call) " #1.next" =
      (pathReader [next] (.ofDeclaration link [target]) " #1.next").map (Receiver.substitute
        ((ExpressionContext.ofCall graph noneDeterministic call).binding [target])) :=
    pathReader_ofCall (by decide) (fun _ => ⟨by decide, by decide⟩)
      (.cons ⟨by decide, by decide⟩ .nil) " #1.next"
  refine ⟨rfl, hdeclared, ?_⟩
  rw [hread, hdeclared]
  decide

end NestedArgument

end FlowTyping
