import FlowTyping.Proofs.Contract.PathText
import FlowTyping.Proofs.Receiver.Grounded

/-!
# Chains of fields

The receiver of a chain of fields is derived in two ways: along the field accesses of a graph, and
from the text of a contract expression, where each name is looked up among the fields of the type
so far. Where names tell the fields of a class apart both end at the same receiver, so that facts
stated by contracts are found by the reads they are about. A static field leaves its base behind
in both, also in the middle of a chain.
-/

namespace FlowTyping

/-- The receiver of a field of a base; a static field hangs off its declaring class. -/
def Receiver.access (base : Receiver) (f : Field) : Receiver :=
  .field (if f.isStatic then .className f.owner else base) f

theorem Receiver.exists_field_of_foldl_access {fs : List Field} (hne : fs ≠ []) (r : Receiver) :
    ∃ base f, fs.foldl access r = .field base f := by
  induction fs generalizing r with
  | nil => exact absurd rfl hne
  | cons f fs ih =>
    by_cases hlast : fs = []
    · subst hlast
      exact ⟨_, f, rfl⟩
    · exact ih hlast (r.access f)

/-- The first field is declared by the given type, each other one by the type of the field before
it. -/
def Linked : Ty → List Field → Prop
  | _, [] => True
  | ty, f :: fs => f.owner = ty ∧ Linked f.ty fs

/-! ### Along the nodes of a graph -/

namespace Graph

/-- From a node to the last one of a chain of field accesses that starts there. -/
inductive Selects (g : Graph) : NodeId → List Field → NodeId → Prop
  | stop (n : NodeId) : Selects g n [] n
  | access {n m last : NodeId} {node : Node} {f : Field} {fs : List Field}
      (hnode : g.node? m = some node) (hkind : node.kind = .fieldAccess n f)
      (rest : Selects g m fs last) : Selects g n (f :: fs) last

variable {g : Graph} {isDeterministic : Method → Bool}

theorem Grounded.fieldAccess {n m : NodeId} {node : Node} {f : Field}
    (hn : g.Grounded isDeterministic n) (hnode : g.node? m = some node)
    (hkind : node.kind = .fieldAccess n f) : g.Grounded isDeterministic m := by
  apply grounded_of_parts hnode
  intro part hpart
  rw [hkind, NodeKind.receiverParts] at hpart
  split at hpart
  · cases hpart
  · rw [List.mem_singleton.1 hpart]
    exact hn

theorem Selects.ofNode_eq {n last : NodeId} {fs : List Field} (h : g.Selects n fs last)
    (hn : g.Grounded isDeterministic n) :
    Receiver.ofNode g isDeterministic last =
      fs.foldl Receiver.access (Receiver.ofNode g isDeterministic n) := by
  induction h with
  | stop n => rfl
  | @access n m last node f fs hnode hkind _ ih =>
    have hm : g.Grounded isDeterministic m := hn.fieldAccess hnode hkind
    have hfirst : Receiver.ofNode g isDeterministic m =
        (Receiver.ofNode g isDeterministic n).access f := Receiver.ofNode_fieldAccess hm hnode hkind
    rw [ih hm, hfirst, List.foldl_cons]

end Graph

/-! ### Along the names of a path -/

namespace Path

/-- Every field has a name of the path grammar, and no two fields have both the class and the name
in common. -/
structure TellsApart (fields : List Field) : Prop where
  isName : ∀ f ∈ fields, isName f.name.toList = true
  unique : ∀ f ∈ fields, ∀ f' ∈ fields, f.owner = f'.owner → f.name = f'.name → f = f'

variable {fields : List Field} {context : ExpressionContext}

theorem TellsApart.field?_eq_some (h : TellsApart fields) {f : Field} (hf : f ∈ fields) :
    field? fields f.owner f.name = some f := by
  cases hfound : field? fields f.owner f.name with
  | none =>
    have hnot := List.find?_eq_none.1 hfound f hf
    simp at hnot
  | some f' =>
    have hsame := List.find?_some hfound
    simp only [Bool.and_eq_true, decide_eq_true_eq] at hsame
    rw [h.unique f' (List.mem_of_find?_eq_some hfound) f hf hsame.1 hsame.2]

theorem TellsApart.select_eq (h : TellsApart fields) {f : Field} (hf : f ∈ fields) {r : Receiver}
    (howner : f.owner = r.ty) : select fields r f.name = .ok (r.access f) := by
  rw [select, ← howner, h.field?_eq_some hf]
  rfl

theorem TellsApart.foldlM_select (h : TellsApart fields) {fs : List Field}
    (hknown : ∀ f ∈ fs, f ∈ fields) {r : Receiver} (hlinked : Linked r.ty fs) :
    (fs.map (·.name)).foldlM (select fields) r = .ok (fs.foldl Receiver.access r) := by
  induction fs generalizing r with
  | nil => rfl
  | cons f fs ih =>
    have hselect := h.select_eq (hknown f List.mem_cons_self) hlinked.1
    have hrest : Linked (r.access f).ty fs := hlinked.2
    rw [List.map_cons, List.foldlM_cons, hselect]
    exact ih (fun f' hf' => hknown f' (List.mem_cons_of_mem _ hf')) hrest

/-- A path that ends at a field denotes it. -/
theorem resolve_eq_ok {path : Path} {r base : Receiver} {f : Field}
    (hstart : start fields context path.head = .ok r)
    (hselectors : path.selectors.foldlM (select fields) r = .ok (.field base f)) :
    path.resolve fields context = .ok (.field base f) := by
  simp only [resolve, hstart, hselectors]

/-! ### What a path can denote -/

variable {r r' : Receiver}

theorem exists_field_of_select {name : String} (h : select fields r name = .ok r') :
    ∃ base f, r' = .field base f := by
  rw [select] at h
  split at h
  · cases h
    exact ⟨_, _, rfl⟩
  · cases h

theorem field_of_foldlM_select {names : List String}
    (h : names.foldlM (select fields) r = .ok r') : r' = r ∨ ∃ base f, r' = .field base f := by
  induction names generalizing r with
  | nil =>
    cases h
    exact Or.inl rfl
  | cons name names ih =>
    rw [List.foldlM_cons] at h
    cases hselect : select fields r name with
    | error fault => rw [hselect] at h; cases h
    | ok next =>
      rw [hselect] at h
      rcases ih h with rfl | hfield
      · exact Or.inr (exists_field_of_select hselect)
      · exact Or.inr hfield

theorem start_cases {head : PathHead} (h : start fields context head = .ok r) :
    r = context.receiver ∨ r ∈ context.arguments ∨ (∃ base f, r = .field base f) ∨
      ∃ ty, r = .className ty := by
  cases head with
  | this =>
    cases h
    exact Or.inl rfl
  | parameter digits =>
    simp only [start] at h
    split at h
    · cases h
    · split at h
      · next hargument =>
        cases h
        exact Or.inr (Or.inl (List.mem_of_getElem? hargument))
      · cases h
  | name text =>
    rw [start] at h
    split at h
    · exact Or.inr (Or.inr (Or.inl (exists_field_of_select h)))
    · split at h
      · cases h
        exact Or.inr (Or.inr (Or.inr ⟨_, rfl⟩))
      · cases h

end Path

/-- A path denotes what `this` or a parameter stands for, or a field. -/
theorem pathReader_cases {fields : List Field} {context : ExpressionContext} {e : String}
    {r : Receiver} (h : pathReader fields context e = .ok r) :
    r = context.receiver ∨ r ∈ context.arguments ∨ ∃ base f, r = .field base f := by
  simp only [pathReader] at h
  split at h
  · cases h
  · next path _ =>
    split at h
    · next r' hresolve =>
      cases h
      rw [Path.resolve] at hresolve
      split at hresolve
      · cases hresolve
      · next start hstart =>
        split at hresolve
        · cases hresolve
        · cases hresolve
        · next hclass hselectors =>
          cases hresolve
          -- A class alone is refused, so a path that selects nothing starts at an operand.
          rcases Path.field_of_foldlM_select hselectors with rfl | hfield
          · rcases Path.start_cases hstart with hthis | hargument | hfield | ⟨ty, rfl⟩
            · exact Or.inl hthis
            · exact Or.inr (Or.inl hargument)
            · exact Or.inr (Or.inr hfield)
            · exact absurd rfl (hclass ty)
          · exact Or.inr (Or.inr hfield)
    · cases h

/-! ### At a call -/

/-- The expressions that select fields from an operand of a call: from the receiver with `this` or,
unless the first field has that name, without a start; from an argument with its position. -/
inductive CallSite.Expresses (call : CallSite) : NodeId → List Field → String → Prop
  | this (fs : List Field) (hmethod : call.method.isStatic = false) :
    Expresses call call.receiver fs (".".intercalate ("this" :: fs.map (·.name)))
  | implicit (f : Field) (fs : List Field) (hmethod : call.method.isStatic = false)
      (hname : f.name ≠ "this") :
    Expresses call call.receiver (f :: fs) (".".intercalate ((f :: fs).map (·.name)))
  | argument (i : Nat) (n : NodeId) (fs : List Field) (hargument : call.arguments[i]? = some n) :
    Expresses call n fs (".".intercalate (("#" ++ toString (i + 1)) :: fs.map (·.name)))

namespace Path

variable {fields : List Field} {g : Graph} {isDeterministic : Method → Bool} {call : CallSite}

theorem start_this_ofCall (hmethod : call.method.isStatic = false) :
    start fields (.ofCall g isDeterministic call) .this =
      .ok (.ofNode g isDeterministic call.receiver) := by
  simp [start, ExpressionContext.ofCall, hmethod]

theorem TellsApart.start_name_ofCall (h : TellsApart fields)
    (hmethod : call.method.isStatic = false) {f : Field} (hf : f ∈ fields)
    (howner : f.owner = (Receiver.ofNode g isDeterministic call.receiver).ty) :
    start fields (.ofCall g isDeterministic call) (.name f.name) =
      .ok ((Receiver.ofNode g isDeterministic call.receiver).access f) := by
  have houter : (ExpressionContext.ofCall g isDeterministic call).outer =
      .ofNode g isDeterministic call.receiver := by
    simp [ExpressionContext.ofCall, hmethod]
  have hfield := h.field?_eq_some hf
  rw [howner] at hfield
  rw [start, houter, hfield, Option.isSome_some, if_pos rfl]
  exact h.select_eq hf howner

theorem start_parameter_ofCall (hcount : call.arguments.length < positionBound) {i : Nat}
    {n : NodeId} (hargument : call.arguments[i]? = some n) :
    start fields (.ofCall g isDeterministic call) (.parameter (Nat.toDigits 10 (i + 1))) =
      .ok (.ofNode g isDeterministic n) := by
  have hi : i < call.arguments.length := (List.getElem?_eq_some_iff.1 hargument).1
  have hbound : ¬positionBound ≤ i + 1 := by omega
  simp only [start, Text.digitsValue_toDigits, if_neg hbound, Nat.add_sub_cancel,
    ExpressionContext.ofCall, List.getElem?_map, hargument, Option.map_some]

end Path

/-- An expression that selects fields from an operand of a call is read as the receiver of the node
at the end of the same chain of field accesses. The operand is grounded, that is, building its
receiver ends; positions are words of 64 bits, hence the bound on the number of arguments. -/
theorem pathReader_eq_ofNode {fields : List Field} {g : Graph} {isDeterministic : Method → Bool}
    {call : CallSite} {n last : NodeId} {fs : List Field} {e : String}
    (htable : Path.TellsApart fields) (hcount : call.arguments.length < Path.positionBound)
    (hgrounded : g.Grounded isDeterministic n) (hchain : g.Selects n fs last) (hne : fs ≠ [])
    (hknown : ∀ f ∈ fs, f ∈ fields)
    (hlinked : Linked (Receiver.ofNode g isDeterministic n).ty fs) (he : call.Expresses n fs e) :
    pathReader fields (.ofCall g isDeterministic call) e =
      .ok (.ofNode g isDeterministic last) := by
  rw [hchain.ofNode_eq hgrounded]
  obtain ⟨base, f, hend⟩ :=
    Receiver.exists_field_of_foldl_access hne (Receiver.ofNode g isDeterministic n)
  have hnames : ∀ name ∈ fs.map (·.name), Path.isName name.toList = true := by
    intro name hname
    obtain ⟨f, hf, rfl⟩ := List.mem_map.1 hname
    exact htable.isName f (hknown f hf)
  have hselect := htable.foldlM_select hknown hlinked
  rw [hend] at hselect ⊢
  cases he with
  | this fs hmethod =>
    exact pathReader_text .this _ ⟨trivial, hnames⟩
      (Path.resolve_eq_ok (Path.start_this_ofCall hmethod) hselect)
  | implicit f fs hmethod hname =>
    have hf := hknown f List.mem_cons_self
    have hstart := htable.start_name_ofCall hmethod hf hlinked.1
    have hrest : Linked ((Receiver.ofNode g isDeterministic call.receiver).access f).ty fs :=
      hlinked.2
    have hselectors := htable.foldlM_select
      (fun f' hf' => hknown f' (List.mem_cons_of_mem _ hf')) hrest
    rw [← List.foldl_cons, hend] at hselectors
    have hhead : (PathHead.name f.name).WellFormed := ⟨hnames _ List.mem_cons_self, hname⟩
    exact pathReader_text (.name f.name) _
      ⟨hhead, fun name hmem => hnames _ (List.mem_cons_of_mem _ hmem)⟩
      (Path.resolve_eq_ok hstart hselectors)
  | argument i n fs hargument =>
    have hhead : (PathHead.parameter (Nat.toDigits 10 (i + 1))).WellFormed :=
      Path.isPosition_toDigits (Nat.succ_pos i)
    rw [Nat.toString_eq_ofList_toDigits]
    exact pathReader_text (.parameter (Nat.toDigits 10 (i + 1))) _ ⟨hhead, hnames⟩
      (Path.resolve_eq_ok (Path.start_parameter_ofCall hcount hargument) hselect)

namespace LinkedNodes

private def element : Ty := .declared "app.Node"

private def next : Field := ⟨⟨20⟩, "next", element, element, false, false⟩

private def root : Field := ⟨⟨21⟩, "root", element, element, false, true⟩

private def link : Method := ⟨⟨30⟩, "link", element, .void, false, false⟩

private def nodeAt (index : Nat) (kind : NodeKind) : Node := ⟨⟨index⟩, element, none, true, kind⟩

/-- `this.link(other); other.next.root.next` -/
private def graph : Graph where
  code := .fragment ⟨0⟩
  parameters := []
  nodes := [nodeAt 0 .thisLiteral,
    nodeAt 1 (.localVariable ⟨⟨10⟩, "other", .localVariable, element, none⟩),
    nodeAt 2 (.methodInvocation link ⟨0⟩ [⟨1⟩]), nodeAt 3 (.fieldAccess ⟨1⟩ next),
    nodeAt 4 (.fieldAccess ⟨3⟩ root), nodeAt 5 (.fieldAccess ⟨4⟩ next)]
  blocks := [⟨⟨0⟩, [⟨0⟩, ⟨1⟩, ⟨2⟩, ⟨3⟩, ⟨4⟩, ⟨5⟩], some (.goto ⟨1⟩), [], [⟨1⟩]⟩,
    ⟨⟨1⟩, [], none, [⟨0⟩], []⟩]
  entry := ⟨0⟩
  exit := ⟨1⟩

private def call : CallSite := ⟨link, ⟨0⟩, [⟨1⟩], none⟩

private def noneDeterministic (_ : Method) : Bool := false

/-- The static field in the middle moves the chain to its class. -/
theorem argument_next_root_next :
    graph.check = .ok () ∧
    pathReader [next, root] (.ofCall graph noneDeterministic call) "#1.next.root.next" =
      .ok (.ofNode graph noneDeterministic ⟨5⟩) ∧
    Receiver.ofNode graph noneDeterministic ⟨5⟩ =
      .field (.field (.className element) root) next := by
  have htable : Path.TellsApart [next, root] := ⟨by decide, by decide⟩
  have hgrounded : graph.Grounded noneDeterministic ⟨1⟩ :=
    Graph.grounded_of_parts (g := graph) (n := ⟨1⟩) rfl fun part hpart => by cases hpart
  have hchain : graph.Selects ⟨1⟩ [next, root, next] ⟨5⟩ :=
    .access (m := ⟨3⟩) rfl rfl (.access (m := ⟨4⟩) rfl rfl (.access (m := ⟨5⟩) rfl rfl (.stop _)))
  have he : call.Expresses ⟨1⟩ [next, root, next] "#1.next.root.next" :=
    .argument 0 ⟨1⟩ [next, root, next] rfl
  exact ⟨rfl, pathReader_eq_ofNode htable (by decide) hgrounded hchain (by decide) (by decide)
    ⟨rfl, rfl, rfl, trivial⟩ he, by decide⟩

end LinkedNodes

end FlowTyping
