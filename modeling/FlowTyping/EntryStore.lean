import FlowTyping.Contract.Application
import FlowTyping.Store.Update

/-!
# Entry stores

What holds when a body starts. A method starts from its parameters, its preconditions, what is
known about fields, and the captured locals of the code around it. A lambda starts from the store
at the point where it is written, less what may change before it runs; its field facts are
weakened towards the declared types. Code outside methods starts from a given store.
-/

namespace FlowTyping

namespace Tables

/-- An element followed by the elements around it, innermost first, at most `length` of them. -/
def enclosingChainWithin (t : Tables) : Nat → ElementId → List ElementId
  | 0, _ => []
  | length + 1, e =>
    e :: match t.enclosing? e with
      | some e' => enclosingChainWithin t length e'
      | none => []

/-- An element followed by the elements around it, innermost first. -/
def enclosingChain (t : Tables) (e : ElementId) : List ElementId :=
  t.enclosingChainWithin (t.elements.length + 1) e

def isInitializer (t : Tables) (e : ElementId) : Bool :=
  match t.elementKind? e with
  | some kind => kind.isInitializer
  | none => false

/-- The element of the code around a lambda: the nearest enclosing method, or, where a class
comes first, the initializer inside that class around the innermost scope that has an element. -/
def codeAround? (t : Tables) (lambda : TreeId) : Option ElementId :=
  let isCode (s : Scope) : Bool := s.kind = .method || s.kind = .classBody
  let path := t.lexicalPath lambda
  match path.find? isCode with
  | none => none
  | some scope =>
    if scope.kind = .method then scope.element
    else
      match (path.takeWhile fun s => !isCode s).findSome? (·.element) with
      | none => none
      | some innermost =>
        ((t.enclosingChain innermost).takeWhile fun e => some e ≠ scope.element).find?
          t.isInitializer

end Tables

namespace Setting

def addParameters (st : Setting) (parameters : List Variable) (s : Store) : Store :=
  parameters.foldl (fun s x => s.setParameter x (st.tables.valueOfVariable x)) s

/-- A store with the initial values of the fields that still have them: final fields, and in a
constructor all of them. -/
def addInitializers (st : Setting) (cls : ClassInfo) (m : Method) (s : Store) : Store :=
  st.tables.initializerValues.foldl
    (fun s entry =>
      if entry.1.isFinal || m.isConstructor then
        s.insert (.implicitField entry.1 cls.ty) entry.2
      else s) s

/-- The value that a declared field has when a body starts. In a constructor the declared type
only holds once an initializer has run. -/
def declaredFieldValue? (st : Setting) (m : Method) (d : FieldDeclaration) : Option Value :=
  match st.tables.valueOfDeclaration d.tree with
  | none => none
  | some declared =>
    if m.isConstructor then
      (st.tables.initializerValues.find? fun entry => entry.1 = d.field).map fun entry =>
        declared.lub entry.2
    else some declared

def addDeclaredFields (st : Setting) (cls : ClassInfo) (m : Method) (s : Store) : Store :=
  if m.receiverMayBeUninitialized && !m.isConstructor then s
  else cls.fields.foldl
    (fun s d => match st.declaredFieldValue? m d with
      | some v => s.refine (.implicitField d.field cls.ty) v
      | none => s) s

/-- A store with the captured locals that are declared around an element. -/
def addFinalLocals (st : Setting) (element : ElementId) (s : Store) : Store :=
  st.tables.finalLocalValues.foldl
    (fun s entry => match entry.1.declaredIn with
      | some owner =>
        if owner ∈ st.tables.enclosingChain element then s.insert (.localVariable entry.1) entry.2
        else s
      | none => s) s

def overriddenObservations (st : Setting) (m : Method) : List Observation :=
  (st.tables.overridden m).flatMap fun o =>
    (o.parameters.mapIdx fun index v => ⟨.overriddenParameter m o.method index, v⟩) ++
      [⟨.overriddenReceiver m o.method, o.receiver⟩]

def fixedOrEmpty (st : Setting) (fixed : Option Store) : Store :=
  fixed.getD (.empty st.config.isSequential)

def methodStore (st : Setting) (fixed : Option Store) (m : Method) (cls : ClassInfo)
    (parameters : List Variable) : Store :=
  st.fixedOrEmpty fixed
    |> st.addParameters parameters
    |> st.assumePreconditions m parameters
    |> st.addInitializers cls m
    |> st.addDeclaredFields cls m
    |> st.addFinalLocals m.id

/-- The entry store of a lambda written where `enclosing` holds. -/
def lambdaStore (st : Setting) (enclosing : Store) (tree : TreeId) (parameters : List Variable) :
    Store :=
  let seeded := st.addParameters parameters enclosing.withoutTransient
  let captured := match st.tables.codeAround? tree with
    | some element => st.addFinalLocals element seeded
    | none => seeded
  captured.mapFields fun f known => (st.tables.valueOfField f).map fun declared =>
    declared.lub known

/-- The entry store of a piece of code, with what is observed while it is built. -/
def entryStore (st : Setting) (fixed : Option Store) (code : Code) (parameters : List Variable) :
    Except FlowError (Store × Log) :=
  match code with
  | .method m tree cls =>
    .ok (st.methodStore fixed m cls parameters,
      st.observe (some tree) m.id (st.overriddenObservations m))
  | .lambda tree =>
    match fixed with
    | some enclosing => .ok (st.lambdaStore enclosing tree parameters, .empty)
    | none => .error (.missingFixedStore tree)
  | .fragment _ => .ok (st.fixedOrEmpty fixed, .empty)

end Setting

end FlowTyping
