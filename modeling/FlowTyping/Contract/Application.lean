import FlowTyping.Setting
import FlowTyping.Store

/-!
# Applying contracts

A contract whose expression can be read gives a fact, the qualifier of the contract for the
receiver it names. Facts refine the store on entry to a method, after a call, or after one
outcome of a call. A contract that cannot be read gives no fact; at a call it is reported.
-/

namespace FlowTyping.Setting

def contractFact (st : Setting) (context : ExpressionContext) (c : Contract) :
    Except ParseError (Receiver × Value) :=
  match st.reader context c.expression with
  | .ok r => .ok (r, .of r.ty [c.qualifier])
  | .error e => .error e

def contractsAt (st : Setting) (m : Method) (kind : ContractKind) : List Contract :=
  (st.tables.contracts m).filter (·.kind = kind)

/-- The facts that some contracts state in a context, in order; those that cannot be read are
left out. -/
def contractFacts (st : Setting) (context : ExpressionContext) (cs : List Contract) :
    List (Receiver × Value) :=
  cs.filterMap fun c => (st.contractFact context c).toOption

def contractDiagnostic (call : CallSite) : ParseError → Diagnostic
  | .path expression fault =>
    ⟨call.tree, "flowexpr.parse.error.postcondition",
      call.method.name :: (ParseError.path expression fault).args⟩
  | .diagnostic key args => ⟨call.tree, key, args⟩

def contractDiagnostics (st : Setting) (g : Graph) (call : CallSite) (cs : List Contract) :
    List Diagnostic :=
  cs.filterMap fun c =>
    match st.contractFact (.ofCall g st.tables.isDeterministic call) c with
    | .ok _ => none
    | .error e => some (contractDiagnostic call e)

def refineAll (s : Store) (facts : List (Receiver × Value)) : Store :=
  facts.foldl (fun s fact => s.refine fact.1 fact.2) s

/-- The entry store of a method refined by its preconditions. -/
def assumePreconditions (st : Setting) (m : Method) (parameters : List Variable) (s : Store) :
    Store :=
  refineAll s
    (st.contractFacts (.ofDeclaration m parameters) (st.contractsAt m .precondition))

/-- The store after a call refined by those contracts of the method that hold at one time. -/
def assumeAtCall (st : Setting) (g : Graph) (call : CallSite) (kind : ContractKind) (s : Store) :
    Store :=
  refineAll s
    (st.contractFacts (.ofCall g st.tables.isDeterministic call) (st.contractsAt call.method kind))

def postconditionDiagnostics (st : Setting) (g : Graph) (call : CallSite) : List Diagnostic :=
  st.contractDiagnostics g call (st.contractsAt call.method .postcondition)

/-- What is reported about the conditional postconditions of a call, whatever the outcome they
are about. -/
def conditionalDiagnostics (st : Setting) (g : Graph) (call : CallSite) : List Diagnostic :=
  st.contractDiagnostics g call <| (st.tables.contracts call.method).filter fun c =>
    match c.kind with
    | .conditionalPostcondition _ => true
    | _ => false

end FlowTyping.Setting
