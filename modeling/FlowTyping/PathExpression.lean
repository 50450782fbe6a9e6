import FlowTyping.ExpressionContext
import FlowTyping.Text.Blank
import FlowTyping.Text.Digits

/-!
# Path expressions

The expressions of contracts: `this`, `#2` (the second parameter), `count` (a field of the
enclosing class), `Config.instance` (a static field) and dotted chains of those. `Path.ofText?`
reads the grammar and `Path.resolve` finds the receiver that a path denotes in a context, given
the fields that are known.
-/

namespace FlowTyping

/-- Why a text is no expression in its context. -/
inductive PathFault where
  | notAPath
  | badIndex (digits : String)
  | noParameter (position : Nat)
  | noField (name : String) (owner : Ty)
  | unknownIdentifier (name : String)
  | classNameAlone
deriving DecidableEq

def PathFault.message : PathFault → String
  | notAPath => "not a path expression"
  | badIndex digits => "bad parameter index `" ++ digits ++ "`"
  | noParameter position => "no parameter #" ++ toString position
  | noField name owner => "no field `" ++ name ++ "` in `" ++ owner.text ++ "`"
  | unknownIdentifier name => "unknown identifier `" ++ name ++ "`"
  | classNameAlone => "a class name is not an expression"

/-- Why a contract expression has no receiver. -/
inductive ParseError where
  /-- The expression, without the blanks around it, is faulty in its context. -/
  | path (expression : String) (fault : PathFault)
  /-- Any other problem, as a ready-made diagnostic. -/
  | diagnostic (key : String) (args : List String)
deriving DecidableEq

namespace ParseError

def message : ParseError → String
  | path expression fault =>
    "cannot parse flow expression `" ++ expression ++ "`: " ++ fault.message
  | diagnostic key _ => key

def args : ParseError → List String
  | path expression fault => [expression, fault.message]
  | diagnostic _ args => args

end ParseError

/-- Finds the receiver that an expression denotes in a context. -/
abbrev ExpressionReader := ExpressionContext → String → Except ParseError Receiver

/-- The start of a path. -/
inductive PathHead where
  | this
  /-- A parameter by its position, as written; positions count from one. -/
  | parameter (digits : List Char)
  | name (text : String)

/-- A start followed by the names of the fields selected from it. -/
structure Path where
  head : PathHead
  selectors : List String

namespace Path

def isNameStart (c : Char) : Bool := c.isAlpha || c = '_' || c = '$'

def isNamePart (c : Char) : Bool := c.isAlphanum || c = '_' || c = '$'

/-- The names of the path grammar, which are all ASCII. -/
def isName : List Char → Bool
  | [] => false
  | c :: cs => isNameStart c && cs.all isNamePart

/-- A positive decimal number without leading zeros. -/
def isPosition : List Char → Bool
  | [] => false
  | c :: cs => c.isDigit && c ≠ '0' && cs.all (·.isDigit)

/-- The pieces of a text between its dots. -/
def segments : List Char → List (List Char)
  | [] => [[]]
  | c :: cs =>
    if c = '.' then [] :: segments cs
    else match segments cs with
      | [] => [[c]]
      | s :: ss => (c :: s) :: ss

/-- The start that a first piece spells. -/
def headOf? (s : List Char) : Option PathHead :=
  match s with
  | '#' :: digits => if isPosition digits then some (.parameter digits) else none
  | s =>
    if s = "this".toList then some .this
    else if isName s then some (.name (String.ofList s))
    else none

def ofText? (cs : List Char) : Option Path :=
  match segments cs with
  | [] => none
  | s :: ss =>
    if ss.all isName then
      (headOf? s).map fun head => ⟨head, ss.map String.ofList⟩
    else none

def field? (fields : List Field) (owner : Ty) (name : String) : Option Field :=
  fields.find? fun f => f.owner = owner && f.name = name

/-- The declaring class that a name stands for, simple or in full. -/
def class? (fields : List Field) (name : String) : Option Ty :=
  (fields.map (·.owner)).find? fun owner => owner.simpleName = name || owner.text = name

/-- Selects a field; a static field hangs off its declaring class. -/
def select (fields : List Field) (base : Receiver) (name : String) : Except PathFault Receiver :=
  match field? fields base.ty name with
  | some f => .ok (.field (if f.isStatic then .className f.owner else base) f)
  | none => .error (.noField name base.ty)

/-- The largest parameter position that can be named is below this bound. -/
def positionBound : Nat := Nat.pow 2 64

/-- What the start of a path denotes. A name is a field of the enclosing class if there is one,
else a class. -/
def start (fields : List Field) (context : ExpressionContext) : PathHead →
    Except PathFault Receiver
  | .this => .ok context.receiver
  | .parameter digits =>
    let position := Text.digitsValue digits
    if positionBound ≤ position then .error (.badIndex (String.ofList digits))
    else match context.arguments[position - 1]? with
      | some r => .ok r
      | none => .error (.noParameter position)
  | .name text =>
    if (field? fields context.outer.ty text).isSome then select fields context.outer text
    else match class? fields text with
      | some ty => .ok (.className ty)
      | none => .error (.unknownIdentifier text)

/-- What a path denotes. A class alone is no expression. -/
def resolve (fields : List Field) (context : ExpressionContext) (path : Path) :
    Except PathFault Receiver :=
  match start fields context path.head with
  | .error e => .error e
  | .ok r =>
    match path.selectors.foldlM (select fields) r with
    | .error e => .error e
    | .ok (.className _) => .error .classNameAlone
    | .ok r => .ok r

end Path

/-- The reader of path expressions over a list of known fields. -/
def pathReader (fields : List Field) : ExpressionReader := fun context expression =>
  let trimmed := Text.trim expression.toList
  match Path.ofText? trimmed with
  | none => .error (.path (String.ofList trimmed) .notAPath)
  | some path =>
    match path.resolve fields context with
    | .ok r => .ok r
    | .error fault => .error (.path (String.ofList trimmed) fault)

end FlowTyping
