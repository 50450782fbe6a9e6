import FlowTyping.Ty

/-!
# Program elements

The declarations that expressions refer to: variables, fields and methods. Every declaration has
an `ElementId`; `TreeId` names a piece of syntax, which this library never looks into.
-/

namespace FlowTyping

structure ElementId where
  val : UInt32
deriving DecidableEq

def ElementId.text (id : ElementId) : String := "e" ++ toString id.val.toNat

structure TreeId where
  val : UInt32
deriving DecidableEq

def TreeId.text (id : TreeId) : String := "t" ++ toString id.val.toNat

/-- What an element is, as seen when walking outwards through enclosing elements. -/
inductive ElementKind where
  | classType
  | method
  | constructor
  | instanceInitializer
  | staticInitializer
  | field
  | parameter
  | localVariable
deriving DecidableEq

def ElementKind.isInitializer : ElementKind → Bool
  | instanceInitializer => true
  | staticInitializer => true
  | _ => false

/-- How a variable was declared. A `field` variable is a field named without a receiver. -/
inductive VariableKind where
  | localVariable
  | parameter
  | field
  | exceptionParameter
  | resource
deriving DecidableEq

/-- A local variable, a parameter, or a field referenced through a simple name. -/
structure Variable where
  id : ElementId
  name : String
  kind : VariableKind
  ty : Ty
  /-- The method, initializer or lambda that declares the variable. -/
  declaredIn : Option ElementId
deriving DecidableEq

structure Field where
  id : ElementId
  name : String
  owner : Ty
  ty : Ty
  isFinal : Bool
  isStatic : Bool
deriving DecidableEq

structure Method where
  id : ElementId
  name : String
  owner : Ty
  returnTy : Ty
  isStatic : Bool
  isConstructor : Bool
deriving DecidableEq

/-- A constructor of a class, under the name that all constructors share. -/
def Method.constructorOf (id : ElementId) (owner : Ty) : Method :=
  ⟨id, "<init>", owner, .void, false, true⟩

/-- A method qualified by the simple name of its class. -/
def Method.text (m : Method) : String := m.owner.simpleName ++ "." ++ m.name

end FlowTyping
