/-!
# Underlying types

The unqualified types that abstract values and receivers carry. `Ty.lub` is the least common
supertype as far as the shape of two types decides it: equal types, `null` below a reference,
numeric promotion, and `Object` for everything else. Declared subtyping is not part of this
module; it depends on a supertype table.
-/

namespace FlowTyping

/-- Primitive kinds; the numeric ones are listed in widening order. -/
inductive Primitive where
  | boolean
  | byte
  | short
  | char
  | int
  | long
  | float
  | double
deriving DecidableEq

namespace Primitive

/-- Position in binary numeric promotion, in which `boolean` takes no part. -/
def rank? : Primitive → Option Nat
  | boolean => none
  | byte => some 0
  | short => some 1
  | char => some 1
  | int => some 2
  | long => some 3
  | float => some 4
  | double => some 5

/-- Binary numeric promotion. `char` neither widens to nor from `byte` and `short`, so mixing
them gives `int`. -/
def promote? (p q : Primitive) : Option Primitive :=
  match p.rank?, q.rank? with
  | some m, some n =>
    if p = q then some p
    else match p, q with
      | char, byte => some int
      | char, short => some int
      | byte, char => some int
      | short, char => some int
      | _, _ => some (if n < m then p else q)
  | _, _ => none

def name : Primitive → String
  | boolean => "boolean"
  | byte => "byte"
  | short => "short"
  | char => "char"
  | int => "int"
  | long => "long"
  | float => "float"
  | double => "double"

theorem promote?_comm (p q : Primitive) : p.promote? q = q.promote? p := by
  cases p <;> cases q <;> rfl

end Primitive

/-- The type of an expression, a declaration or a receiver. Class and interface types are
known by their qualified name. -/
inductive Ty where
  | primitive (kind : Primitive)
  | declared (name : String)
  | array (component : Ty)
  | null
  | void
deriving DecidableEq

namespace Ty

/-- The class type at which unrelated types meet. -/
def object : Ty := declared "java.lang.Object"

def isPrimitive : Ty → Bool
  | primitive _ => true
  | _ => false

/-- Whether values of the type are references; `null` is one. -/
def isReference : Ty → Bool
  | declared _ => true
  | array _ => true
  | null => true
  | primitive _ => false
  | void => false

def isBoolean : Ty → Bool
  | primitive .boolean => true
  | _ => false

def joinDistinct : Ty → Ty → Ty
  | null, t => if t.isReference then t else object
  | t, null => if t.isReference then t else object
  | primitive p, primitive q =>
    match p.promote? q with
    | some kind => primitive kind
    | none => object
  | _, _ => object

/-- Least common supertype, as far as the shape of the two types decides it. -/
def lub (s t : Ty) : Ty :=
  if s = t then s else joinDistinct s t

/-- The written form of a type; an array adds brackets to its component. -/
def text : Ty → String
  | primitive kind => kind.name
  | declared name => name
  | array component => component.text ++ "[]"
  | null => "null"
  | void => "void"

/-- The part of a name after its last dot. -/
def lastSegment (name : String) : String :=
  String.ofList (name.toList.reverse.takeWhile (· ≠ '.')).reverse

/-- The name shown beside qualifiers: a class type loses its package. -/
def simpleName : Ty → String
  | declared name => lastSegment name
  | t => t.text

@[simp] theorem lub_self (t : Ty) : t.lub t = t := by
  simp [lub]

end Ty

end FlowTyping
