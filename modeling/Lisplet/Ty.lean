/-!
Type descriptors. Every value has one concrete type; an interface is a capability that several
concrete types have, and a reference is one level of indirection to another type.
-/

namespace Lisplet

/-- The capabilities a value can be asked for. -/
inductive Interface where
  /-- Had by every type. -/
  | any
  /-- Can be walked as a sequence. -/
  | seqable
  /-- Can be called with values. -/
  | invokable
  | number
  deriving DecidableEq

inductive Ty where
  | nil | bool | int | bigInt | float | string | symbol | keyword | list | vector | seq
  | fn | specialForm | type
  | interface (i : Interface)
  | ref (t : Ty)
  deriving DecidableEq

namespace Interface

def name : Interface → String
  | any => "Any"
  | seqable => "Seqable"
  | invokable => "Invokable"
  | number => "Number"

/-- Whether the values of a type have the capability. -/
def isSatisfiedBy : Interface → Ty → Bool
  | any, _ => true
  | seqable, .nil | seqable, .list | seqable, .vector | seqable, .seq => true
  | invokable, .fn => true
  | number, .int | number, .bigInt | number, .float => true
  | _, _ => false

end Interface

namespace Ty

def name : Ty → String
  | nil => "Nil"
  | bool => "Bool"
  | int => "Int"
  | bigInt => "BigInt"
  | float => "Float"
  | string => "String"
  | symbol => "Symbol"
  | keyword => "Keyword"
  | list => "List"
  | vector => "Vector"
  | seq => "Seq"
  | fn => "Fn"
  | specialForm => "SpecialForm"
  | type => "Type"
  | interface i => i.name
  | ref t => "&" ++ t.name

/-- The types that can be called by a name: concrete types, then interfaces. -/
def all : List Ty :=
  [nil, bool, int, bigInt, float, string, symbol, keyword, list, vector, seq, fn, specialForm, type,
    interface .any, interface .seqable, interface .invokable, interface .number]

def lookup? (name : String) : Option Ty := all.find? (·.name = name)

/-- The type without its outermost reference, if it is one. -/
def deref : Ty → Ty
  | ref t => t
  | t => t

def asInterface? : Ty → Option Interface
  | interface i => some i
  | _ => none

/-- Whether a value of type `t` can stand where `target` is expected, as it is. -/
def isAssignableTo (t : Ty) : Ty → Bool
  | interface i => i.isSatisfiedBy t
  | target => t = target

end Ty

end Lisplet
