import Lisplet.Symbol.Basic
import Lisplet.Ty

/-!
What can go wrong, and how it is said. An error is a cause with its data, and `Error.message` is the
only place that words it.
-/

namespace Lisplet

/-- How many arguments an operation takes. -/
inductive ArityBound where
  | exact (n : Nat)
  | atLeast (n : Nat)
  | range (least most : Nat)
  deriving DecidableEq

inductive Error where
  | arity (expected : ArityBound) (got : Nat) (name : Option String)
  /-- A value is of another kind than an operation needs. -/
  | type (expected got : String) (context : Option String)
  | notInvokable (typeName : String)
  | noMatchingClause (subject : String)
  | notInterface (t : Ty)
  | cannotConvert (source target : Ty)
  /-- A fold without a seed over no elements. -/
  | emptyReduce
  | invalidSyntax (form message : String)
  | undefinedSymbol (s : Symbol)
  /-- Raised by a program. -/
  | thrown (message : String)
  /-- A range of integers that does not move. -/
  | zeroStep
  | integerOutOfRange (context : String) (n : Int)
  /-- A native that has no code the host could run. -/
  | noCode (name : String)
  /-- Any other failure, in the words of the host. -/
  | failed (message : String)
  deriving DecidableEq

def ArityBound.text : ArityBound → String
  | exact n => n.repr
  | atLeast n => "at least " ++ n.repr
  | range least most => least.repr ++ " to " ++ most.repr

namespace Error

def arityExactly (name : String) (expected got : Nat) : Error :=
  arity (.exact expected) got (some name)

def arityAtLeast (name : String) (expected got : Nat) : Error :=
  arity (.atLeast expected) got (some name)

def arityRange (name : String) (least most got : Nat) : Error :=
  arity (.range least most) got (some name)

def typeIn (context expected got : String) : Error := type expected got (some context)

def message : Error → String
  | arity expected got name =>
    let whose := match name with
      | some name => " to '" ++ name ++ "'"
      | none => ""
    "invalid number of arguments" ++ whose ++ ": expected " ++ expected.text ++ ", got " ++ got.repr
  | type expected got context =>
    let whose := match context with
      | some context => context ++ ": "
      | none => ""
    whose ++ "invalid type; expected " ++ expected ++ ", got " ++ got
  | notInvokable typeName => typeName ++ " is not invokable"
  | noMatchingClause subject => "no matching clause for '" ++ subject ++ "'"
  | notInterface t => "type '" ++ t.name ++ "' is not an interface type"
  | cannotConvert source target =>
    "cannot convert '" ++ source.name ++ "' to '" ++ target.name ++ "'"
  | emptyReduce => "cannot reduce empty sequence without seed"
  | invalidSyntax form message => "Invalid '" ++ form ++ "' syntax: " ++ message
  | undefinedSymbol s => "Unable to resolve symbol: " ++ s.name
  | thrown message => message
  | zeroStep => "range step cannot be zero"
  | integerOutOfRange context n => context ++ ": integer " ++ n.repr ++ " out of range"
  | noCode name => "native function '" ++ name ++ "' was not created by make_native_fn"
  | failed message => message

end Error

end Lisplet
