import Lisplet.Range
import Lisplet.Value.Concat
import Lisplet.Value.Convert

/-!
The built-in functions on a list of arguments: types and conversions, strings, ranges, the expansion
of macros, and raising errors.
-/

namespace Lisplet.Function

def applyType : List Value → Outcome Value
  | [v] => .ok (.type v.ty)
  | args => .fail (.arityExactly "type" 1 args.length)

def applyImplements : List Value → Outcome Value
  | [v, t] => do return .bool (← v.implements (← t.requireType "implements?"))
  | args => .fail (.arityExactly "implements?" 2 args.length)

def applyToType : List Value → Outcome Value
  | [v, t] => do v.toType (← t.requireType "to-type")
  | args => .fail (.arityExactly "to-type" 2 args.length)

def applyStr (limit : Option Nat) (args : List Value) : Outcome Value :=
  .ok (.makeString limit args)

/-- The start, the end and the step of a range: one argument is the end of a range from zero, two
are its ends, and a third one is its step. -/
def rangeBounds : List Value → Outcome (Int64 × Int64 × Int64)
  | [stop] => do return (0, ← stop.requireInt "range", 1)
  | [start, stop] => do return (← start.requireInt "range", ← stop.requireInt "range", 1)
  | [start, stop, step] => do
    return (← start.requireInt "range", ← stop.requireInt "range", ← step.requireInt "range")
  | args => .fail (.arityRange "range" 1 3 args.length)

def applyRange (args : List Value) : Outcome Value := do
  let (start, stop, step) ← rangeBounds args
  return .list ((← integerRange start stop step).map .int)

/-- A form after one expansion, or as it is when it is no macro call. -/
def expandOnce (expand? : Value → Option Value) (form : Value) : Value :=
  (expand? form.payload).getD form.payload

def applyMacroexpand (expand? : Value → Option Value) : List Value → Outcome Value
  | [form] => .ok (expandOnce expand? form)
  | args => .fail (.arityExactly "macroexpand" 1 args.length)

/-- The error that the arguments of `throw` raise. -/
def thrownBy (limit : Option Nat) (args : List Value) : Error := .thrown (Value.concat limit args)

end Lisplet.Function
