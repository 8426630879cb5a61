import Lisplet.Action
import Lisplet.Value.Realize

/-!
What an operation can ask of its host: to evaluate forms, to expand macros, and to run the code the
host keeps for natives of its own. All operations of the language are written over an arbitrary
context, so nothing about them depends on how the host evaluates.
-/

namespace Lisplet

/-- A way of evaluating forms. -/
abbrev Evaluator := Value → Action Value

structure Host where
  /-- The expansion of a form that is a macro call. -/
  expand? : Value → Option Value
  /-- The code of the host's own natives. It can evaluate forms and is called with values. -/
  code? : Nat → Option (Evaluator → List Value → Action Value)

structure Context where
  host : Host
  /-- How many elements of a collection its text shows, if there is a bound. -/
  printLength : Option Nat
  eval : Evaluator

namespace Context

/-- Evaluates forms one after the other. -/
def evalAll (ctx : Context) (forms : List Value) : Action (List Value) := forms.mapM ctx.eval

/-- Evaluates a form whose value has to be a function. -/
def evalFunction (ctx : Context) (form : Value) : Action Value := do
  let f ← ctx.eval form
  if f.isInvokable then return f else .raise (.notInvokable f.typeName)

/-- Evaluates a form whose value has to be a sequence, and walks it to its end. -/
def evalElements (ctx : Context) (name : String) (form : Value) : Action (List Value) := do
  let v ← ctx.eval form
  .ofOutcome (v.realize name)

end Context

end Lisplet
