import Lisplet.Context
import Lisplet.Function.Arithmetic
import Lisplet.Function.Builtin
import Lisplet.Value.Generate

/-!
Calling functions with values.
-/

namespace Lisplet

namespace Function

def applyIdentity : List Value → Outcome Value
  | [v] => .ok v
  | args => .fail (.arityExactly "identity" 1 args.length)

/-- A recorder succeeds unless its first argument is the integer it fails on. -/
def applyRecorder (failOn : Int64) (args : List Value) : Outcome Value :=
  match args with
  | .int n :: _ =>
    if n = failOn then .fail (.thrown ("watcher failed on " ++ n.toInt.repr)) else .ok (.bool true)
  | _ => .ok (.bool true)

def applyCountdown (args : List Value) : Action Value := do
  let n ← .ofOutcome (oneInteger "countdown" args)
  return .countdown (← .freshIdentity) n

end Function

namespace Context

/-- What a call of a function does. -/
def apply (ctx : Context) (f : Function) (args : List Value) : Action Value :=
  match f with
  | .type => .ofOutcome (Function.applyType args)
  | .implements => .ofOutcome (Function.applyImplements args)
  | .toType => .ofOutcome (Function.applyToType args)
  | .str => .ofOutcome (Function.applyStr ctx.printLength args)
  | .range => .ofOutcome (Function.applyRange args)
  | .macroexpand => .ofOutcome (Function.applyMacroexpand ctx.host.expand? args)
  | .throw => .raise (Function.thrownBy ctx.printLength args)
  | .add => .ofOutcome (Function.applyAdd args)
  | .mul => .ofOutcome (Function.applyMul args)
  | .sub => .ofOutcome (Function.applySub args)
  | .inc => .ofOutcome (Function.applyInc args)
  | .isEven => .ofOutcome (Function.applyIsEven args)
  | .identity => .ofOutcome (Function.applyIdentity args)
  | .alwaysTrue => return .bool true
  | .alwaysFalse => return .bool false
  | .list => return .list args
  | .countdown => Function.applyCountdown args
  | .recorder _ failOn => .ofOutcome (Function.applyRecorder failOn args)
  | .hosted name slot =>
    match ctx.host.code? slot with
    | some code => code ctx.eval args
    | none => .raise (.noCode name)
  | .foreign name => .raise (.noCode name)

/-- Calls a function, and keeps a record of it. -/
def callFunction (ctx : Context) (f : Function) (args : List Value) : Action Value := do
  .record (.called (.fn f) args)
  ctx.apply f args

/-- Calls a value with values. Only functions can be called so, marked or not. -/
def invoke (ctx : Context) (f : Value) (args : List Value) : Action Value :=
  match f.asFunction? with
  | some g => ctx.callFunction g args
  | none => .raise (.notInvokable f.typeName)

end Context

end Lisplet
