import Lisplet.Form.Binding
import Lisplet.Form.Case
import Lisplet.Form.Collection
import Lisplet.Form.Threading

/-!
Evaluation. `Context.evalForm` says what evaluating a form means in terms of evaluating others, and
`evalWith` ties the knot: it gives up after a number of nested evaluations, because a form can make
the evaluator go on for ever.
-/

namespace Lisplet

namespace Context

/-- `(quote form)`: the form as it is. -/
def evalQuote : List Value → Action Value
  | [form] => return form
  | forms => .raise (.arityExactly "quote" 1 forms.length)

/-- What a special form does with the forms it is written with. -/
def applySpecial (ctx : Context) (s : SpecialForm) (forms : List Value) : Action Value :=
  match s with
  | .case => ctx.evalCase forms
  | .map => ctx.evalMap forms
  | .filter => ctx.evalFilter forms
  | .reduce => ctx.evalReduce forms
  | .doseq => ctx.evalDoseq forms
  | .assign => ctx.evalAssign forms
  | .threadFirst => ctx.evalThread "->" .first forms
  | .threadLast => ctx.evalThread "->>" .last forms
  | .quote => evalQuote forms
  | .foreign name => .raise (.noCode name)

/-- Runs a special form, and keeps a record of it. -/
def callSpecial (ctx : Context) (s : SpecialForm) (forms : List Value) : Action Value := do
  .record (.called (.special s) forms)
  ctx.applySpecial s forms

/-- Calls a native, a function with values and a special form with forms. -/
def callNative (ctx : Context) : Native → List Value → Action Value
  | .fn f, args => ctx.callFunction f args
  | .special s, forms => ctx.callSpecial s forms

/-- Evaluates a list: its expansion if it is a macro call, and otherwise its head. A special form
takes the other items as they are; any other head is called with their values. -/
def evalCall (ctx : Context) (head : Value) (rest : List Value) : Action Value :=
  match ctx.host.expand? (.list (head :: rest)) with
  | some expansion => ctx.eval expansion
  | none => do
    match ← ctx.eval head with
    | .native (.special s) => ctx.callSpecial s rest
    | f => ctx.invoke f (← ctx.evalAll rest)

/-- Evaluates a form. Of a marked value only the mark goes, so that no part of it is evaluated. -/
def evalForm (ctx : Context) : Value → Action Value
  | .resolved v => return v
  | .symbol x => .resolve x
  | .vector forms => Value.vector <$> ctx.evalAll forms
  | .list (head :: rest) => ctx.evalCall head rest
  | v => return v

end Context

/-- Evaluates a form with at most `depth` evaluations inside each other. -/
def evalWith (host : Host) (printLength : Option Nat) : (depth : Nat) → Evaluator
  | 0, _ => throw .unfinished
  | n + 1, form => do
    .record (.evaluated form)
    Context.evalForm ⟨host, printLength, evalWith host printLength n⟩ form

/-- The context in which a host evaluates with at most `depth` evaluations inside each other. -/
def Host.context (host : Host) (printLength : Option Nat) (depth : Nat) : Context :=
  ⟨host, printLength, evalWith host printLength depth⟩

/-! ## Runs -/

theorem evalWith_symbol_run {s : State} (h : s.scope.resolve? x = some v) :
    (evalWith host limit (n + 1) (.symbol x)).run s =
      (.ok v, { s with events := .evaluated (.symbol x) :: s.events }) := by
  rw [evalWith, Action.run_record_bind, Context.evalForm, Action.run_resolve]
  simp only [h]

/-- A call of a special form by its name. -/
theorem evalWith_special_run {s : State}
    (hexpand : host.expand? (.list (.symbol x :: forms)) = none)
    (h : s.scope.resolve? x = some (.native (.special f))) :
    (evalWith host limit (n + 2) (.list (.symbol x :: forms))).run s =
      (Context.callSpecial ⟨host, limit, evalWith host limit (n + 1)⟩ f forms).run
        { s with events := .evaluated (.symbol x) :: .evaluated (.list (.symbol x :: forms)) ::
          s.events } := by
  rw [evalWith, Action.run_record_bind, Context.evalForm, Context.evalCall]
  simp only [hexpand]
  let t : State := { s with events := .evaluated (.list (.symbol x :: forms)) :: s.events }
  have ht : t.scope.resolve? x = some (.native (.special f)) := h
  rw [Action.run_bind_ok (evalWith_symbol_run ht)]

end Lisplet
