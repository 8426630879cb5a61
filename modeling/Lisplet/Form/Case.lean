import Lisplet.Context
import Lisplet.Value.Equality
import Lisplet.Value.Text

/-!
Choice by value: `(case subject key body ... default?)`.
-/

namespace Lisplet

/-- The form chosen for a value: the body of the first key that equals it, or else the form that is
left over when all others are paired. -/
def chosen? (v : Value) : List Value → Option Value
  | key :: body :: rest => if key == v then some body else chosen? v rest
  | [default] => some default
  | [] => none

/-- Evaluates the subject, then the form chosen for its value. Keys are compared as they are
written. -/
def Context.evalCase (ctx : Context) : List Value → Action Value
  | subject :: clause :: clauses => do
    let v ← ctx.eval subject
    match chosen? v (clause :: clauses) with
    | some form => ctx.eval form
    | none => .raise (.noMatchingClause (v.render ctx.printLength))
  | forms => .raise (.arityAtLeast "case" 2 forms.length)

end Lisplet
