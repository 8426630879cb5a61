import Lisplet.Context

/-!
Forms that write to the current scope: `doseq` and `set!`. What they have written stays.
-/

namespace Lisplet

/-- The symbol and the collection form of the vector `[symbol form]`. -/
def loopBinding (binding : Value) : Outcome (Symbol × Value) :=
  match binding.payload with
  | .vector [.symbol x, form] => .ok (x, form)
  | .vector [v, _] => .fail (.typeIn "doseq" "symbol" v.typeName)
  | v => .fail (.typeIn "doseq" "[symbol seq-form] binding" v.typeName)

theorem loopBinding_eq_ok : loopBinding b = .ok (x, g) ↔ b.payload = .vector [.symbol x, g] := by
  unfold loopBinding
  split
  case h_1 h => simp [h]
  case h_2 v _ hv h =>
    refine ⟨nofun, fun heq => ?_⟩
    rw [h] at heq
    cases heq
    exact absurd rfl (hv x)
  case h_3 hp _ => exact ⟨nofun, fun heq => absurd heq (hp x g)⟩

namespace Context

/-- One turn of a loop: binds the symbol to the element and evaluates the body. -/
def evalTurn (ctx : Context) (x : Symbol) (body : List Value) (v : Value) : Action Unit := do
  .bindSymbol x v
  body.forM fun form => discard (ctx.eval form)

/-- `(doseq [symbol form] body ...)`: evaluates the body once for each element. Which elements these
are is settled before the first turn. -/
def evalDoseq (ctx : Context) : List Value → Action Value
  | binding :: body => do
    let (x, form) ← .ofOutcome (loopBinding binding)
    let vs ← ctx.evalElements "doseq" form
    vs.forM (ctx.evalTurn x body)
    return .nil
  | [] => .raise (.arityAtLeast "doseq" 1 0)

/-- `(set! symbol form)`: binds a symbol, marked or not, to the value of a form. -/
def evalAssign (ctx : Context) : List Value → Action Value
  | target :: form :: _ =>
    match target.payload with
    | .symbol x => do
      let v ← ctx.eval form
      .bindSymbol x v
      return v
    | w => .raise (.typeIn "set!" "symbol" w.typeName)
  | forms => .raise (.arityAtLeast "set!" 2 forms.length)

end Context

end Lisplet
