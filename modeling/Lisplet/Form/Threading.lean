import Lisplet.Function.Call

/-!
Threading: `->` and `->>` pass a value through a row of steps. A step that is a call gets the value
as one more argument, marked so that it is not evaluated again.
-/

namespace Lisplet

/-- Where a call gets the value: right behind the operator, or behind all arguments. -/
inductive Position where
  | first
  | last

/-- A call with `v` spliced into it. Only a list with an operator is a call. -/
def splice? (p : Position) (step v : Value) : Option Value :=
  match step with
  | .list (operator :: args) =>
    match p with
    | .first => some (.list (operator :: v.mark :: args))
    | .last => some (.list (operator :: (args ++ [v.mark])))
  | _ => none

theorem splice?_eq_some : splice? p step v = some g ↔ ∃ operator args,
    step = .list (operator :: args) ∧ (p = .first ∧ g = .list (operator :: v.mark :: args) ∨
      p = .last ∧ g = .list (operator :: (args ++ [v.mark]))) := by
  constructor
  · intro h
    unfold splice? at h
    split at h
    case h_1 operator args =>
      cases p with
      | first => exact ⟨operator, args, rfl, .inl ⟨rfl, (Option.some.inj h).symm⟩⟩
      | last => exact ⟨operator, args, rfl, .inr ⟨rfl, (Option.some.inj h).symm⟩⟩
    case h_2 => cases h
  · rintro ⟨operator, args, rfl, ⟨rfl, rfl⟩ | ⟨rfl, rfl⟩⟩
    · rfl
    · rfl

namespace Context

/-- Passes a value through one step: a call is evaluated with the value spliced in, and a function
that stands there as a value is called with it. -/
def evalThreadStep (ctx : Context) (p : Position) (v step : Value) : Action Value :=
  match splice? p step v with
  | some form => ctx.eval form
  | none => ctx.invoke step [v]

/-- `(-> seed step ...)` and `(->> seed step ...)`, by the name of the form. -/
def evalThread (ctx : Context) (name : String) (p : Position) : List Value → Action Value
  | seed :: steps => do steps.foldlM (ctx.evalThreadStep p) (← ctx.eval seed)
  | [] => .raise (.arityAtLeast name 1 0)

end Context

end Lisplet
