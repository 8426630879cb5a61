import Lisplet.Form.Collection
import Lisplet.Proofs.Loop
import Lisplet.Proofs.Runs

/-!
The operands of functions on collections. The function form is evaluated and its value is checked
before the collection form is evaluated, and nothing else happens up to there. Main statements:
`evalOperands_run_iff`, and `walk_cases` for what the value of the collection form can be.
-/

namespace Lisplet

/-- A value can be walked to its end, or for ever, or not at all. -/
theorem Value.walk_cases (v : Value) : v.asSeq? = none ∨ v.Endless ∨ ∃ xs, v.HasElements xs := by
  cases hs : v.asSeq? with
  | none => exact .inl rfl
  | some s =>
    cases hxs : s.realize? with
    | none => exact .inr (.inl ⟨s, hs, hxs⟩)
    | some xs => exact .inr (.inr ⟨xs, s, hs, hxs⟩)

theorem Value.realize_of_asSeq?_eq_none {v : Value} (h : v.asSeq? = none) (name : String) :
    v.realize name = .fail (.typeIn name "seqable" v.typeName) := by
  rw [realize, h]

theorem Value.Endless.realize {v : Value} (h : v.Endless) (name : String) :
    v.realize name = .error .unfinished := by
  obtain ⟨s, hs, hxs⟩ := h
  simp only [Value.realize, hs, hxs]

namespace Context

/-- A function and the value of a collection form, which has not been walked yet. -/
def evalOperands (ctx : Context) (function collection : Value) : Action (Value × Value) := do
  let f ← ctx.evalFunction function
  let v ← ctx.eval collection
  return (f, v)

/-- The ways in which the evaluation of operands can end, each with its outcome and the state that
it leaves. -/
inductive OperandsRun (ctx : Context) (function collection : Value) (s : State) :
    Outcome (Value × Value) × State → Prop
  | function_fails : (ctx.eval function).run s = (.error e, t) →
      OperandsRun ctx function collection s (.error e, t)
  | not_invokable : (ctx.eval function).run s = (.ok f, t) → ¬f.isInvokable →
      OperandsRun ctx function collection s ((Action.raise (.notInvokable f.typeName)).run t)
  | collection_fails : (ctx.eval function).run s = (.ok f, t) → f.isInvokable →
      (ctx.eval collection).run t = (.error e, u) →
      OperandsRun ctx function collection s (.error e, u)
  | evaluated : (ctx.eval function).run s = (.ok f, t) → f.isInvokable →
      (ctx.eval collection).run t = (.ok v, u) →
      OperandsRun ctx function collection s (.ok (f, v), u)

variable {ctx : Context}

theorem OperandsRun.run_eq (h : OperandsRun ctx function collection s r) :
    (ctx.evalOperands function collection).run s = r := by
  cases h with
  | function_fails hf =>
    exact Action.run_bind_eq_error.mpr (.inl (evalFunction_run_eq_error.mpr (.inl hf)))
  | not_invokable hf hno =>
    exact Action.run_bind_eq_error.mpr
      (.inl (evalFunction_run_eq_error.mpr (.inr ⟨_, _, hf, hno, rfl⟩)))
  | collection_fails hf hok hc =>
    rw [evalOperands, Action.run_bind_ok (evalFunction_run_eq_ok.mpr ⟨hf, hok⟩)]
    exact Action.run_bind_eq_error.mpr (.inl hc)
  | evaluated hf hok hc =>
    rw [evalOperands, Action.run_bind_ok (evalFunction_run_eq_ok.mpr ⟨hf, hok⟩),
      Action.run_bind_ok hc]
    rfl

theorem exists_operandsRun (ctx : Context) (function collection : Value) (s : State) :
    ∃ r, OperandsRun ctx function collection s r := by
  rcases hf : (ctx.eval function).run s with ⟨e | f, t⟩
  · exact ⟨_, .function_fails hf⟩
  by_cases hok : f.isInvokable
  · rcases hc : (ctx.eval collection).run t with ⟨e | v, u⟩
    · exact ⟨_, .collection_fails hf hok hc⟩
    · exact ⟨_, .evaluated hf hok hc⟩
  · exact ⟨_, .not_invokable hf hok⟩

theorem evalOperands_run_iff :
    (ctx.evalOperands function collection).run s = r ↔ OperandsRun ctx function collection s r :=
  Action.run_eq_iff (exists_operandsRun ctx function collection s) fun _ => OperandsRun.run_eq

end Context

end Lisplet
