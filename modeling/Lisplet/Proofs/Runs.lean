import Lisplet.Function.Call
import Lisplet.Proofs.Answer

/-!
Actions one after the other. A row of actions runs from state to state and stops at the first one
that fails. Main statements: `run_mapM_eq_ok` and `run_mapM_eq_error`, for each of the two ways in
which a row of actions can end.
-/

namespace Lisplet

namespace Action

/-- The actions of the elements of a list are run in order, each from the state that the one before
has left, and all have results. -/
inductive Runs (act : α → Action β) : List α → State → List β → State → Prop
  | nil : Runs act [] s [] s
  | cons : (act x).run s = (.ok y, t) → Runs act xs t ys u → Runs act (x :: xs) s (y :: ys) u

variable {act : α → Action β}

theorem runs_nil_iff : Runs act [] s ys t ↔ ys = [] ∧ t = s := by
  constructor
  · rintro ⟨⟩
    exact ⟨rfl, rfl⟩
  · rintro ⟨rfl, rfl⟩
    exact .nil

theorem runs_cons_iff : Runs act (x :: xs) s zs u ↔
    ∃ y t ys, (act x).run s = (.ok y, t) ∧ Runs act xs t ys u ∧ zs = y :: ys := by
  constructor
  · rintro ⟨⟩
    exact ⟨_, _, _, ‹_›, ‹_›, rfl⟩
  · rintro ⟨y, t, ys, hx, hxs, rfl⟩
    exact .cons hx hxs

/-- There is one result for each element. -/
theorem Runs.length_eq (h : Runs act xs s ys t) : ys.length = xs.length := by
  induction h with
  | nil => rfl
  | cons _ _ ih => rw [List.length_cons, List.length_cons, ih]

theorem runs_map_iff {f : γ → α} : Runs act (xs.map f) s ys t ↔ Runs (act ∘ f) xs s ys t := by
  induction xs generalizing s ys with
  | nil => rw [List.map_nil, runs_nil_iff, runs_nil_iff]
  | cons x xs ih => simp only [List.map_cons, runs_cons_iff, ih, Function.comp_apply]

theorem run_mapM_eq_ok : (xs.mapM act).run s = (.ok ys, t) ↔ Runs act xs s ys t := by
  induction xs generalizing s ys with
  | nil =>
    rw [List.mapM_nil, run_pure, runs_nil_iff, Prod.mk.injEq, Except.ok.injEq]
    exact and_congr eq_comm eq_comm
  | cons x xs ih =>
    rw [List.mapM_cons, runs_cons_iff, run_bind_eq_ok]
    constructor
    · rintro ⟨y, u, hx, hxs⟩
      obtain ⟨ys, v, hys, hpure⟩ := run_bind_eq_ok.mp hxs
      cases hpure
      exact ⟨y, u, ys, hx, ih.mp hys, rfl⟩
    · rintro ⟨y, u, ys, hx, hxs, rfl⟩
      exact ⟨y, u, hx, run_bind_eq_ok.mpr ⟨ys, t, ih.mpr hxs, rfl⟩⟩

/-- A row of actions fails in one of them, and those behind it are not run. -/
theorem run_mapM_eq_error {xs : List α} : (xs.mapM act).run s = (.error e, t) ↔ ∃ i x ys u,
    xs[i]? = some x ∧ Runs act (xs.take i) s ys u ∧ (act x).run u = (.error e, t) := by
  induction xs generalizing s with
  | nil => simp
  | cons x xs ih =>
    rw [List.mapM_cons, run_bind_eq_error]
    constructor
    · rintro (hx | ⟨y, u, hx, hxs⟩)
      · exact ⟨0, x, [], s, rfl, .nil, hx⟩
      · rcases run_bind_eq_error.mp hxs with hxs | ⟨_, _, -, hpure⟩
        · obtain ⟨i, x', ys, v, hi, hys, hx'⟩ := ih.mp hxs
          exact ⟨i + 1, x', y :: ys, v, hi, .cons hx hys, hx'⟩
        · cases hpure
    · rintro ⟨i, x', ys, v, hi, hys, hx'⟩
      cases i with
      | zero =>
        cases hi
        cases hys
        exact .inl hx'
      | succ i =>
        obtain ⟨y, u, ys, hx, hxs, -⟩ := runs_cons_iff.mp hys
        exact .inr ⟨y, u, hx, run_bind_eq_error.mpr (.inl (ih.mpr ⟨i, x', ys, v, hi, hxs, hx'⟩))⟩

end Action

/-! ## Forms that have to be functions or sequences -/

namespace Context

variable {ctx : Context}

theorem evalFunction_run_eq_ok : (ctx.evalFunction form).run s = (.ok f, t) ↔
    (ctx.eval form).run s = (.ok f, t) ∧ f.isInvokable := by
  rw [evalFunction, Action.run_bind_eq_ok]
  constructor
  · rintro ⟨g, u, hg, hif⟩
    split at hif
    case isTrue h =>
      cases hif
      exact ⟨hg, h⟩
    case isFalse => cases hif
  · rintro ⟨hf, h⟩
    exact ⟨f, t, hf, by rw [if_pos h]; rfl⟩

/-- The form has no value, or its value is no function. -/
theorem evalFunction_run_eq_error : (ctx.evalFunction form).run s = (.error e, t) ↔
    (ctx.eval form).run s = (.error e, t) ∨ ∃ f u, (ctx.eval form).run s = (.ok f, u) ∧
      ¬f.isInvokable ∧ (.raise (.notInvokable f.typeName) : Action Value).run u = (.error e, t) := by
  rw [evalFunction, Action.run_bind_eq_error]
  refine or_congr_right (exists_congr fun f => exists_congr fun u => and_congr_right fun _ => ?_)
  split
  case isTrue h => exact iff_of_false nofun fun hf => hf.1 h
  case isFalse h => exact (and_iff_right h).symm

theorem evalElements_run_eq_ok : (ctx.evalElements name form).run s = (.ok vs, t) ↔
    ∃ v, (ctx.eval form).run s = (.ok v, t) ∧ v.realize name = .ok vs := by
  rw [evalElements, Action.run_bind_eq_ok]
  simp only [Action.run_ofOutcome, Prod.mk.injEq]
  constructor
  · rintro ⟨v, u, hv, hvs, ht⟩
    rw [hvs, Outcome.log_ok] at ht
    exact ⟨v, ht ▸ hv, hvs⟩
  · rintro ⟨v, hv, hvs⟩
    exact ⟨v, t, hv, hvs, by rw [hvs]; rfl⟩

/-- Walking a collection changes nothing, so it makes no difference whether the collections are
walked in between or after all the forms have been evaluated. -/
theorem runs_evalElements_iff : Action.Runs (ctx.evalElements name) forms s columns t ↔
    ∃ vs, Action.Runs ctx.eval forms s vs t ∧ vs.map (·.realize name) = columns.map .ok := by
  induction forms generalizing s columns with
  | nil =>
    simp only [Action.runs_nil_iff]
    constructor
    · rintro ⟨rfl, rfl⟩
      exact ⟨[], ⟨rfl, rfl⟩, rfl⟩
    · rintro ⟨vs, ⟨rfl, rfl⟩, hcolumns⟩
      exact ⟨List.map_eq_nil_iff.mp hcolumns.symm, rfl⟩
  | cons form forms ih =>
    simp only [Action.runs_cons_iff, evalElements_run_eq_ok, ih]
    constructor
    · rintro ⟨column, u, columns, ⟨v, hv, hcolumn⟩, ⟨vs, hvs, hcolumns⟩, rfl⟩
      refine ⟨v :: vs, ⟨v, u, vs, hv, hvs, rfl⟩, ?_⟩
      rw [List.map_cons, List.map_cons, hcolumn, hcolumns]
    · rintro ⟨_, ⟨v, u, vs, hv, hvs, rfl⟩, hcolumns⟩
      cases columns with
      | nil => cases hcolumns
      | cons column columns =>
        rw [List.map_cons, List.map_cons, List.cons.injEq] at hcolumns
        exact ⟨column, u, columns, ⟨v, hv, hcolumns.1⟩, ⟨vs, hvs, hcolumns.2⟩, rfl⟩

/-- The form has no value, or its value is no sequence, or one without an end. -/
theorem evalElements_run_eq_error : (ctx.evalElements name form).run s = (.error e, t) ↔
    (ctx.eval form).run s = (.error e, t) ∨ ∃ v u, (ctx.eval form).run s = (.ok v, u) ∧
      (v.asSeq? = none ∧
          (.raise (.typeIn name "seqable" v.typeName) : Action Value).run u = (.error e, t) ∨
        v.Endless ∧ (throw .unfinished : Action Value).run u = (.error e, t)) := by
  rw [evalElements, Action.run_bind_eq_error]
  refine or_congr_right (exists_congr fun v => exists_congr fun u => and_congr_right fun _ => ?_)
  rw [Value.realize, Value.Endless]
  cases v.asSeq? with
  | none => simp [Outcome.fail, Outcome.log, Outcome.error?]
  | some s =>
    cases hs : s.realize? with
    | none => simp [hs, Outcome.log, Outcome.error?]
    | some vs => simp [hs]

end Context

end Lisplet
