import Lisplet.Eval
import Lisplet.Proofs.Runs

/-!
What `map` does, step by step: one evaluation of the function form, one of each collection form, and
one call for each row of the table whose columns the collections are. Main statement:
`map_calls_along_rows`.
-/

namespace Lisplet

namespace Context

variable {ctx : Context}

/-! ## Ways in which `map` can end -/

/-- From `s` to `t` the function form is evaluated, which gives the function `f`, and then the
collection forms are. The columns are the elements of their values. -/
def Prepared (ctx : Context) (function : Value) (s : State) (f : Value) (forms : List Value)
    (columns : List (List Value)) (t : State) : Prop :=
  ∃ u vs, (ctx.eval function).run s = (.ok f, u) ∧ f.isInvokable ∧
    Action.Runs ctx.eval forms u vs t ∧ vs.map (·.realize "map") = columns.map .ok

/-- From `s` to `t` the function is called with the first `n` rows, and all calls have results. -/
def CallsRows (ctx : Context) (f : Value) (columns : List (List Value)) (n : Nat) (s : State)
    (results : List Value) (t : State) : Prop :=
  Action.Runs (fun i => ctx.invoke f (rowAt columns i)) (List.range n) s results t

/-- The ways in which `map` can end, each with its outcome and the state that it leaves. -/
inductive MapRun (ctx : Context) (function : Value) (forms : List Value) (s : State) :
    Outcome Value × State → Prop
  | function_fails : (ctx.eval function).run s = (.error e, t) →
      MapRun ctx function forms s (.error e, t)
  | not_invokable : (ctx.eval function).run s = (.ok f, t) → ¬f.isInvokable →
      MapRun ctx function forms s ((Action.raise (.notInvokable f.typeName)).run t)
  | collection_fails : Prepared ctx function s f (forms.take i) columns t →
      forms[i]? = some form → (ctx.eval form).run t = (.error e, u) →
      MapRun ctx function forms s (.error e, u)
  | not_seqable : Prepared ctx function s f (forms.take i) columns t →
      forms[i]? = some form → (ctx.eval form).run t = (.ok v, u) → v.asSeq? = none →
      MapRun ctx function forms s ((Action.raise (.typeIn "map" "seqable" v.typeName)).run u)
  | endless : Prepared ctx function s f (forms.take i) columns t →
      forms[i]? = some form → (ctx.eval form).run t = (.ok v, u) → v.Endless →
      MapRun ctx function forms s (.error .unfinished, u)
  | call_fails : Prepared ctx function s f forms columns t → i < shortest columns →
      CallsRows ctx f columns i t results u →
      (ctx.invoke f (rowAt columns i)).run u = (.error e, u') →
      MapRun ctx function forms s (.error e, u')
  | done : Prepared ctx function s f forms columns t →
      CallsRows ctx f columns (shortest columns) t results u →
      MapRun ctx function forms s (.ok (.list results), u)

theorem prepared_iff : Prepared ctx function s f forms columns t ↔
    ∃ u, (ctx.evalFunction function).run s = (.ok f, u) ∧
      Action.Runs (ctx.evalElements "map") forms u columns t := by
  simp only [Prepared, evalFunction_run_eq_ok, runs_evalElements_iff, and_assoc, exists_and_left]

theorem Prepared.columns_ne_nil (h : Prepared ctx function s f forms columns t)
    (hforms : forms ≠ []) : columns ≠ [] := by
  obtain ⟨u, -, hruns⟩ := prepared_iff.mp h
  rintro rfl
  exact hforms (List.length_eq_zero_iff.mp hruns.length_eq.symm)

theorem CallsRows.length_eq (h : CallsRows ctx f columns n s results t) : results.length = n := by
  rw [Action.Runs.length_eq h, List.length_range]

theorem run_rows_eq_ok {columns : List (List Value)} (h : columns ≠ []) :
    ((rows columns).mapM (ctx.invoke f)).run s = (.ok results, t) ↔
      CallsRows ctx f columns (shortest columns) s results t := by
  rw [rows_eq_map_rowAt h, Action.run_mapM_eq_ok, Action.runs_map_iff]
  rfl

theorem run_rows_eq_error {columns : List (List Value)} (h : columns ≠ []) :
    ((rows columns).mapM (ctx.invoke f)).run s = (.error e, t) ↔
      ∃ i results u, i < shortest columns ∧ CallsRows ctx f columns i s results u ∧
        (ctx.invoke f (rowAt columns i)).run u = (.error e, t) := by
  have htake {i : Nat} (hi : i < shortest columns) :
      ((List.range (shortest columns)).map (rowAt columns)).take i =
        (List.range i).map (rowAt columns) := by
    rw [← List.map_take, List.take_range, Nat.min_eq_left (Nat.le_of_lt hi)]
  rw [rows_eq_map_rowAt h, Action.run_mapM_eq_error]
  constructor
  · rintro ⟨i, row, results, u, hrow, hcalls, hfail⟩
    obtain ⟨hi, rfl⟩ := List.getElem?_eq_some_iff.mp hrow
    rw [List.length_map, List.length_range] at hi
    rw [List.getElem_map, List.getElem_range] at hfail
    rw [htake hi, Action.runs_map_iff] at hcalls
    exact ⟨i, results, u, hi, hcalls, hfail⟩
  · rintro ⟨i, results, u, hi, hcalls, hfail⟩
    refine ⟨i, rowAt columns i, results, u, by simp [hi], ?_, hfail⟩
    rw [htake hi, Action.runs_map_iff]
    exact hcalls

/-! ## Runs of `map` -/

theorem Prepared.evalMap_run (h : Prepared ctx function s f (collection :: collections) columns t) :
    (ctx.evalMap (function :: collection :: collections)).run s =
      (Value.list <$> (rows columns).mapM (ctx.invoke f)).run t := by
  obtain ⟨u, hf, hcolumns⟩ := prepared_iff.mp h
  rw [evalMap_cons_cons, Action.run_bind_ok hf,
    Action.run_bind_ok (Action.run_mapM_eq_ok.mpr hcolumns), bind_pure_comp]

/-- The forms behind the first one that gives no collection have no part in the run. -/
theorem Prepared.evalMap_run_of_error (h : Prepared ctx function s f (forms.take i) columns t)
    (hform : forms[i]? = some form) (hfail : (ctx.evalElements "map" form).run t = (.error e, u))
    (hforms : forms = collection :: collections) :
    (ctx.evalMap (function :: collection :: collections)).run s = (.error e, u) := by
  obtain ⟨w, hf, hcolumns⟩ := prepared_iff.mp h
  rw [evalMap_cons_cons, Action.run_bind_ok hf, ← hforms]
  exact Action.run_bind_eq_error.mpr
    (.inl (Action.run_mapM_eq_error.mpr ⟨i, form, columns, t, hform, hcolumns, hfail⟩))

theorem MapRun.run_eq (h : MapRun ctx function (collection :: collections) s r) :
    (ctx.evalMap (function :: collection :: collections)).run s = r := by
  have of_function_fails {e t} (h : (ctx.evalFunction function).run s = (.error e, t)) :
      (ctx.evalMap (function :: collection :: collections)).run s = (.error e, t) := by
    rw [evalMap_cons_cons]
    exact Action.run_bind_eq_error.mpr (.inl h)
  cases h with
  | function_fails hf => exact of_function_fails (evalFunction_run_eq_error.mpr (.inl hf))
  | not_invokable hf hno =>
    exact of_function_fails (evalFunction_run_eq_error.mpr (.inr ⟨_, _, hf, hno, rfl⟩))
  | collection_fails hp hform he =>
    exact hp.evalMap_run_of_error hform (evalElements_run_eq_error.mpr (.inl he)) rfl
  | not_seqable hp hform hv hno =>
    exact hp.evalMap_run_of_error hform
      (evalElements_run_eq_error.mpr (.inr ⟨_, _, hv, .inl ⟨hno, rfl⟩⟩)) rfl
  | endless hp hform hv hend =>
    exact hp.evalMap_run_of_error hform
      (evalElements_run_eq_error.mpr (.inr ⟨_, _, hv, .inr ⟨hend, rfl⟩⟩)) rfl
  | call_fails hp hi hcalls hfail =>
    rw [hp.evalMap_run, Action.run_map, (run_rows_eq_error
      (hp.columns_ne_nil (List.cons_ne_nil _ _))).mpr ⟨_, _, _, hi, hcalls, hfail⟩]
    rfl
  | done hp hcalls =>
    rw [hp.evalMap_run, Action.run_map,
      (run_rows_eq_ok (hp.columns_ne_nil (List.cons_ne_nil _ _))).mpr hcalls]
    rfl

theorem mapRun_of_error
    (h : (ctx.evalMap (function :: collection :: collections)).run s = (.error e, t)) :
    MapRun ctx function (collection :: collections) s (.error e, t) := by
  rw [evalMap_cons_cons] at h
  rcases Action.run_bind_eq_error.mp h with hf | ⟨f, u, hf, h⟩
  · rcases evalFunction_run_eq_error.mp hf with hf | ⟨f, u, hf, hno, hraise⟩
    · exact .function_fails hf
    · exact hraise ▸ .not_invokable hf hno
  rcases Action.run_bind_eq_error.mp h with hcolumns | ⟨columns, w, hcolumns, h⟩
  · obtain ⟨i, form, columns, w, hform, hcolumns, hfail⟩ := Action.run_mapM_eq_error.mp hcolumns
    have hp : Prepared ctx function s f ((collection :: collections).take i) columns w :=
      prepared_iff.mpr ⟨u, hf, hcolumns⟩
    rcases evalElements_run_eq_error.mp hfail with he | ⟨v, x, hv, ⟨hno, hraise⟩ | ⟨hend, hstop⟩⟩
    · exact .collection_fails hp hform he
    · exact hraise ▸ .not_seqable hp hform hv hno
    · cases hstop
      exact .endless hp hform hv hend
  · have hp : Prepared ctx function s f (collection :: collections) columns w :=
      prepared_iff.mpr ⟨u, hf, Action.run_mapM_eq_ok.mp hcolumns⟩
    have hne : columns ≠ [] := hp.columns_ne_nil (List.cons_ne_nil _ _)
    rcases Action.run_bind_eq_error.mp h with hcall | ⟨_, _, -, hpure⟩
    · obtain ⟨i, results, x, hi, hcalls, hfail⟩ := (run_rows_eq_error hne).mp hcall
      exact .call_fails hp hi hcalls hfail
    · cases hpure

theorem evalMap_run_eq_ok
    (h : (ctx.evalMap (function :: collection :: collections)).run s = (.ok v, t)) :
    ∃ f columns u results, Prepared ctx function s f (collection :: collections) columns u ∧
      CallsRows ctx f columns (shortest columns) u results t ∧ v = .list results := by
  rw [evalMap_cons_cons] at h
  obtain ⟨f, u, hf, h⟩ := Action.run_bind_eq_ok.mp h
  obtain ⟨columns, w, hcolumns, h⟩ := Action.run_bind_eq_ok.mp h
  obtain ⟨results, x, hcalls, hpure⟩ := Action.run_bind_eq_ok.mp h
  cases hpure
  have hp : Prepared ctx function s f (collection :: collections) columns w :=
    prepared_iff.mpr ⟨u, hf, Action.run_mapM_eq_ok.mp hcolumns⟩
  have hne : columns ≠ [] := hp.columns_ne_nil (List.cons_ne_nil _ _)
  exact ⟨f, columns, w, results, hp, (run_rows_eq_ok hne).mp hcalls, rfl⟩

theorem evalMap_run_iff :
    (ctx.evalMap (function :: collection :: collections)).run s = r ↔
      MapRun ctx function (collection :: collections) s r := by
  refine ⟨?_, MapRun.run_eq⟩
  rintro rfl
  rcases hr : (ctx.evalMap (function :: collection :: collections)).run s with ⟨e | v, t⟩
  · exact mapRun_of_error hr
  · obtain ⟨f, columns, u, results, hp, hcalls, rfl⟩ := evalMap_run_eq_ok hr
    exact .done hp hcalls

/-- Calls of the identity leave nothing behind but their record. -/
theorem identity_calls_run (hf : f.asFunction? = some .identity) (vs : List Value) (s : State) :
    ((vs.map ([·])).mapM (ctx.invoke f)).run s = (.ok vs, { s with
      events := (vs.map fun v => .called (.fn .identity) [v]).reverse ++ s.events }) := by
  induction vs generalizing s with
  | nil => rfl
  | cons v vs ih =>
    have hv : (ctx.invoke f [v]).run s =
        (.ok v, { s with events := .called (.fn .identity) [v] :: s.events }) := by
      rw [invoke, hf]
      rfl
    rw [List.map_cons, List.mapM_cons, Action.run_bind_ok hv, Action.run_bind_ok (ih _)]
    simp

/-- `map` ends in the ways that `MapRun` lists and in no others. What it gives is a list as long as
the shortest collection, and the identity gives the elements of a collection back as they are:
nothing but the calls happens to them. -/
theorem map_calls_along_rows (ctx : Context) (function collection : Value)
    (collections : List Value) (s : State) :
    (∀ r, (ctx.evalMap (function :: collection :: collections)).run s = r ↔
      MapRun ctx function (collection :: collections) s r) ∧
    (∀ v t, (ctx.evalMap (function :: collection :: collections)).run s = (.ok v, t) →
      ∃ f columns u results, Prepared ctx function s f (collection :: collections) columns u ∧
        v = .list results ∧ results.length = shortest columns) ∧
    ∀ f vs t, Prepared ctx function s f [collection] [vs] t → f.asFunction? = some .identity →
      (ctx.evalMap [function, collection]).run s = (.ok (.list vs), { t with
        events := (vs.map fun v => .called (.fn .identity) [v]).reverse ++ t.events }) := by
  refine ⟨fun r => evalMap_run_iff, fun v t h => ?_, fun f vs t hp hf => ?_⟩
  · obtain ⟨f, columns, u, results, hp, hcalls, rfl⟩ := evalMap_run_eq_ok h
    exact ⟨f, columns, u, results, hp, rfl, hcalls.length_eq⟩
  · rw [hp.evalMap_run, Action.run_map]
    exact congrArg (fun r => (r.1.map Value.list, r.2)) (identity_calls_run hf vs t)

/-- The third element of the longer collection goes into no call. -/
theorem map_calls_along_rows_ragged :
    let function : Value := .resolved (.native (.fn .list))
    let longer : Value := .resolved (.list [.int 1, .int 2, .int 3])
    let shorter : Value := .resolved (.vector [.int 4, .int 5])
    MapRun (Host.reference.context none 1) function [longer, shorter] (.initial .reference)
      (.ok (.list [.list [.int 1, .int 4], .list [.int 2, .int 5]]), ⟨.reference, 0,
        [.called (.fn .list) [.int 2, .int 5], .called (.fn .list) [.int 1, .int 4],
          .evaluated shorter, .evaluated longer, .evaluated function]⟩) :=
  ((map_calls_along_rows _ _ _ _ _).1 _).mp rfl

end Context

end Lisplet
