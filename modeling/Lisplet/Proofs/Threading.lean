import Lisplet.Proofs.Fold
import Lisplet.Proofs.Pipeline

/-!
Threading as a fold. A value goes through any steps whatever, calls, functions and others, and each
step is rewritten with the value of the steps before it, until one fails. Main statement:
`threading_folds_rewriting`.
-/

namespace Lisplet

/-! ## Rewritten steps -/

/-- The place of the inserted value in a call that has had `n` items. -/
def Position.place : Position → Nat → Nat
  | first, _ => 1
  | last, n => n

/-- The call `items'` has the items of the call `items` in the same order, and the value `v` with a
mark in its place. -/
structure Spliced (p : Position) (items : List Value) (v : Value) (items' : List Value) : Prop where
  length_eq : items'.length = items.length + 1
  operator : items'.head? = items.head?
  /-- The mark that `v` comes with will do, and only an unmarked value gets one. -/
  marked : ∃ w, items'[p.place items.length]? = some (.resolved w) ∧ w.payload = v.payload ∧
    (v = .resolved w ∨ v.isMarked = false ∧ v = w)
  eraseIdx : items'.eraseIdx (p.place items.length) = items

theorem Value.mark_cases (v : Value) :
    ∃ w, v.mark = .resolved w ∧ (v = .resolved w ∨ v.isMarked = false ∧ v = w) := by
  cases v with
  | resolved w => exact ⟨w, rfl, .inl rfl⟩
  | _ => exact ⟨_, rfl, .inr ⟨rfl, rfl⟩⟩

theorem splice?_eq_insertIdx (p : Position) (operator : Value) (args : List Value) (v : Value) :
    splice? p (.list (operator :: args)) v =
      some (.list ((operator :: args).insertIdx (p.place (args.length + 1)) v.mark)) := by
  cases p with
  | first => rfl
  | last =>
    rw [Position.place, ← List.length_cons (a := operator), List.insertIdx_length_self]
    rfl

theorem splice?_isSome_iff {step v : Value} :
    (splice? p step v).isSome ↔ ∃ items, items ≠ [] ∧ step = .list items := by
  rw [Option.isSome_iff_exists]
  constructor
  · rintro ⟨form, h⟩
    obtain ⟨operator, args, rfl, -⟩ := splice?_eq_some.mp h
    exact ⟨_, List.cons_ne_nil operator args, rfl⟩
  · rintro ⟨items, hne, rfl⟩
    obtain ⟨operator, args, rfl⟩ := List.exists_cons_of_ne_nil hne
    exact ⟨_, splice?_eq_insertIdx p operator args v⟩

theorem Position.place_bounds (p : Position) (n : Nat) :
    0 < p.place (n + 1) ∧ p.place (n + 1) ≤ n + 1 := by
  cases p with
  | first => exact ⟨Nat.one_pos, Nat.le_add_left 1 n⟩
  | last => exact ⟨Nat.succ_pos n, Nat.le_refl _⟩

theorem spliced_of_splice? {step v form : Value} (h : splice? p step v = some form) :
    ∃ items items', step = .list items ∧ form = .list items' ∧ Spliced p items v items' := by
  obtain ⟨operator, args, rfl, -⟩ := splice?_eq_some.mp h
  rw [splice?_eq_insertIdx] at h
  refine ⟨operator :: args, _, rfl, (Option.some.inj h).symm, ?_⟩
  obtain ⟨hpos, hle⟩ := p.place_bounds args.length
  constructor
  · exact List.length_insertIdx_of_le_length hle _
  · obtain ⟨k, hk⟩ := Nat.exists_eq_succ_of_ne_zero (Nat.ne_of_gt hpos)
    rw [hk, List.insertIdx_succ_cons]
    rfl
  · obtain ⟨w, hw, hcases⟩ := v.mark_cases
    refine ⟨w, ?_, ?_, hcases⟩
    · rw [List.length_cons, List.getElem?_insertIdx_self, List.length_cons,
        if_pos hle, hw]
    · rw [← Value.payload_mark v, hw, Value.payload_resolved]
  · exact List.eraseIdx_insertIdx_self _

/-! ## Runs of pipelines -/

namespace Context

/-- What a step does with the value that comes to it. -/
inductive StepRun (ctx : Context) (p : Position) (v step : Value) (s : State) :
    Outcome Value × State → Prop
  | call : splice? p step v = some form → StepRun ctx p v step s ((ctx.eval form).run s)
  | function : splice? p step v = none → step.asFunction? = some f →
      StepRun ctx p v step s ((ctx.callFunction f [v]).run s)
  | refused : splice? p step v = none → step.asFunction? = none →
      StepRun ctx p v step s ((Action.raise (.notInvokable step.typeName)).run s)

/-- A value goes through all steps of a row, each from the state that the one before has left. -/
inductive Passes (ctx : Context) (p : Position) : Value → List Value → State → Value → State → Prop
  | nil : Passes ctx p v [] s v s
  | cons {steps : List Value} : StepRun ctx p v step s (.ok w, t) → Passes ctx p w steps t x u →
      Passes ctx p v (step :: steps) s x u

/-- The ways in which a pipeline can end, each with its outcome and the state that it leaves. The
steps behind one that fails have no part in it. -/
inductive ThreadRun (ctx : Context) (p : Position) (seed : Value) (steps : List Value) (s : State) :
    Outcome Value × State → Prop
  | seed_fails : (ctx.eval seed).run s = (.error e, t) → ThreadRun ctx p seed steps s (.error e, t)
  | step_fails : (ctx.eval seed).run s = (.ok v, t) → Passes ctx p v (steps.take i) t w u →
      steps[i]? = some step → StepRun ctx p w step u (.error e, u') →
      ThreadRun ctx p seed steps s (.error e, u')
  | done : (ctx.eval seed).run s = (.ok v, t) → Passes ctx p v steps t w u →
      ThreadRun ctx p seed steps s (.ok w, u)

variable {ctx : Context}

theorem StepRun.run_eq (h : StepRun ctx p v step s r) :
    (ctx.evalThreadStep p v step).run s = r := by
  cases h with
  | call hsplice => simp only [evalThreadStep, hsplice]
  | function hsplice hf => simp only [evalThreadStep, hsplice, invoke, hf]
  | refused hsplice hf => simp only [evalThreadStep, hsplice, invoke, hf]

theorem exists_stepRun (ctx : Context) (p : Position) (v step : Value) (s : State) :
    ∃ r, StepRun ctx p v step s r := by
  cases hsplice : splice? p step v with
  | some form => exact ⟨_, .call hsplice⟩
  | none =>
    cases hf : step.asFunction? with
    | some f => exact ⟨_, .function hsplice hf⟩
    | none => exact ⟨_, .refused hsplice hf⟩

theorem evalThreadStep_run_iff :
    (ctx.evalThreadStep p v step).run s = r ↔ StepRun ctx p v step s r :=
  Action.run_eq_iff (exists_stepRun ctx p v step s) fun _ => StepRun.run_eq

theorem passes_iff_folds {steps : List Value} :
    Passes ctx p v steps s w t ↔ Action.Folds (ctx.evalThreadStep p) v steps s w t := by
  constructor
  · intro h
    induction h with
    | nil => exact .nil
    | cons hstep _ ih => exact .cons hstep.run_eq ih
  · intro h
    induction h with
    | nil => exact .nil
    | cons hstep _ ih => exact .cons (evalThreadStep_run_iff.mp hstep) ih

theorem ThreadRun.run_eq {steps : List Value} (h : ThreadRun ctx p seed steps s r) :
    (ctx.evalThread name p (seed :: steps)).run s = r := by
  cases h with
  | seed_fails hseed => exact Action.run_bind_eq_error.mpr (.inl hseed)
  | step_fails hseed hpasses hstep hfail =>
    have hfold := Action.run_foldlM_eq_error.mpr
      ⟨_, _, _, _, passes_iff_folds.mp hpasses, hstep, hfail.run_eq⟩
    exact (Action.run_bind_ok hseed).trans hfold
  | done hseed hpasses =>
    have hfold := Action.run_foldlM_eq_ok.mpr (passes_iff_folds.mp hpasses)
    exact (Action.run_bind_ok hseed).trans hfold

theorem exists_threadRun (ctx : Context) (p : Position) (seed : Value) (steps : List Value)
    (s : State) : ∃ r, ThreadRun ctx p seed steps s r := by
  rcases hseed : (ctx.eval seed).run s with ⟨e | v, t⟩
  · exact ⟨_, .seed_fails hseed⟩
  rcases hfold : (steps.foldlM (ctx.evalThreadStep p) v).run t with ⟨e | w, u⟩
  · obtain ⟨i, step, w, t', hfolds, hstep, hfail⟩ := Action.run_foldlM_eq_error.mp hfold
    exact ⟨_, .step_fails hseed (passes_iff_folds.mpr hfolds) hstep
      (evalThreadStep_run_iff.mp hfail)⟩
  · exact ⟨_, .done hseed (passes_iff_folds.mpr (Action.run_foldlM_eq_ok.mp hfold))⟩

theorem applySpecial_form (ctx : Context) (p : Position) (forms : List Value) :
    ctx.applySpecial p.form forms = ctx.evalThread p.form.name p forms := by
  cases p <;> rfl

/-- Both threading forms are folds of the rewriting of one step. They end in the ways that
`ThreadRun` lists and in no others. Just the calls are rewritten, and a call that is rewritten has
gained the value with its one mark, and nothing else about it has changed. -/
theorem threading_folds_rewriting (ctx : Context) (p : Position) :
    (∀ seed steps s r, (ctx.applySpecial p.form (seed :: steps)).run s = r ↔
      ThreadRun ctx p seed steps s r) ∧
    (∀ step v, (splice? p step v).isSome ↔ ∃ items, items ≠ [] ∧ step = .list items) ∧
    ∀ step v form, splice? p step v = some form →
      ∃ items items', step = .list items ∧ form = .list items' ∧ Spliced p items v items' := by
  refine ⟨fun seed steps s r => ?_, fun _ _ => splice?_isSome_iff, fun _ _ _ => spliced_of_splice?⟩
  rw [applySpecial_form]
  exact Action.run_eq_iff (exists_threadRun ctx p seed steps s) fun _ => ThreadRun.run_eq

/-- A marked symbol is spliced as it is, a marked function is called, and the third step is neither
a call nor a function. -/
theorem threading_folds_rewriting_refused :
    let ctx := Host.reference.context none 3
    let s := State.initial .reference
    let v : Value := .resolved (.symbol ⟨"a"⟩)
    let items : List Value := [.symbol ⟨"list"⟩, .int 1]
    let steps : List Value := [.list items, .resolved (.native (.fn .identity)), .list [],
      .list [.symbol ⟨"str"⟩]]
    let r := (ctx.applySpecial .threadLast (.resolved v :: steps)).run s
    splice? .last (.list items) v = some (.list (items ++ [v])) ∧
      Spliced .last items v (items ++ [v]) ∧ (splice? .last (.list []) v).isSome = false ∧
      r.1 = .error (.raised (.notInvokable "list")) ∧
      r.2.calls = [(.fn .list, [.int 1, .symbol ⟨"a"⟩]),
        (.fn .identity, [.list [.int 1, .symbol ⟨"a"⟩]])] ∧
      ThreadRun ctx .last (.resolved v) steps s r := by
  intro ctx s v items steps r
  obtain ⟨hruns, hcalls, hspliced⟩ := threading_folds_rewriting ctx .last
  have hform : splice? .last (.list items) v = some (.list (items ++ [v])) := rfl
  obtain ⟨_, _, ⟨⟩, ⟨⟩, h⟩ := hspliced _ _ _ hform
  refine ⟨hform, h, ?_, rfl, rfl, (hruns _ _ _ _).mp rfl⟩
  rw [Bool.eq_false_iff, ne_eq, hcalls]
  rintro ⟨_, hne, ⟨⟩⟩
  exact hne rfl

end Context

end Lisplet
