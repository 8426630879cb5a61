import Lisplet.Proofs.Report

/-!
Pipelines. A value that goes through a row of calls is marked and spliced at each of them, and comes
out as from the calls nested in one another: with the same outcome, after the same calls, in the
same scope. Main statement: `pipeline_means_nesting`.
-/

namespace Lisplet

/-! ## Steps -/

namespace Position

/-- The special form that threads a value through this position. -/
def form : Position → SpecialForm
  | first => .threadFirst
  | last => .threadLast

/-- Arguments with one more at this position. -/
def insert (p : Position) (a : α) (args : List α) : List α :=
  match p with
  | first => a :: args
  | last => args ++ [a]

theorem forall_mem_insert {p : Position} {P : α → Prop} :
    (∀ b ∈ p.insert a args, P b) ↔ P a ∧ ∀ b ∈ args, P b := by
  cases p <;> simp [insert, or_imp, forall_and, and_comm]

end Position

/-- A call with all arguments but one. -/
structure Step where
  operator : Symbol
  args : List Value

namespace Step

/-- The step as it stands in a pipeline. -/
def form (st : Step) : Value := .list (.symbol st.operator :: st.args)

/-- The call that the step makes with one more argument. -/
def call (p : Position) (g : Value) (st : Step) : Value :=
  .list (.symbol st.operator :: p.insert g st.args)

/-- What the operator of the step is called with when the one more argument has the value `v`. -/
def values (p : Position) (v : Value) (st : Step) : List Value :=
  p.insert v (st.args.map Value.unmark)

theorem splice?_form {v : Value} (hv : v.isMarked = false) (p : Position) (st : Step) :
    splice? p st.form v = some (st.call p (.resolved v)) := by
  rw [← Value.mark_of_not_isMarked hv]
  cases p <;> rfl

/-- A call by name, of a function that has nothing to do with scopes or marks, with constants for
arguments. -/
structure Plain (host : Host) (limit : Option Nat) (m : Nat) (scope : Scope) (st : Step) :
    Prop where
  operator : st.operator ≠ ⟨"inc!"⟩
  function : ∃ w f, scope.resolve? st.operator = some w ∧ w.asFunction? = some f ∧
    f.IgnoresScope host limit m ∧ f.KeepsUnmarked host limit
  args : ∀ a ∈ st.args, a.isConstant

end Step

section
variable {host : Host} {limit : Option Nat}

/-- The arguments of a call are evaluated with one among them that is no constant. -/
theorem evalAll_insert_reports {args : List Value} (hargs : ∀ a ∈ args, a.isConstant)
    (p : Position)
    (h : (evalWith host limit (n + 1) g).Reports scope k ⟨.ok v, scope', k', calls⟩) :
    ((host.context limit (n + 1)).evalAll (p.insert g args)).Reports scope k
      ⟨.ok (p.insert v (args.map Value.unmark)), scope', k', calls⟩ := by
  cases p with
  | first =>
    rw [Position.insert, Context.evalAll, List.mapM_cons]
    exact h.bind_of_quiet ((evalAll_constants_reports hargs scope' k').bind_quiet .pure)
  | last =>
    simp only [Position.insert, Context.evalAll, List.mapM_append, List.mapM_cons, List.mapM_nil,
      pure_bind, bind_assoc]
    exact (evalAll_constants_reports hargs scope k).bind_quiet (h.bind_of_quiet .pure)

theorem evalAll_insert_reports_error {args : List Value} (hargs : ∀ a ∈ args, a.isConstant)
    (p : Position)
    (h : (evalWith host limit (n + 1) g).Reports scope k ⟨.error e, scope', k', calls⟩) :
    ((host.context limit (n + 1)).evalAll (p.insert g args)).Reports scope k
      ⟨.error e, scope', k', calls⟩ := by
  cases p with
  | first =>
    rw [Position.insert, Context.evalAll, List.mapM_cons]
    exact h.bind_error
  | last =>
    simp only [Position.insert, Context.evalAll, List.mapM_append, List.mapM_cons, List.mapM_nil,
      pure_bind, bind_assoc]
    exact (evalAll_constants_reports hargs scope k).bind_quiet h.bind_error

theorem Step.Plain.isMarked_values (hst : Step.Plain host limit m scope st) (p : Position)
    {v : Value} (hv : v.isMarked = false) : ∀ w ∈ st.values p v, w.isMarked = false := by
  refine Position.forall_mem_insert.mpr ⟨hv, fun w hw => ?_⟩
  obtain ⟨a, ha, rfl⟩ := List.mem_map.mp hw
  exact Value.isMarked_unmark (hst.args a ha)

/-- The call of a step, when the one more argument is there and the function has answered. -/
theorem Step.Plain.call_reports (hst : Step.Plain host limit m scope₀ st)
    (hhost : host.expand? = Host.expandInc?) (hw : scope.resolve? st.operator = some w)
    (hf : w.asFunction? = some f)
    (hg : (evalWith host limit (n + 1) g).Reports scope k₀ ⟨.ok v, scope', k, calls⟩)
    (happly : ((host.context limit (n + 1)).apply f (st.values p v)).Reports scope' k
      ⟨o, scope', k', calls'⟩) :
    (evalWith host limit (n + 2) (st.call p g)).Reports scope k₀
      ⟨o, scope', k', calls ++ (.fn f, st.values p v) :: calls'⟩ := by
  refine evalWith_call_reports hhost hst.operator hw hf ?_
  exact (evalAll_insert_reports hst.args p hg).bind (Action.Reports.record.bind happly)

theorem Step.Plain.call_reports_error (hst : Step.Plain host limit m scope st)
    (hhost : host.expand? = Host.expandInc?)
    (hg : (evalWith host limit (n + 1) g).Reports scope k₀ ⟨.error e, scope', k, calls⟩) :
    (evalWith host limit (n + 2) (st.call p g)).Reports scope k₀ ⟨.error e, scope', k, calls⟩ := by
  obtain ⟨w, f, hw, hf, -⟩ := hst.function
  refine evalWith_call_reports hhost hst.operator hw hf ?_
  exact (evalAll_insert_reports_error hst.args p hg).bind_error

/-! ## Pipelines and nestings -/

/-- `(-> x (f a ..) ..)` or `(->> x (f a ..) ..)`. -/
def pipeline (p : Position) (x : Value) (steps : List Step) : Value :=
  .list (.symbol ⟨p.form.name⟩ :: x :: steps.map Step.form)

/-- `(.. (f x a ..) ..)` or `(.. (f a .. x) ..)`, the last step outermost. -/
def nesting (p : Position) (x : Value) (steps : List Step) : Value :=
  steps.foldl (fun g st => st.call p g) x

theorem nesting_reports_error {steps : List Step} (hhost : host.expand? = Host.expandInc?)
    (hsteps : ∀ st ∈ steps, st.Plain host limit m scope)
    (hg : (evalWith host limit (n + 1) g).Reports scope k₀ ⟨.error e, scope', k, calls⟩) :
    (evalWith host limit (n + 1 + steps.length) (nesting p g steps)).Reports scope k₀
      ⟨.error e, scope', k, calls⟩ := by
  induction steps generalizing g n with
  | nil => exact hg
  | cons st steps ih =>
    obtain ⟨hst, hsteps⟩ := List.forall_mem_cons.mp hsteps
    have h := ih hsteps (hst.call_reports_error (p := p) hhost hg)
    rwa [List.length_cons, Nat.add_comm steps.length 1, ← Nat.add_assoc]

/-- The induction is on the steps: the value `v`, with which the steps go on, is the value of the
form `g` that the first of them has around it in the nesting. -/
theorem steps_and_nesting_report {steps : List Step} (hhost : host.expand? = Host.expandInc?)
    (hsteps : ∀ st ∈ steps, st.Plain host limit m scope)
    (hkept : ∀ st ∈ steps, scope'.resolve? st.operator = scope.resolve? st.operator)
    (hv : v.isMarked = false) (hl : m ≤ l + 1) (hn : m ≤ n + 1)
    (hg : (evalWith host limit (n + 1) g).Reports scope k₀ ⟨.ok v, scope', k, calls⟩) :
    ∃ o k' calls',
      ((steps.map Step.form).foldlM ((host.context limit (l + 2)).evalThreadStep p) v).Reports
        scope' k ⟨o, scope', k', calls'⟩ ∧
      (evalWith host limit (n + 1 + steps.length) (nesting p g steps)).Reports scope k₀
        ⟨o, scope', k', calls ++ calls'⟩ := by
  induction steps generalizing g v k calls n with
  | nil => exact ⟨.ok v, k, [], .pure, by rwa [List.append_nil]⟩
  | cons st steps ih =>
    obtain ⟨hst, hsteps⟩ := List.forall_mem_cons.mp hsteps
    obtain ⟨hstkept, hkept⟩ := List.forall_mem_cons.mp hkept
    obtain ⟨w, f, hw, hf, hscope, hunmarked⟩ := hst.function
    obtain ⟨o, k', answer, happly⟩ := hscope (st.values p v) k
    have hcall := hst.call_reports hhost hw hf hg (happly (n + 1) hn scope')
    have hstep : ((host.context limit (l + 2)).evalThreadStep p v st.form).Reports scope' k
        ⟨o, scope', k', (.fn f, st.values p v) :: answer⟩ := by
      rw [Context.evalThreadStep, Step.splice?_form hv]
      have hspliced : (evalWith host limit (l + 1) (.resolved v)).Reports scope' k
          ⟨.ok v, scope', k, []⟩ :=
        evalWith_constant_reports (Value.isConstant_resolved hv) scope' k
      exact hst.call_reports hhost (hstkept.trans hw) hf hspliced (happly (l + 1) hl scope')
    rw [List.map_cons, List.foldlM_cons, List.length_cons, Nat.add_comm steps.length 1,
      ← Nat.add_assoc]
    cases o with
    | error e =>
      exact ⟨.error e, k', _, hstep.bind_error, nesting_reports_error hhost hsteps hcall⟩
    | ok v' =>
      have hv' : v'.isMarked = false := by
        obtain ⟨log, -, hrun⟩ := happly m (Nat.le_refl m) scope' []
        have hsat := hunmarked m _ ⟨scope', k, []⟩ (hst.isMarked_values p hv)
        rwa [hrun] at hsat
      obtain ⟨o, k'', calls', hfold, hnesting⟩ := ih hsteps hkept hv' (by omega) hcall
      refine ⟨o, k'', _, hstep.bind hfold, ?_⟩
      rw [List.append_assoc] at hnesting
      exact hnesting

/-- When the report of the seed is there, with an unmarked value if it has one, pipeline and nesting
have the same report but for the special form of the pipeline itself. -/
theorem pipeline_and_nesting_report {steps : List Step} (hhost : host.expand? = Host.expandInc?)
    (hthread : scope.resolve? ⟨p.form.name⟩ = some (.native (.special p.form)))
    (hsteps : ∀ st ∈ steps, st.Plain host limit (m + 1) scope)
    (hseed : (evalWith host limit (m + 2) x).Reports scope k ⟨o, scope', k', calls⟩)
    (hvalue : ∀ v, o = .ok v → v.isMarked = false ∧
      ∀ st ∈ steps, scope'.resolve? st.operator = scope.resolve? st.operator) :
    ∃ o k' calls,
      (evalWith host limit (m + 3) (pipeline p x steps)).Reports scope k
        ⟨o, scope', k', (.special p.form, x :: steps.map Step.form) :: calls⟩ ∧
      (evalWith host limit (m + 2 + steps.length) (nesting p x steps)).Reports scope k
        ⟨o, scope', k', calls⟩ := by
  let ctx := host.context limit (m + 2)
  let threaded : Action Value := evalWith host limit (m + 2) x >>= fun v =>
    (steps.map Step.form).foldlM (ctx.evalThreadStep p) v
  have hname : (⟨p.form.name⟩ : Symbol) ≠ ⟨"inc!"⟩ := by
    cases p <;> decide
  have hpipeline {r} (h : threaded.Reports scope k r) :
      (evalWith host limit (m + 3) (pipeline p x steps)).Reports scope k
        { r with calls := (.special p.form, x :: steps.map Step.form) :: r.calls } := by
    refine evalWith_special_reports hhost hname hthread ?_
    cases p <;> exact h
  cases o with
  | error e =>
    exact ⟨.error e, k', calls, hpipeline hseed.bind_error,
      nesting_reports_error hhost hsteps hseed⟩
  | ok v =>
    obtain ⟨hv, hkept⟩ := hvalue v rfl
    obtain ⟨o, k'', calls', hfold, hnesting⟩ := steps_and_nesting_report hhost hsteps hkept hv
      (Nat.le_refl (m + 1)) (Nat.le_succ (m + 1)) hseed
    exact ⟨o, k'', calls ++ calls', hpipeline (hseed.bind hfold), hnesting⟩

end

/-- A pipeline means nested application. From every state a pipeline has the outcome of its steps
nested in one another, leaves the same scope, and calls the same natives in the same order after its
own special form, whether all steps succeed or one fails. The budgets are those that leave the same
budget for the seed. -/
theorem pipeline_means_nesting {host : Host} {limit : Option Nat}
    (hhost : host.expand? = Host.expandInc?) (hrecord : host.IgnoresRecord limit) (m : Nat)
    (p : Position) (x : Value) (steps : List Step) (s : State)
    (hthread : s.scope.resolve? ⟨p.form.name⟩ = some (.native (.special p.form)))
    (hsteps : ∀ st ∈ steps, st.Plain host limit (m + 1) s.scope)
    (hx : ∀ v t, (evalWith host limit (m + 2) x).run s = (.ok v, t) → v.isMarked = false ∧
      ∀ st ∈ steps, t.scope.resolve? st.operator = s.scope.resolve? st.operator) :
    let r := (evalWith host limit (m + 3) (pipeline p x steps)).run s
    let r' := (evalWith host limit (m + 2 + steps.length) (nesting p x steps)).run s
    r.1 = r'.1 ∧ r.2.scope = r'.2.scope ∧ r.2.nextIdentity = r'.2.nextIdentity ∧
      ∃ calls, r'.2.calls = s.calls ++ calls ∧
        r.2.calls = s.calls ++ (.special p.form, x :: steps.map Step.form) :: calls := by
  intro r r'
  obtain ⟨⟨o, scope', k', calls⟩, hseed⟩ := hrecord (m + 2) x s.scope s.nextIdentity
  obtain ⟨log, -, hrun⟩ := hseed s.events
  obtain ⟨o, k', calls, hpipeline, hnesting⟩ :=
    pipeline_and_nesting_report hhost hthread hsteps hseed fun v hv => hx v _ (hv ▸ hrun)
  obtain ⟨ho, hscope, hk, hcalls⟩ := hpipeline.run_eq
  obtain ⟨ho', hscope', hk', hcalls'⟩ := hnesting.run_eq
  exact ⟨ho.trans ho'.symm, hscope.trans hscope'.symm, hk.trans hk'.symm, calls, hcalls', hcalls⟩

/-- A list of names is bound and goes through a pipeline, in which the last but one step fails. -/
theorem pipeline_means_nesting_failing :
    let watcher : Function := .recorder 0 7
    let s := State.initial (Scope.reference.bind ⟨"watch"⟩ (.native (.fn watcher)))
    let x : Value := .list [.symbol ⟨"set!"⟩, .symbol ⟨"y"⟩,
      .list [.symbol ⟨"quote"⟩, .list [.symbol ⟨"a"⟩, .symbol ⟨"b"⟩]]]
    let steps : List Step := [⟨⟨"list"⟩, [.resolved (.symbol ⟨"c"⟩)]⟩, ⟨⟨"watch"⟩, [.int 1]⟩,
      ⟨⟨"watch"⟩, [.int 7]⟩, ⟨⟨"str"⟩, []⟩]
    let r := (evalWith .reference none 4 (pipeline .last x steps)).run s
    let r' := (evalWith .reference none 7 (nesting .last x steps)).run s
    (s.scope.resolve? ⟨Position.last.form.name⟩ = some (.native (.special Position.last.form)) ∧
        (∀ st ∈ steps, st.Plain .reference none 2 s.scope) ∧
        ∀ v t, (evalWith .reference none 3 x).run s = (.ok v, t) → v.isMarked = false ∧
          ∀ st ∈ steps, t.scope.resolve? st.operator = s.scope.resolve? st.operator) ∧
      r.1 = .error (.raised (.thrown "watcher failed on 7")) ∧
      r.1 = r'.1 ∧ r.2.scope = r'.2.scope ∧ r.2.nextIdentity = r'.2.nextIdentity ∧
        ∃ calls, r'.2.calls = s.calls ++ calls ∧
          r.2.calls = s.calls ++ (.special .threadLast, x :: steps.map Step.form) :: calls := by
  intro watcher s x steps r r'
  have hplain {name f args} (hname : name ≠ "inc!")
      (hf : s.scope.resolve? ⟨name⟩ = some (.native (.fn f)))
      (hargs : ∀ a ∈ args, Value.isConstant a) :
      Step.Plain .reference none 2 s.scope ⟨⟨name⟩, args⟩ :=
    ⟨by simpa using hname, ⟨_, f, hf, rfl, f.ignoresScope_reference none 2,
      f.keepsUnmarked_reference none⟩, hargs⟩
  have hsteps : ∀ st ∈ steps, st.Plain .reference none 2 s.scope := by
    simp only [steps, List.forall_mem_cons]
    refine ⟨hplain (by decide) rfl ?_, hplain (by decide) rfl ?_, hplain (by decide) rfl ?_,
      hplain (by decide) rfl ?_, nofun⟩ <;> simp [Value.isConstant, Value.isMarked]
  have hx v t (h : (evalWith .reference none 3 x).run s = (.ok v, t)) : v.isMarked = false ∧
      ∀ st ∈ steps, t.scope.resolve? st.operator = s.scope.resolve? st.operator := by
    cases h
    simp only [steps, List.forall_mem_cons]
    exact ⟨rfl, rfl, rfl, rfl, rfl, nofun⟩
  have hthread : s.scope.resolve? ⟨"->>"⟩ = some (.native (.special .threadLast)) := rfl
  have hrecord := Host.reference_ignoresRecord none
  exact ⟨⟨hthread, hsteps, hx⟩, rfl,
    pipeline_means_nesting rfl hrecord 1 .last x steps s hthread hsteps hx⟩

end Lisplet
