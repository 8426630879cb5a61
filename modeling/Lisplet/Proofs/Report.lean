import Lisplet.Proofs.Agreement
import Lisplet.Proofs.Unmarked

/-!
Reports. A report of an action holds what a program can tell of it: the outcome, the scope and the
identities it leaves, and the natives it has called. Reports compose like the actions they are
about, and say nothing of what was on record before. Main statements: all evaluation in the
reference host has reports (`Host.reference_ignoresRecord`), and calls by name have those of their
parts (`evalWith_call_reports`, `evalWith_special_reports`).
-/

namespace Lisplet

/-! ## Calls -/

def Event.call? : Event → Option (Native × List Value)
  | .called n args => some (n, args)
  | .evaluated _ | .bound _ _ | .raised _ => none

/-- The calls in a record, the first call first. -/
def callsOf (log : List Event) : List (Native × List Value) := log.reverse.filterMap Event.call?

/-- The natives that have been called and what they were called with, the first call first. -/
def State.calls (s : State) : List (Native × List Value) := callsOf s.events

@[simp] theorem callsOf_append (newer older : List Event) :
    callsOf (newer ++ older) = callsOf older ++ callsOf newer := by
  simp [callsOf]

@[simp] theorem callsOf_log (o : Outcome α) : callsOf o.log = [] := by
  rcases o with (e | -) | a <;> rfl

/-- A form that is evaluated is no call. -/
theorem State.calls_evaluated (s : State) (form : Value) :
    ({ s with events := .evaluated form :: s.events } : State).calls = s.calls :=
  (callsOf_append [.evaluated form] s.events).trans (List.append_nil _)

/-- The arguments of a call, if it is one of the recorder `index`. -/
def recordedBy? (index : Nat) : Native × List Value → Option (List Value)
  | (.fn (.recorder i _), args) => if i = index then some args else none
  | _ => none

theorem recordedBy?_eq_none {c : Native × List Value} (h : c.1.isSpecial) (index : Nat) :
    recordedBy? index c = none := by
  obtain ⟨n, args⟩ := c
  cases n with
  | fn f => cases h
  | special s => rfl

theorem State.recorded_eq (s : State) (index : Nat) :
    s.recorded index = s.calls.filterMap (recordedBy? index) := by
  rw [recorded, calls, callsOf, List.filterMap_filterMap]
  congr 1
  funext e
  cases e with
  | called n args =>
    cases n with
    | fn f => cases f <;> rfl
    | special s => rfl
  | evaluated | bound | raised => rfl

/-! ## Reports -/

structure Report (α : Type) where
  outcome : Outcome α
  scope : Scope
  nextIdentity : Nat
  calls : List (Native × List Value)

/-- The report `r` is right for an action from the scope `scope`, when `k` is the next free identity
and whatever is on record. -/
def Action.Reports (a : Action α) (scope : Scope) (k : Nat) (r : Report α) : Prop :=
  ∀ events, ∃ log, callsOf log = r.calls ∧
    a.run ⟨scope, k, events⟩ = (r.outcome, ⟨r.scope, r.nextIdentity, log ++ events⟩)

namespace Action.Reports

theorem pure {a : α} : (pure a : Action α).Reports scope k ⟨.ok a, scope, k, []⟩ :=
  fun _ => ⟨[], rfl, rfl⟩

theorem bind {x : Action α} {f : α → Action β} (hx : x.Reports scope k ⟨.ok a, scope', k', calls⟩)
    (hf : (f a).Reports scope' k' ⟨o, scope'', k'', calls'⟩) :
    (x >>= f).Reports scope k ⟨o, scope'', k'', calls ++ calls'⟩ := by
  intro events
  obtain ⟨log, hcalls, hrun⟩ := hx events
  obtain ⟨log', hcalls', hrun'⟩ := hf (log ++ events)
  refine ⟨log' ++ log, ?_, ?_⟩
  · rw [callsOf_append, hcalls, hcalls']
  · rw [run_bind_ok hrun, hrun', List.append_assoc]

/-- After an action that calls nothing, the report is that of what follows. -/
theorem bind_quiet {x : Action α} {f : α → Action β}
    (hx : x.Reports scope k ⟨.ok a, scope', k', []⟩) (hf : (f a).Reports scope' k' r) :
    (x >>= f).Reports scope k r :=
  hx.bind hf

theorem bind_of_quiet {x : Action α} {f : α → Action β}
    (hx : x.Reports scope k ⟨.ok a, scope', k', calls⟩)
    (hf : (f a).Reports scope' k' ⟨o, scope'', k'', []⟩) :
    (x >>= f).Reports scope k ⟨o, scope'', k'', calls⟩ := by
  simpa using hx.bind hf

theorem bind_error {x : Action α} {f : α → Action β}
    (hx : x.Reports scope k ⟨.error e, scope', k', calls⟩) :
    (x >>= f).Reports scope k ⟨.error e, scope', k', calls⟩ := by
  intro events
  obtain ⟨log, hcalls, hrun⟩ := hx events
  refine ⟨log, hcalls, ?_⟩
  rw [run_bind, hrun]

theorem record : (record e).Reports scope k ⟨.ok (), scope, k, e.call?.toList⟩ := by
  refine fun events => ⟨[e], ?_, rfl⟩
  cases e <;> rfl

/-- A run tells what the report does. -/
theorem run_eq {a : Action α} {s : State} (h : a.Reports s.scope s.nextIdentity r) :
    (a.run s).1 = r.outcome ∧ (a.run s).2.scope = r.scope ∧
      (a.run s).2.nextIdentity = r.nextIdentity ∧ (a.run s).2.calls = s.calls ++ r.calls := by
  obtain ⟨log, hcalls, hrun⟩ := h s.events
  have hs : a.run s = _ := hrun
  rw [hs]
  refine ⟨rfl, rfl, rfl, ?_⟩
  rw [State.calls, callsOf_append, hcalls]
  rfl

end Action.Reports

/-! ## Hosts and functions that have reports -/

/-- What is on record makes no difference to evaluation in the host. -/
def Host.IgnoresRecord (host : Host) (limit : Option Nat) : Prop :=
  ∀ n form scope k, ∃ r, (evalWith host limit n form).Reports scope k r

/-- A run that is the same from all states that look alike has a report. -/
theorem Predicted.exists_reports {P : α → Prop} {a : Action α}
    (h : Predicted A P ⟨scope, k, []⟩ a) : ∃ r, a.Reports scope k r := by
  obtain ⟨o, k', log, -, -, hrun⟩ := h
  refine ⟨⟨o, scope.replay log, k', callsOf log⟩, fun events => ⟨log, rfl, ?_⟩⟩
  exact hrun ⟨scope, k, events⟩ ⟨rfl, fun _ _ => rfl⟩

theorem Host.reference_ignoresRecord (limit : Option Nat) : reference.IgnoresRecord limit := by
  intro n form scope k
  have hform : form.NamesIn fun _ => True := fun _ _ => trivial
  have hscope : scope.Closed fun _ => True := fun _ _ _ _ _ _ => trivial
  exact (predicted_evalWith limit n trivial trivial hform hscope).exists_reports

/-- With a budget of `m` or more, a call of the function neither reads nor writes the scope: the
arguments and the next free identity tell what comes of it. -/
def Function.IgnoresScope (host : Host) (limit : Option Nat) (m : Nat) (f : Function) : Prop :=
  ∀ args k, ∃ o k' calls, ∀ n ≥ m, ∀ scope,
    ((host.context limit n).apply f args).Reports scope k ⟨o, scope, k', calls⟩

theorem Function.ignoresScope_reference (limit : Option Nat) (m : Nat) (f : Function) :
    f.IgnoresScope .reference limit m := by
  intro args k
  obtain ⟨o, k', -, -, ha⟩ := f.exists_answers limit args k
  exact ⟨o, k', [], fun n _ scope events => ⟨o.log, callsOf_log o, ha _ _ rfl⟩⟩

/-! ## Evaluation of calls -/

/-- To invoke a value that is a function is to call the function. -/
theorem Context.invoke_eq_callFunction {ctx : Context} (hf : w.asFunction? = some f) :
    ctx.invoke w = ctx.callFunction f := by
  funext args
  rw [invoke, hf]

section
variable {host : Host} {limit : Option Nat}

theorem Host.expand?_call (hhost : host.expand? = expandInc?) (hx : x ≠ ⟨"inc!"⟩)
    (forms : List Value) : host.expand? (.list (.symbol x :: forms)) = none := by
  cases h : host.expand? (.list (.symbol x :: forms)) with
  | none => rfl
  | some g =>
    rw [hhost] at h
    obtain ⟨head, target, heq, hhead, -⟩ := expandInc?_eq_some.mp h
    cases heq
    exact absurd (of_decide_eq_true hhead) hx

/-- What is reported of a form is reported of its evaluation. -/
theorem evalWith_reports
    (h : ((host.context limit n).evalForm form).Reports scope k r) :
    (evalWith host limit (n + 1) form).Reports scope k r :=
  Action.Reports.record.bind_quiet h

theorem evalWith_symbol_reports (h : scope.resolve? x = some v) (k : Nat) :
    (evalWith host limit (n + 1) (.symbol x)).Reports scope k ⟨.ok v, scope, k, []⟩ := by
  refine evalWith_reports fun events => ⟨[], rfl, ?_⟩
  rw [Context.evalForm, Action.run_resolve]
  simp only [h]
  rfl

/-- A constant is evaluated to the value it stands for, and nothing else happens. -/
theorem evalWith_constant_reports {a : Value} (h : a.isConstant) (scope : Scope) (k : Nat) :
    (evalWith host limit (n + 1) a).Reports scope k ⟨.ok a.unmark, scope, k, []⟩ := by
  refine evalWith_reports ?_
  cases a with
  | symbol x | vector gs => cases h
  | list gs =>
    cases gs with
    | nil => exact .pure
    | cons g gs => cases h
  | _ => exact .pure

theorem evalAll_constants_reports {args : List Value} (h : ∀ a ∈ args, a.isConstant)
    (scope : Scope) (k : Nat) : ((host.context limit (n + 1)).evalAll args).Reports scope k
      ⟨.ok (args.map Value.unmark), scope, k, []⟩ := by
  rw [Context.evalAll]
  induction args with
  | nil => exact .pure
  | cons a args ih =>
    obtain ⟨ha, hargs⟩ := List.forall_mem_cons.mp h
    rw [List.mapM_cons]
    exact (evalWith_constant_reports ha scope k).bind_quiet ((ih hargs).bind_quiet .pure)

/-- A call of a function by its name, when it is no call of the macro. -/
theorem evalWith_function_reports (hexpand : host.expand? (.list (.symbol x :: forms)) = none)
    (hw : scope.resolve? x = some w) (hf : w.asFunction? = some f)
    (h : ((host.context limit (n + 1)).evalAll forms >>=
      (host.context limit (n + 1)).callFunction f).Reports scope k r) :
    (evalWith host limit (n + 2) (.list (.symbol x :: forms))).Reports scope k r := by
  refine evalWith_reports ?_
  replace hexpand : (host.context limit (n + 1)).host.expand? (.list (.symbol x :: forms)) = none :=
    hexpand
  rw [Context.evalForm, Context.evalCall]
  simp only [hexpand]
  refine Action.Reports.bind_quiet (evalWith_symbol_reports hw k) ?_
  have hspecial : ∀ s, w ≠ .native (.special s) := by
    rintro s rfl
    cases hf
  split
  case h_1 s => exact absurd rfl (hspecial s)
  case h_2 => rwa [Context.invoke_eq_callFunction hf]

/-- A call of a function by a name that is not the one of the macro. -/
theorem evalWith_call_reports (hhost : host.expand? = Host.expandInc?) (hx : x ≠ ⟨"inc!"⟩)
    (hw : scope.resolve? x = some w) (hf : w.asFunction? = some f)
    (h : ((host.context limit (n + 1)).evalAll forms >>=
      (host.context limit (n + 1)).callFunction f).Reports scope k r) :
    (evalWith host limit (n + 2) (.list (.symbol x :: forms))).Reports scope k r :=
  evalWith_function_reports (Host.expand?_call hhost hx forms) hw hf h

/-- A call of a special form by its name. -/
theorem evalWith_special_reports (hhost : host.expand? = Host.expandInc?) (hx : x ≠ ⟨"inc!"⟩)
    (hs : scope.resolve? x = some (.native (.special s)))
    (h : ((host.context limit (n + 1)).applySpecial s forms).Reports scope k r) :
    (evalWith host limit (n + 2) (.list (.symbol x :: forms))).Reports scope k
      { r with calls := (.special s, forms) :: r.calls } := by
  refine evalWith_reports ?_
  have hexpand : (host.context limit (n + 1)).host.expand? (.list (.symbol x :: forms)) = none :=
    Host.expand?_call hhost hx forms
  rw [Context.evalForm, Context.evalCall]
  simp only [hexpand]
  refine Action.Reports.bind_quiet (evalWith_symbol_reports hs k) ?_
  exact Action.Reports.record.bind h

end

end Lisplet
