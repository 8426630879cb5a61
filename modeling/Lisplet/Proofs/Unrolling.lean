import Lisplet.Eval
import Lisplet.Proofs.Loop
import Lisplet.Proofs.Runs

/-!
A loop as a straight-line program. Which elements a loop visits is settled when it starts, so it can
be written out: a binding of its symbol to each of them in turn, with the body behind each binding.
Main statement: `doseq_equals_unrolling`.
-/

namespace Lisplet

/-! ## Straight-line programs -/

inductive Instruction where
  | bind (x : Symbol) (v : Value)
  | eval (form : Value)

/-- The program of a loop over the elements `vs`. -/
def unrolled (x : Symbol) (body vs : List Value) : List Instruction :=
  vs.flatMap fun v => .bind x v :: body.map .eval

theorem unrolled_cons (x : Symbol) (body : List Value) (v : Value) (vs : List Value) :
    unrolled x body (v :: vs) = .bind x v :: body.map .eval ++ unrolled x body vs :=
  List.flatMap_cons

theorem unrolled_append (x : Symbol) (body us vs : List Value) :
    unrolled x body (us ++ vs) = unrolled x body us ++ unrolled x body vs :=
  List.flatMap_append

namespace Context

/-- Carries out one instruction after the other up to the first failure. The values of the forms are
dropped, and the program has the value nil. -/
def execute (ctx : Context) : List Instruction → Action Value
  | [] => return .nil
  | .bind x v :: program => do
    .bindSymbol x v
    ctx.execute program
  | .eval form :: program => do
    let _ ← ctx.eval form
    ctx.execute program

/-- From `s` to `t` all instructions are carried out, and all forms have values. -/
inductive Executes (ctx : Context) : List Instruction → State → State → Prop
  | nil : Executes ctx [] s s
  | bind : Executes ctx program
        { s with scope := s.scope.bind x v, events := .bound x v :: s.events } t →
      Executes ctx (.bind x v :: program) s t
  | eval : (ctx.eval form).run s = (.ok w, t) → Executes ctx program t u →
      Executes ctx (.eval form :: program) s u

variable {ctx : Context}

theorem Executes.append (h : Executes ctx program s t) (h' : Executes ctx later t u) :
    Executes ctx (program ++ later) s u := by
  induction h with
  | nil => exact h'
  | bind _ ih => exact .bind (ih h')
  | eval hw _ ih => exact .eval hw (ih h')

/-- What has been carried out has no part in the run any more. -/
theorem Executes.execute_run (h : Executes ctx program s t) (later : List Instruction) :
    (ctx.execute (program ++ later)).run s = (ctx.execute later).run t := by
  induction h with
  | nil => rfl
  | bind _ ih => exact (Action.run_bind_ok rfl).trans ih
  | eval hw _ ih => exact (Action.run_bind_ok hw).trans ih

theorem discard_bind (x : Action α) (y : Action β) :
    (discard x >>= fun _ => y) = x >>= fun _ => y :=
  bind_map_left _ x _

theorem execute_body (ctx : Context) (body : List Value) (program : List Instruction) :
    ctx.execute (body.map .eval ++ program) = (do
      body.forM fun form => discard (ctx.eval form)
      ctx.execute program) := by
  induction body with
  | nil => simp
  | cons form body ih =>
    rw [List.map_cons, List.cons_append, execute, ih, List.forM_eq_forM, List.forM_cons,
      bind_assoc, discard_bind]

theorem execute_unrolled (ctx : Context) (x : Symbol) (body vs : List Value) :
    ctx.execute (unrolled x body vs) = (do
      vs.forM (ctx.evalTurn x body)
      return .nil) := by
  induction vs with
  | nil => simp [unrolled, execute]
  | cons v vs ih =>
    rw [unrolled_cons, List.cons_append, execute, execute_body, ih, List.forM_eq_forM,
      List.forM_cons, evalTurn]
    simp

/-! ## Runs of loops -/

/-- The ways in which a loop over `vs` can end, each with its outcome and the state that it leaves.
When a form fails, no element and no form behind it is reached, and nothing is taken back. -/
inductive LoopRun (ctx : Context) (x : Symbol) (body vs : List Value) (s : State) :
    Outcome Value × State → Prop
  | form_fails : vs = us ++ v :: ws → body = forms ++ form :: rest →
      Executes ctx (unrolled x body us ++ .bind x v :: forms.map .eval) s t →
      (ctx.eval form).run t = (.error e, u) → LoopRun ctx x body vs s (.error e, u)
  | done : Executes ctx (unrolled x body vs) s t → LoopRun ctx x body vs s (.ok .nil, t)

theorem LoopRun.run_eq (h : LoopRun ctx x body vs s r) :
    (ctx.execute (unrolled x body vs)).run s = r := by
  cases h with
  | @form_fails us v ws forms form rest t e u hvs hbody hexecutes hfail =>
    have hsplit : unrolled x body vs = (unrolled x body us ++ .bind x v :: forms.map .eval) ++
        .eval form :: (rest.map .eval ++ unrolled x body ws) := by
      rw [hvs, unrolled_append, unrolled_cons]
      simp [hbody]
    rw [hsplit, hexecutes.execute_run]
    exact Action.run_bind_eq_error.mpr (.inl hfail)
  | done hexecutes =>
    have hrun := hexecutes.execute_run []
    rwa [List.append_nil] at hrun

theorem LoopRun.cons (hturn : Executes ctx (.bind x v :: body.map .eval) s t)
    (h : LoopRun ctx x body vs t r) : LoopRun ctx x body (v :: vs) s r := by
  cases h with
  | @form_fails us w ws _ _ _ _ _ _ hvs hbody hexecutes hfail =>
    have hcons : v :: vs = (v :: us) ++ w :: ws := by rw [hvs, List.cons_append]
    refine .form_fails hcons hbody ?_ hfail
    rw [unrolled_cons, List.append_assoc]
    exact hturn.append hexecutes
  | done hexecutes =>
    refine .done ?_
    rw [unrolled_cons]
    exact hturn.append hexecutes

/-- A body is evaluated to its end, or up to a form that fails. -/
theorem executes_body_or_fails (ctx : Context) (body : List Value) (s : State) :
    (∃ t, Executes ctx (body.map .eval) s t) ∨
      ∃ forms form rest t e u, body = forms ++ form :: rest ∧
        Executes ctx (forms.map .eval) s t ∧ (ctx.eval form).run t = (.error e, u) := by
  induction body generalizing s with
  | nil => exact .inl ⟨s, .nil⟩
  | cons form body ih =>
    rcases hform : (ctx.eval form).run s with ⟨e | w, t⟩
    · exact .inr ⟨[], form, body, s, e, t, rfl, .nil, hform⟩
    rcases ih t with ⟨u, hbody⟩ | ⟨forms, failing, rest, u, e, u', rfl, hforms, hfail⟩
    · exact .inl ⟨u, .eval hform hbody⟩
    · exact .inr ⟨form :: forms, failing, rest, u, e, u', rfl, .eval hform hforms, hfail⟩

theorem exists_loopRun (ctx : Context) (x : Symbol) (body vs : List Value) (s : State) :
    ∃ r, LoopRun ctx x body vs s r := by
  induction vs generalizing s with
  | nil => exact ⟨_, .done .nil⟩
  | cons v vs ih =>
    let bound : State := { s with scope := s.scope.bind x v, events := .bound x v :: s.events }
    rcases executes_body_or_fails ctx body bound with
      ⟨t, hbody⟩ | ⟨forms, form, rest, t, e, u, hbody, hforms, hfail⟩
    · obtain ⟨r, h⟩ := ih t
      exact ⟨r, .cons (.bind hbody) h⟩
    · exact ⟨_, .form_fails (List.nil_append _).symm hbody (.bind hforms) hfail⟩

/-- A loop does what the program does that is made of its body and of the elements that its
collection has when the loop starts, whatever the body does to its names. It ends in the ways that
`LoopRun` lists and in no others; without elements it leaves the state that it has come to. -/
theorem doseq_equals_unrolling {ctx : Context} {binding form c : Value} {x : Symbol}
    (hbinding : binding.payload = .vector [.symbol x, form])
    (hform : (ctx.eval form).run s = (.ok c, t)) (hvs : c.HasElements vs) (body : List Value) :
    let r := (ctx.evalDoseq (binding :: body)).run s
    r = (ctx.execute (unrolled x body vs)).run t ∧
      (∀ r', r = r' ↔ LoopRun ctx x body vs t r') ∧ (vs = [] → r = (.ok .nil, t)) := by
  intro r
  have hr : r = (ctx.execute (unrolled x body vs)).run t := by
    have helements := evalElements_run_eq_ok.mpr ⟨c, hform, hvs.realize "doseq"⟩
    rw [execute_unrolled]
    change (ctx.evalDoseq (binding :: body)).run s = _
    rw [evalDoseq, loopBinding_eq_ok.mpr hbinding]
    exact Action.run_bind_ok helements
  refine ⟨hr, fun r' => ?_, ?_⟩
  · rw [hr]
    exact Action.run_eq_iff (exists_loopRun ctx x body vs t) fun _ => LoopRun.run_eq
  · rintro rfl
    exact hr

/-- The body binds the name of the collection to the element, and fails in the second turn. -/
theorem doseq_equals_unrolling_failing :
    let vs : List Value := [.int 1, .int 2, .int 3]
    let scope := (Scope.reference.bind ⟨"watch"⟩ (.native (.fn (.recorder 0 2)))).bind ⟨"items"⟩
      (.vector vs)
    let s := State.initial scope
    let t : State := ⟨scope, 0, [.evaluated (.symbol ⟨"items"⟩)]⟩
    let ctx := Host.reference.context none 2
    let binding : Value := .resolved (.vector [.symbol ⟨"x"⟩, .symbol ⟨"items"⟩])
    let body : List Value := [.list [.symbol ⟨"set!"⟩, .symbol ⟨"items"⟩, .symbol ⟨"x"⟩],
      .list [.symbol ⟨"watch"⟩, .symbol ⟨"x"⟩]]
    let r := (ctx.evalDoseq (binding :: body)).run s
    (binding.payload = .vector [.symbol ⟨"x"⟩, .symbol ⟨"items"⟩] ∧
        (ctx.eval (.symbol ⟨"items"⟩)).run s = (.ok (.vector vs), t) ∧
        (Value.vector vs).HasElements vs) ∧
      r.1 = .error (.raised (.thrown "watcher failed on 2")) ∧
      r.2.scope.resolve? ⟨"items"⟩ = some (.int 2) ∧
      r = (ctx.execute (unrolled ⟨"x"⟩ body vs)).run t ∧ LoopRun ctx ⟨"x"⟩ body vs t r := by
  intro vs scope s t ctx binding body r
  have hvs : (Value.vector vs).HasElements vs := ⟨.items vs, rfl, Sequence.realize?_items vs⟩
  have hbinding : binding.payload = .vector [.symbol ⟨"x"⟩, .symbol ⟨"items"⟩] := rfl
  have hform : (ctx.eval (.symbol ⟨"items"⟩)).run s = (.ok (.vector vs), t) := rfl
  obtain ⟨hprogram, hruns, -⟩ := doseq_equals_unrolling hbinding hform hvs body
  exact ⟨⟨hbinding, hform, hvs⟩, rfl, rfl, hprogram, (hruns r).mp rfl⟩

end Context

end Lisplet
