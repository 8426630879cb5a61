import Lisplet.Proofs.Report

/-!
Loops and the functions on collections. A function that has nothing to do with scopes is called by a
loop, which finds it and its arguments by their names, as it is by a function on collections, which
holds them in its hands. Main statements: `map_and_doseq_visit_alike` for a loop that only calls,
and `reduce_agrees_with_loop` for one that keeps the results.
-/

namespace Lisplet

/-- A collection that can be walked and has the elements `vs`. -/
def Value.HasElements (v : Value) (vs : List Value) : Prop :=
  ∃ s, v.asSeq? = some s ∧ s.realize? = some vs

theorem Value.HasElements.realize {v : Value} (h : v.HasElements vs) (name : String) :
    v.realize name = .ok vs := Value.realize_eq_ok.mpr h

/-! ## Reports of the parts of a loop -/

namespace Action.Reports

theorem map {x : Action α} {f : α → β} (hx : x.Reports scope k ⟨o, scope', k', calls⟩) :
    (f <$> x).Reports scope k ⟨o.map f, scope', k', calls⟩ := by
  intro events
  obtain ⟨log, hcalls, hrun⟩ := hx events
  refine ⟨log, hcalls, ?_⟩
  rw [run_map, hrun]

theorem bindSymbol : (bindSymbol x v).Reports scope k ⟨.ok (), scope.bind x v, k, []⟩ :=
  fun _ => ⟨[.bound x v], rfl, rfl⟩

end Action.Reports

section
variable {host : Host} {limit : Option Nat}

theorem evalWith_resolved_reports (v : Value) (scope : Scope) (k : Nat) :
    (evalWith host limit (n + 1) (.resolved v)).Reports scope k ⟨.ok v, scope, k, []⟩ :=
  evalWith_reports .pure

theorem evalFunction_reports (hg : scope.resolve? g = some w) (hw : w.asFunction? = some f)
    (k : Nat) : ((host.context limit (n + 1)).evalFunction (.symbol g)).Reports scope k
      ⟨.ok w, scope, k, []⟩ := by
  have hinvokable : w.isInvokable := by rw [Value.isInvokable, hw]; rfl
  refine (evalWith_symbol_reports hg k).bind_quiet ?_
  rw [if_pos hinvokable]
  exact .pure

theorem evalElements_reports {v : Value} (h : v.HasElements vs) (name : String) (scope : Scope)
    (k : Nat) : ((host.context limit (n + 1)).evalElements name (.resolved v)).Reports scope k
      ⟨.ok vs, scope, k, []⟩ := by
  refine (evalWith_resolved_reports v scope k).bind_quiet ?_
  rw [h.realize]
  exact .pure

/-- Names are evaluated to what they are bound to. -/
theorem evalAll_symbols_reports {names : List Symbol}
    (h : names.map scope.resolve? = vs.map some) (k : Nat) :
    ((host.context limit (n + 1)).evalAll (names.map .symbol)).Reports scope k
      ⟨.ok vs, scope, k, []⟩ := by
  induction names generalizing vs with
  | nil =>
    obtain rfl := List.map_eq_nil_iff.mp h.symm
    exact .pure
  | cons x names ih =>
    cases vs with
    | nil => cases h
    | cons v vs =>
      obtain ⟨hv, hvs⟩ := List.cons.inj h
      rw [List.map_cons, Context.evalAll, List.mapM_cons]
      exact (evalWith_symbol_reports hv k).bind_quiet ((ih hvs).bind_quiet .pure)

/-- One turn of a loop with one form in its body. -/
theorem evalTurn_reports
    (h : (evalWith host limit n form).Reports (scope.bind x v) k ⟨o, scope', k', calls⟩) :
    ((host.context limit n).evalTurn x [form] v).Reports scope k
      ⟨o.map fun _ => (), scope', k', calls⟩ := by
  refine Action.Reports.bindSymbol.bind_quiet ?_
  cases o with
  | ok w => exact h.map.bind_of_quiet .pure
  | error e => exact h.map.bind_error

/-- An assignment of a form writes when the form has a value. -/
theorem evalWith_assign_reports (hhost : host.expand? = Host.expandInc?)
    (hassign : scope.resolve? ⟨"set!"⟩ = some (.native (.special .assign)))
    (h : (evalWith host limit (n + 1) form).Reports scope k ⟨o, scope', k', calls⟩) :
    (evalWith host limit (n + 2) (.list [.symbol ⟨"set!"⟩, .symbol x, form])).Reports scope k
      ⟨o, o.toOption.elim scope' (scope'.bind x), k',
        (.special .assign, [.symbol x, form]) :: calls⟩ := by
  refine evalWith_special_reports (r := ⟨_, _, _, calls⟩) hhost (by decide) hassign ?_
  cases o with
  | ok v => exact h.bind_of_quiet (Action.Reports.bindSymbol.bind_quiet .pure)
  | error e => exact h.bind_error

end

/-! ## Rows of calls -/

/-- A call of a function, and the calls in the course of it. -/
structure Visit where
  args : List Value
  inner : List (Native × List Value)

/-- What a visit of `f` puts on record. -/
def Visit.calls (f : Function) (v : Visit) : List (Native × List Value) :=
  (.fn f, v.args) :: v.inner

section
variable {host : Host} {limit : Option Nat} {f : Function}

theorem Function.IgnoresScope.exists_visit (hf : f.IgnoresScope host limit m) (args : List Value)
    (k : Nat) : ∃ o k' inner, ∀ n ≥ m, ∀ scope,
      ((host.context limit n).callFunction f args).Reports scope k
        ⟨o, scope, k', Visit.calls f ⟨args, inner⟩⟩ := by
  obtain ⟨o, k', inner, h⟩ := hf args k
  exact ⟨o, k', inner, fun n hn scope => Action.Reports.record.bind (h n hn scope)⟩

/-! ## Loops that only call -/

/-- The scope after a loop that has bound `x` to the elements `vs` in turn. -/
def Scope.bindLast (s : Scope) (x : Symbol) (vs : List Value) : Scope :=
  vs.getLast?.elim s (s.bind x)

theorem Scope.bindLast_cons (s : Scope) (x : Symbol) (v : Value) (vs : List Value) :
    s.bindLast x (v :: vs) = (s.bind x v).bindLast x vs := by
  rw [bindLast, bindLast, List.getLast?_cons]
  cases vs.getLast? with
  | none => rfl
  | some w => exact (s.bind_bind x v w).symm

/-- The induction is on the elements. Both ways visit the same ones, and the loop leaves its symbol
bound to the last of them. -/
theorem mapM_and_loop_report (hhost : host.expand? = Host.expandInc?)
    (hf : f.IgnoresScope host limit m) (hn : m ≤ n + 1) (hw : w.asFunction? = some f)
    (hinc : g ≠ ⟨"inc!"⟩) (hx : x ≠ g) (vs : List Value) (k : Nat) :
    ∃ o k' us, ∃ visits : List Visit, us <+: vs ∧ visits.map Visit.args = us.map ([·]) ∧
      (∀ ws, o = .ok ws → us = vs) ∧
      (∀ scope, ((vs.map ([·])).mapM ((host.context limit (n + 2)).invoke w)).Reports scope k
        ⟨o, scope, k', visits.flatMap (Visit.calls f)⟩) ∧
      ∀ scope, scope.resolve? g = some w →
        (vs.forM ((host.context limit (n + 2)).evalTurn x
          [.list [.symbol g, .symbol x]])).Reports scope k
            ⟨o.map fun _ => (), scope.bindLast x us, k', visits.flatMap (Visit.calls f)⟩ := by
  induction vs generalizing k with
  | nil => exact ⟨.ok [], k, [], [], List.prefix_rfl, rfl, fun _ _ => rfl, fun _ => .pure,
      fun _ _ => .pure⟩
  | cons v vs ih =>
    obtain ⟨o, k', inner, hvisit⟩ := hf.exists_visit [v] k
    let visit : Visit := ⟨[v], inner⟩
    have hturn (scope : Scope) (hg : scope.resolve? g = some w) :
        ((host.context limit (n + 2)).evalTurn x [.list [.symbol g, .symbol x]] v).Reports scope k
          ⟨o.map fun _ => (), scope.bind x v, k', visit.calls f⟩ := by
      have hg' : (scope.bind x v).resolve? g = some w :=
        (Scope.resolve?_bind_of_ne scope v (Ne.symm hx)).trans hg
      have hx' : (scope.bind x v).resolve? x = some v := Scope.resolve?_bind_self scope x v
      refine evalTurn_reports (evalWith_call_reports hhost hinc hg' hw ?_)
      have hnames : [x].map (scope.bind x v).resolve? = [v].map some := by simp
      exact (evalAll_symbols_reports hnames k).bind_quiet (hvisit (n + 1) hn _)
    have hinvoke (scope : Scope) : ((host.context limit (n + 2)).invoke w [v]).Reports scope k
        ⟨o, scope, k', visit.calls f⟩ := by
      rw [Context.invoke_eq_callFunction hw]
      exact hvisit (n + 2) (by omega) scope
    cases o with
    | error e =>
      refine ⟨.error e, k', [v], [visit], ⟨vs, rfl⟩, rfl, nofun, fun scope => ?_,
        fun scope hg => ?_⟩
      · rw [List.map_cons, List.mapM_cons, List.flatMap_singleton]
        exact (hinvoke scope).bind_error
      · rw [List.flatMap_singleton]
        exact (hturn scope hg).bind_error
    | ok w' =>
      obtain ⟨o, k'', us, visits, hus, hargs, hall, hmap, hloop⟩ := ih k'
      refine ⟨o.map (w' :: ·), k'', v :: us, visit :: visits, ?_, ?_, ?_, ?_, ?_⟩
      · exact List.cons_prefix_cons.mpr ⟨rfl, hus⟩
      · rw [List.map_cons, List.map_cons, hargs]
      · intro ws ho
        cases o with
        | ok ws' => rw [hall ws' rfl]
        | error e => cases ho
      · intro scope
        rw [List.map_cons, List.mapM_cons, List.flatMap_cons]
        simp only [bind_pure_comp]
        exact (hinvoke scope).bind (hmap scope).map
      · intro scope hg
        have hg' : (scope.bind x v).resolve? g = some w :=
          (Scope.resolve?_bind_of_ne scope v (Ne.symm hx)).trans hg
        have hdone : (o.map (w' :: ·)).map (fun _ => ()) = o.map fun _ => () := by cases o <;> rfl
        rw [Scope.bindLast_cons, List.flatMap_cons, hdone]
        exact (hturn scope hg).bind (hloop _ hg')

/-- A call of `map` with the name of a function and a collection that is there. -/
theorem evalWith_map_reports (hhost : host.expand? = Host.expandInc?)
    (hmap : scope.resolve? ⟨"map"⟩ = some (.native (.special .map)))
    (hg : scope.resolve? g = some w) (hw : w.asFunction? = some f) {collection : Value}
    (hvs : collection.HasElements vs)
    (h : ((vs.map ([·])).mapM ((host.context limit (n + 1)).invoke w)).Reports scope k
      ⟨o, scope', k', calls⟩) :
    (evalWith host limit (n + 2) (.list [.symbol ⟨"map"⟩, .symbol g, .resolved collection])).Reports
      scope k ⟨o.map .list, scope', k',
        (.special .map, [.symbol g, .resolved collection]) :: calls⟩ := by
  refine evalWith_special_reports (r := ⟨_, _, _, calls⟩) hhost (by decide) hmap ?_
  rw [Context.applySpecial, Context.evalMap_cons_cons]
  refine (evalFunction_reports hg hw k).bind_quiet ?_
  have hcolumns : ([.resolved collection].mapM ((host.context limit (n + 1)).evalElements
      "map")).Reports scope k ⟨.ok [vs], scope, k, []⟩ := by
    rw [List.mapM_cons]
    exact (evalElements_reports hvs "map" scope k).bind_quiet .pure
  refine hcolumns.bind_quiet ?_
  simp only [bind_pure_comp]
  exact h.map

/-- A loop over a collection that is there. -/
theorem evalWith_doseq_reports (hhost : host.expand? = Host.expandInc?)
    (hdoseq : scope.resolve? ⟨"doseq"⟩ = some (.native (.special .doseq))) {collection : Value}
    (hvs : collection.HasElements vs)
    (h : (vs.forM ((host.context limit (n + 1)).evalTurn x body)).Reports scope k
      ⟨o, scope', k', calls⟩) :
    (evalWith host limit (n + 2) (.list (.symbol ⟨"doseq"⟩ ::
      .vector [.symbol x, .resolved collection] :: body))).Reports scope k
        ⟨o.map fun _ => .nil, scope', k',
          (.special .doseq, .vector [.symbol x, .resolved collection] :: body) :: calls⟩ := by
  refine evalWith_special_reports (r := ⟨_, _, _, calls⟩) hhost (by decide) hdoseq ?_
  refine (evalElements_reports hvs "doseq" scope k).bind_quiet ?_
  simp only [bind_pure_comp]
  exact h.map

end

/-- `map` and a loop visit alike. A function that has nothing to do with scopes is called with the
same single arguments in the same order, and with the same success or error, by `map` over a
collection and by a loop whose body is a call with the loop symbol. The loop leaves that symbol
bound to the argument of the last call, and `map` leaves the scope as it was. -/
theorem map_and_doseq_visit_alike {host : Host} {limit : Option Nat}
    (hhost : host.expand? = Host.expandInc?) {f : Function} (hf : f.IgnoresScope host limit m)
    {g x : Symbol} (hinc : g ≠ ⟨"inc!"⟩) (hx : x ≠ g) {w collection : Value}
    (hw : w.asFunction? = some f) (hvs : collection.HasElements vs) (s : State)
    (hg : s.scope.resolve? g = some w)
    (hmap : s.scope.resolve? ⟨"map"⟩ = some (.native (.special .map)))
    (hdoseq : s.scope.resolve? ⟨"doseq"⟩ = some (.native (.special .doseq)))
    (hn : m ≤ n + 1) :
    let mapForms : List Value := [.symbol g, .resolved collection]
    let loopForms : List Value :=
      [.vector [.symbol x, .resolved collection], .list [.symbol g, .symbol x]]
    let r := (evalWith host limit (n + 3) (.list (.symbol ⟨"map"⟩ :: mapForms))).run s
    let r' := (evalWith host limit (n + 3) (.list (.symbol ⟨"doseq"⟩ :: loopForms))).run s
    ∃ us, ∃ visits : List Visit, us <+: vs ∧ visits.map Visit.args = us.map ([·]) ∧
      r.2.calls = s.calls ++ (.special .map, mapForms) :: visits.flatMap (Visit.calls f) ∧
      r'.2.calls = s.calls ++ (.special .doseq, loopForms) :: visits.flatMap (Visit.calls f) ∧
      r'.1 = r.1.map (fun _ => .nil) ∧ (∀ v, r.1 = .ok v → us = vs) ∧
      r.2.scope = s.scope ∧ r'.2.scope = s.scope.bindLast x us := by
  intro mapForms loopForms r r'
  obtain ⟨o, k', us, visits, hus, hargs, hall, hvisits, hloop⟩ :=
    mapM_and_loop_report hhost hf hn hw hinc hx vs s.nextIdentity
  have hmapping := evalWith_map_reports hhost hmap hg hw hvs (hvisits s.scope)
  have hlooping := evalWith_doseq_reports hhost hdoseq hvs (hloop s.scope hg)
  obtain ⟨ho, hscope, -, hcalls⟩ := hmapping.run_eq
  obtain ⟨ho', hscope', -, hcalls'⟩ := hlooping.run_eq
  refine ⟨us, visits, hus, hargs, hcalls, hcalls', ?_, ?_, hscope, hscope'⟩
  · rw [ho, ho']
    cases o <;> rfl
  · intro v hv
    rw [ho] at hv
    cases o with
    | ok ws => exact hall ws rfl
    | error e => cases hv

/-- The third of four calls fails. The elements before are a marked name and a call. -/
theorem map_and_doseq_visit_alike_failing :
    let f : Function := .recorder 0 7
    let w : Value := .native (.fn f)
    let s := State.initial (Scope.reference.bind ⟨"watch"⟩ w)
    let vs : List Value := [.resolved (.symbol ⟨"x"⟩), .list [.symbol ⟨"inc!"⟩, .symbol ⟨"x"⟩],
      .int 7, .int 8]
    let mapForms : List Value := [.symbol ⟨"watch"⟩, .resolved (.vector vs)]
    let loopForms : List Value := [.vector [.symbol ⟨"x"⟩, .resolved (.vector vs)],
      .list [.symbol ⟨"watch"⟩, .symbol ⟨"x"⟩]]
    let r := (evalWith .reference none 3 (.list (.symbol ⟨"map"⟩ :: mapForms))).run s
    let r' := (evalWith .reference none 3 (.list (.symbol ⟨"doseq"⟩ :: loopForms))).run s
    (f.IgnoresScope .reference none 0 ∧ (⟨"watch"⟩ : Symbol) ≠ ⟨"inc!"⟩ ∧
        (⟨"x"⟩ : Symbol) ≠ ⟨"watch"⟩ ∧ w.asFunction? = some f ∧ (Value.vector vs).HasElements vs ∧
        s.scope.resolve? ⟨"watch"⟩ = some w ∧
        s.scope.resolve? ⟨"map"⟩ = some (.native (.special .map)) ∧
        s.scope.resolve? ⟨"doseq"⟩ = some (.native (.special .doseq))) ∧
      r.1 = .error (.raised (.thrown "watcher failed on 7")) ∧
      r'.2.scope.resolve? ⟨"x"⟩ = some (.int 7) ∧
      ∃ us, ∃ visits : List Visit, us <+: vs ∧ visits.map Visit.args = us.map ([·]) ∧
        r.2.calls = s.calls ++ (.special .map, mapForms) :: visits.flatMap (Visit.calls f) ∧
        r'.2.calls = s.calls ++ (.special .doseq, loopForms) :: visits.flatMap (Visit.calls f) ∧
        r'.1 = r.1.map (fun _ => .nil) ∧ (∀ v, r.1 = .ok v → us = vs) ∧
        r.2.scope = s.scope ∧ r'.2.scope = s.scope.bindLast ⟨"x"⟩ us := by
  intro f w s vs mapForms loopForms r r'
  have hf : f.IgnoresScope .reference none 0 := f.ignoresScope_reference none 0
  have hinc : (⟨"watch"⟩ : Symbol) ≠ ⟨"inc!"⟩ := by decide
  have hx : (⟨"x"⟩ : Symbol) ≠ ⟨"watch"⟩ := by decide
  have hvs : (Value.vector vs).HasElements vs := ⟨.items vs, rfl, Sequence.realize?_items vs⟩
  exact ⟨⟨hf, hinc, hx, rfl, hvs, rfl, rfl, rfl⟩, rfl, rfl,
    map_and_doseq_visit_alike (n := 0) rfl hf hinc hx rfl hvs s rfl rfl rfl (Nat.zero_le 1)⟩

/-! ## Loops that keep the results -/

/-- The forms of `(set! acc (g acc x))` behind its operator. -/
def accumulation (g acc x : Symbol) : List Value :=
  [.symbol acc, .list [.symbol g, .symbol acc, .symbol x]]

/-- What a visit puts on record in a turn that keeps the result. -/
def Visit.turnCalls (f : Function) (g acc x : Symbol) (v : Visit) : List (Native × List Value) :=
  (.special .assign, accumulation g acc x) :: v.calls f

/-- What a loop that keeps its results in `acc` finds at the start of a turn. -/
structure Scope.Accumulates (g acc : Symbol) (w a : Value) (scope : Scope) : Prop where
  function : scope.resolve? g = some w
  assign : scope.resolve? ⟨"set!"⟩ = some (.native (.special .assign))
  accumulator : scope.resolve? acc = some a

theorem Scope.Accumulates.bind_element {scope : Scope} (h : scope.Accumulates g acc w a)
    (hnames : [g, acc, x, ⟨"set!"⟩].Nodup) (b : Value) :
    (scope.bind x b).Accumulates g acc w a := by
  have hkeeps {y : Symbol} (hy : y ≠ x) : (scope.bind x b).resolve? y = scope.resolve? y :=
    scope.resolve?_bind_of_ne b hy
  simp only [List.nodup_cons, List.mem_cons, not_or] at hnames
  exact {
    function := (hkeeps hnames.1.2.1).trans h.function
    assign := (hkeeps (Ne.symm hnames.2.2.1.1)).trans h.assign
    accumulator := (hkeeps hnames.2.1.1).trans h.accumulator }

theorem Scope.accumulates_bind {scope : Scope} (hg : scope.resolve? g = some w)
    (hassign : scope.resolve? ⟨"set!"⟩ = some (.native (.special .assign)))
    (hnames : [g, acc, x, ⟨"set!"⟩].Nodup) (v : Value) :
    (scope.bind acc v).Accumulates g acc w v := by
  have hkeeps {y : Symbol} (hy : y ≠ acc) : (scope.bind acc v).resolve? y = scope.resolve? y :=
    scope.resolve?_bind_of_ne v hy
  simp only [List.nodup_cons, List.mem_cons, not_or] at hnames
  exact {
    function := (hkeeps hnames.1.1).trans hg
    assign := (hkeeps (Ne.symm hnames.2.1.2.1)).trans hassign
    accumulator := scope.resolve?_bind_self acc v }

section
variable {host : Host} {limit : Option Nat} {f : Function}

/-- The function is called with what `acc` is bound to and with the element. -/
theorem Scope.Accumulates.call_reports (hhost : host.expand? = Host.expandInc?)
    (hw : w.asFunction? = some f) {scope : Scope} (h : scope.Accumulates g acc w a)
    (hx : scope.resolve? x = some b)
    (hcall : ((host.context limit (n + 1)).callFunction f [a, b]).Reports scope k r) :
    (evalWith host limit (n + 2) (.list [.symbol g, .symbol acc, .symbol x])).Reports
      scope k r := by
  have hexpand : host.expand? (.list [.symbol g, .symbol acc, .symbol x]) = none := by
    rw [hhost]
    rfl
  refine evalWith_function_reports hexpand h.function hw ?_
  have hnames : [acc, x].map scope.resolve? = [a, b].map some := by simp [h.accumulator, hx]
  exact (evalAll_symbols_reports hnames k).bind_quiet hcall

/-- The induction is on the elements: what the fold has so far is what `acc` is bound to. When a
call fails, that stays as it was passed to the call. -/
theorem fold_and_loop_report (hhost : host.expand? = Host.expandInc?)
    (hf : f.IgnoresScope host limit m) (hn : m ≤ n + 1) (hw : w.asFunction? = some f)
    (hnames : [g, acc, x, ⟨"set!"⟩].Nodup) (vs : List Value) (a : Value) (k : Nat) :
    ∃ o k', ∃ visits : List Visit,
      (∀ scope, ((host.context limit (n + 3)).fold w a vs).Reports scope k
        ⟨o, scope, k', visits.flatMap (Visit.calls f)⟩) ∧
      ∀ scope : Scope, scope.Accumulates g acc w a → ∃ scope',
        (vs.forM ((host.context limit (n + 3)).evalTurn x
          [.list (.symbol ⟨"set!"⟩ :: accumulation g acc x)])).Reports scope k
            ⟨o.map fun _ => (), scope', k', visits.flatMap (Visit.turnCalls f g acc x)⟩ ∧
        (∀ v, o = .ok v → scope'.resolve? acc = some v) ∧
        ∀ e, o = .error e → ∃ a b inner, visits.getLast? = some ⟨[a, b], inner⟩ ∧
          scope'.resolve? acc = some a := by
  induction vs generalizing a k with
  | nil =>
    refine ⟨.ok a, k, [], fun _ => .pure, fun scope h => ⟨scope, .pure, ?_, nofun⟩⟩
    rintro v ⟨⟩
    exact h.accumulator
  | cons b vs ih =>
    obtain ⟨o, k', inner, hvisit⟩ := hf.exists_visit [a, b] k
    let visit : Visit := ⟨[a, b], inner⟩
    have hinvoke (scope : Scope) : ((host.context limit (n + 3)).invoke w [a, b]).Reports scope k
        ⟨o, scope, k', visit.calls f⟩ := by
      rw [Context.invoke_eq_callFunction hw]
      exact hvisit (n + 3) (by omega) scope
    have hcall {scope : Scope} (h : scope.Accumulates g acc w a) :
        (evalWith host limit (n + 2) (.list [.symbol g, .symbol acc, .symbol x])).Reports
          (scope.bind x b) k ⟨o, scope.bind x b, k', visit.calls f⟩ :=
      (h.bind_element hnames b).call_reports hhost hw (scope.resolve?_bind_self x b)
        (hvisit (n + 1) hn _)
    cases o with
    | error e =>
      refine ⟨.error e, k', [visit], fun scope => ?_, fun scope h => ?_⟩
      · rw [List.flatMap_singleton]
        exact (hinvoke scope).bind_error
      · have h' := h.bind_element hnames b
        refine ⟨scope.bind x b, ?_, nofun, fun _ _ => ⟨a, b, inner, rfl, h'.accumulator⟩⟩
        rw [List.flatMap_singleton]
        have hassign := evalWith_assign_reports (x := acc) hhost h'.assign (hcall h)
        exact (evalTurn_reports hassign).bind_error
    | ok v =>
      obtain ⟨o, k'', visits, hfold, hloop⟩ := ih v k'
      refine ⟨o, k'', visit :: visits, fun scope => ?_, fun scope h => ?_⟩
      · rw [List.flatMap_cons]
        exact (hinvoke scope).bind (hfold scope)
      · have h' := h.bind_element hnames b
        have hnext := Scope.accumulates_bind h'.function h'.assign hnames v
        obtain ⟨scope', hrest, hok, herror⟩ := hloop _ hnext
        refine ⟨scope', ?_, hok, fun e he => ?_⟩
        · rw [List.flatMap_cons]
          have hassign := evalWith_assign_reports (x := acc) hhost h'.assign (hcall h)
          exact (evalTurn_reports hassign).bind hrest
        · obtain ⟨a', b', inner', hlast, hacc⟩ := herror e he
          exact ⟨a', b', inner', by rw [List.getLast?_cons, hlast]; rfl, hacc⟩

end

theorem evalWith_reduce_reports {host : Host} {limit : Option Nat}
    (hhost : host.expand? = Host.expandInc?)
    (hreduce : scope.resolve? ⟨"reduce"⟩ = some (.native (.special .reduce)))
    (hg : scope.resolve? g = some w) (hw : w.asFunction? = some f) {seed collection : Value}
    (hvs : collection.HasElements vs)
    (h : ((host.context limit (n + 1)).fold w seed vs).Reports scope k ⟨o, scope', k', calls⟩) :
    (evalWith host limit (n + 2) (.list [.symbol ⟨"reduce"⟩, .symbol g, .resolved seed,
      .resolved collection])).Reports scope k ⟨o, scope', k',
        (.special .reduce, [.symbol g, .resolved seed, .resolved collection]) :: calls⟩ := by
  refine evalWith_special_reports (r := ⟨_, _, _, calls⟩) hhost (by decide) hreduce ?_
  refine (evalFunction_reports hg hw k).bind_quiet ?_
  refine (evalElements_reports hvs "reduce" scope k).bind_quiet ?_
  exact (evalWith_resolved_reports seed scope k).bind_quiet h

/-- `reduce` agrees with the loop that keeps what it has so far in a symbol. A function that has
nothing to do with scopes is called with the same arguments in the same order. The fold has the
value that the symbol is bound to when the loop has succeeded. When a call fails, both fail with its
error, and the symbol is bound to what the call was passed. -/
theorem reduce_agrees_with_loop {host : Host} {limit : Option Nat}
    (hhost : host.expand? = Host.expandInc?) {f : Function} (hf : f.IgnoresScope host limit m)
    {g acc x : Symbol} (hnames : [g, acc, x, ⟨"set!"⟩, ⟨"doseq"⟩, ⟨"reduce"⟩].Nodup)
    {w collection : Value} (hw : w.asFunction? = some f) (hvs : collection.HasElements vs)
    (seed : Value) (s : State) (hg : s.scope.resolve? g = some w)
    (hassign : s.scope.resolve? ⟨"set!"⟩ = some (.native (.special .assign)))
    (hdoseq : s.scope.resolve? ⟨"doseq"⟩ = some (.native (.special .doseq)))
    (hreduce : s.scope.resolve? ⟨"reduce"⟩ = some (.native (.special .reduce)))
    (hn : m ≤ n + 1) :
    let foldForms : List Value := [.symbol g, .resolved seed, .resolved collection]
    let seedForms : List Value := [.symbol acc, .resolved seed]
    let loopForms : List Value := [.vector [.symbol x, .resolved collection],
      .list (.symbol ⟨"set!"⟩ :: accumulation g acc x)]
    let eval := evalWith host limit (n + 4)
    let r := (eval (.list (.symbol ⟨"reduce"⟩ :: foldForms))).run s
    let r' := (eval (.list (.symbol ⟨"set!"⟩ :: seedForms)) >>= fun _ =>
      eval (.list (.symbol ⟨"doseq"⟩ :: loopForms))).run s
    ∃ visits : List Visit,
      r.2.calls = s.calls ++ (.special .reduce, foldForms) :: visits.flatMap (Visit.calls f) ∧
      r'.2.calls = s.calls ++ (.special .assign, seedForms) :: (.special .doseq, loopForms) ::
        visits.flatMap (Visit.turnCalls f g acc x) ∧
      (∀ v, r.1 = .ok v ↔ r'.1 = .ok .nil ∧ r'.2.scope.resolve? acc = some v) ∧
      (∀ e, r.1 = .error e ↔ r'.1 = .error e) ∧
      (∀ e, r.1 = .error e → ∃ a b inner, visits.getLast? = some ⟨[a, b], inner⟩ ∧
        r'.2.scope.resolve? acc = some a) ∧
      r.2.scope = s.scope := by
  intro foldForms seedForms loopForms eval r r'
  have hturn : [g, acc, x, ⟨"set!"⟩].Nodup := hnames.sublist (List.IsPrefix.sublist ⟨_, rfl⟩)
  have hstart : (s.scope.bind acc seed).Accumulates g acc w seed :=
    Scope.accumulates_bind hg hassign hturn seed
  have hdoseq' : (s.scope.bind acc seed).resolve? ⟨"doseq"⟩ =
      some (.native (.special .doseq)) := by
    refine (s.scope.resolve?_bind_of_ne seed ?_).trans hdoseq
    rintro rfl
    simp at hnames
  obtain ⟨o, k', visits, hfold, hloop⟩ :=
    fold_and_loop_report hhost hf hn hw hturn vs seed s.nextIdentity
  obtain ⟨scope', hturns, hok, herror⟩ := hloop _ hstart
  have hfolding := evalWith_reduce_reports hhost hreduce hg hw hvs (hfold s.scope)
  have hseed : (evalWith host limit (n + 3) (.resolved seed)).Reports s.scope s.nextIdentity
      ⟨.ok seed, s.scope, s.nextIdentity, []⟩ :=
    evalWith_resolved_reports seed s.scope s.nextIdentity
  have hseeding := evalWith_assign_reports (x := acc) hhost hassign hseed
  have hlooping := hseeding.bind (f := fun _ => eval (.list (.symbol ⟨"doseq"⟩ :: loopForms)))
    (evalWith_doseq_reports hhost hdoseq' hvs hturns)
  obtain ⟨ho, hscope, -, hcalls⟩ := hfolding.run_eq
  obtain ⟨ho', hscope', -, hcalls'⟩ := hlooping.run_eq
  refine ⟨visits, hcalls, hcalls', ?_, ?_, ?_, hscope⟩
  · intro v
    rw [ho, ho', hscope']
    cases o with
    | error e => exact ⟨nofun, nofun⟩
    | ok a => simp [hok a rfl, Except.map]
  · intro e
    rw [ho, ho']
    cases o with
    | error e' => exact Iff.rfl
    | ok a => exact ⟨nofun, nofun⟩
  · intro e he
    rw [hscope']
    exact herror e (ho.symm.trans he)

/-- The second of three calls fails: its element is a call, and no type. The function has the name
of the macro here. -/
theorem reduce_agrees_with_loop_failing :
    let f : Function := .toType
    let w : Value := .native (.fn f)
    let s := State.initial (Scope.reference.bind ⟨"inc!"⟩ w)
    let seed : Value := .vector [.symbol ⟨"x"⟩]
    let vs : List Value := [.resolved (.type .vector), .list [.symbol ⟨"inc!"⟩, .symbol ⟨"acc"⟩],
      .type .list]
    let foldForms : List Value := [.symbol ⟨"inc!"⟩, .resolved seed, .resolved (.list vs)]
    let seedForms : List Value := [.symbol ⟨"acc"⟩, .resolved seed]
    let loopForms : List Value := [.vector [.symbol ⟨"x"⟩, .resolved (.list vs)],
      .list (.symbol ⟨"set!"⟩ :: accumulation ⟨"inc!"⟩ ⟨"acc"⟩ ⟨"x"⟩)]
    let eval := evalWith .reference none 4
    let r := (eval (.list (.symbol ⟨"reduce"⟩ :: foldForms))).run s
    let r' := (eval (.list (.symbol ⟨"set!"⟩ :: seedForms)) >>= fun _ =>
      eval (.list (.symbol ⟨"doseq"⟩ :: loopForms))).run s
    (f.IgnoresScope .reference none 0 ∧
        [(⟨"inc!"⟩ : Symbol), ⟨"acc"⟩, ⟨"x"⟩, ⟨"set!"⟩, ⟨"doseq"⟩, ⟨"reduce"⟩].Nodup ∧
        w.asFunction? = some f ∧ (Value.list vs).HasElements vs ∧
        s.scope.resolve? ⟨"inc!"⟩ = some w ∧
        s.scope.resolve? ⟨"set!"⟩ = some (.native (.special .assign)) ∧
        s.scope.resolve? ⟨"doseq"⟩ = some (.native (.special .doseq)) ∧
        s.scope.resolve? ⟨"reduce"⟩ = some (.native (.special .reduce))) ∧
      r.1 = .error (.raised (.typeIn "to-type" "type" "list")) ∧
      r'.2.scope.resolve? ⟨"acc"⟩ = some seed ∧
      ∃ visits : List Visit,
        r.2.calls = s.calls ++ (.special .reduce, foldForms) :: visits.flatMap (Visit.calls f) ∧
        r'.2.calls = s.calls ++ (.special .assign, seedForms) :: (.special .doseq, loopForms) ::
          visits.flatMap (Visit.turnCalls f ⟨"inc!"⟩ ⟨"acc"⟩ ⟨"x"⟩) ∧
        (∀ v, r.1 = .ok v ↔ r'.1 = .ok .nil ∧ r'.2.scope.resolve? ⟨"acc"⟩ = some v) ∧
        (∀ e, r.1 = .error e ↔ r'.1 = .error e) ∧
        (∀ e, r.1 = .error e → ∃ a b inner, visits.getLast? = some ⟨[a, b], inner⟩ ∧
          r'.2.scope.resolve? ⟨"acc"⟩ = some a) ∧
        r.2.scope = s.scope := by
  intro f w s seed vs foldForms seedForms loopForms eval r r'
  have hf : f.IgnoresScope .reference none 0 := f.ignoresScope_reference none 0
  have hnames : [(⟨"inc!"⟩ : Symbol), ⟨"acc"⟩, ⟨"x"⟩, ⟨"set!"⟩, ⟨"doseq"⟩, ⟨"reduce"⟩].Nodup := by
    decide
  have hvs : (Value.list vs).HasElements vs := ⟨.items vs, rfl, Sequence.realize?_items vs⟩
  exact ⟨⟨hf, hnames, rfl, hvs, rfl, rfl, rfl, rfl⟩, rfl, rfl,
    reduce_agrees_with_loop (n := 0) rfl hf hnames rfl hvs seed s rfl rfl rfl rfl (Nat.zero_le 1)⟩

end Lisplet
