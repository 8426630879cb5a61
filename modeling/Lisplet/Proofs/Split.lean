import Lisplet.Proofs.Budget
import Lisplet.Proofs.Pipeline

/-!
Pipelines cut in two. What comes out of the first steps of a row goes on to the others in the same
way whether it is passed on inside one pipeline or is the value of a pipeline of its own, because a
value is marked just where it is spliced in. Main statement: `pipeline_splits_anywhere`.
-/

namespace Lisplet

/-! ## Equal effects -/

/-- Two runs have the same outcome and leave the same scope, the same next identity and the same
logs of all recorders. -/
structure SameEffect (r r' : Outcome α × State) : Prop where
  outcome : r'.1 = r.1
  scope : r'.2.scope = r.2.scope
  identity : r'.2.nextIdentity = r.2.nextIdentity
  recorded : ∀ i, r'.2.recorded i = r.2.recorded i

theorem SameEffect.symm (h : SameEffect r r') : SameEffect r' r :=
  ⟨h.outcome.symm, h.scope.symm, h.identity.symm, fun i => (h.recorded i).symm⟩

/-- The state with more on record. -/
def State.extend (s : State) (log : List Event) : State := { s with events := log ++ s.events }

theorem State.extend_extend (s : State) (log newer : List Event) :
    (s.extend log).extend newer = s.extend (newer ++ log) := by
  simp only [extend, List.append_assoc]

theorem State.recorded_extend (s : State) {log : List Event}
    (h : ∀ c ∈ callsOf log, c.1.isSpecial) (i : Nat) :
    (s.extend log).recorded i = s.recorded i := by
  have hspecial : (callsOf log).filterMap (recordedBy? i) = [] := by
    refine List.filterMap_eq_nil_iff.mpr fun c hc => ?_
    exact recordedBy?_eq_none (h c hc) i
  rw [recorded_eq, calls, extend, callsOf_append, List.filterMap_append, hspecial,
    List.append_nil, recorded_eq]
  rfl

/-- Special forms that were entered before make no difference to what an action does. -/
theorem Action.Reports.sameEffect {a : Action α} {s : State}
    (h : a.Reports s.scope s.nextIdentity r) (hlog : ∀ c ∈ callsOf log, c.1.isSpecial)
    (hlog' : ∀ c ∈ callsOf log', c.1.isSpecial) :
    SameEffect (a.run (s.extend log)) (a.run (s.extend log')) := by
  obtain ⟨houtcome, hscope, hidentity, hcalls⟩ := run_eq (s := s.extend log) h
  obtain ⟨houtcome', hscope', hidentity', hcalls'⟩ := run_eq (s := s.extend log') h
  refine ⟨houtcome'.trans houtcome.symm, hscope'.trans hscope.symm,
    hidentity'.trans hidentity.symm, fun i => ?_⟩
  rw [State.recorded_eq, State.recorded_eq, hcalls, hcalls', List.filterMap_append,
    List.filterMap_append, ← State.recorded_eq, ← State.recorded_eq, s.recorded_extend hlog,
    s.recorded_extend hlog']

/-! ## Two rows of steps -/

/-- `(-> x step ..)` or `(->> x step ..)`, whatever forms the steps are. -/
def Position.thread (p : Position) (x : Value) (steps : List Value) : Value :=
  .list (.symbol ⟨p.form.name⟩ :: x :: steps)

/-- Passes the value of `x` through two rows of steps, with a budget of `a` up to the end of the
first row and of `b` from there on. -/
def passThrough (limit : Option Nat) (p : Position) (x : Value) (ss ts : List Value) (a b : Nat) :
    Action Value := do
  let v ← evalWith .reference limit a x
  let w ← ss.foldlM ((Host.reference.context limit a).evalThreadStep p) v
  ts.foldlM ((Host.reference.context limit b).evalThreadStep p) w

section
variable {limit : Option Nat} {p : Position} {x : Value} {ss ts : List Value}

theorem Law.passThrough {V : Value → Prop} (L : Law ι limit V) (hV : ∀ v, V v) {a b : ι → Nat}
    (ha : ∀ g, L.Holds V fun i => Lisplet.evalWith .reference limit (a i) g)
    (hb : ∀ g, L.Holds V fun i => Lisplet.evalWith .reference limit (b i) g) :
    L.Holds V fun i => Lisplet.passThrough limit p x ss ts (a i) (b i) := by
  refine L.bind (ha x) fun v hv => ?_
  refine L.bind (L.evalThreadSteps (fun v _ => hV v) hv fun _ _ _ g _ _ => ha g) fun w hw => ?_
  exact L.evalThreadSteps (fun v _ => hV v) hw fun _ _ _ g _ _ => hb g

/-- With larger budgets the two rows do the same, if they have come to an end. -/
theorem passThrough_extends (ha : a ≤ a') (hb : b ≤ b') (s : State) :
    Extends ((passThrough limit p x ss ts a b).run s)
      ((passThrough limit p x ss ts a' b').run s) := by
  have hbudget {n n' : Nat} (h : n ≤ n') (g : Value) : (budgetLaw limit).Holds (fun _ => True)
      fun i => evalWith .reference limit (cond i n' n) g :=
    budgetLaw_evalWith limit g h
  have hlaw : (budgetLaw limit).Holds (fun _ => True)
      fun i => passThrough limit p x ss ts (cond i a' a) (cond i b' b) :=
    (budgetLaw limit).passThrough (fun _ => trivial) (hbudget ha) (hbudget hb)
  exact (hlaw s).2

theorem exists_passThrough_reports (a b : Nat) (scope : Scope) (k : Nat) :
    ∃ r, (passThrough limit p x ss ts a b).Reports scope k r := by
  have hV (v : Value) : v.NamesIn fun _ => True := fun _ _ => trivial
  have hlaw : (agreementLaw limit trivial trivial).Holds (Value.NamesIn fun _ => True)
      fun _ => passThrough limit p x ss ts a b :=
    (agreementLaw limit trivial trivial).passThrough hV
      (fun g _ hs => predicted_evalWith limit a trivial trivial (hV g) hs)
      (fun g _ hs => predicted_evalWith limit b trivial trivial (hV g) hs)
  exact (hlaw ⟨scope, k, []⟩ fun _ v _ _ => hV v).exists_reports

theorem passThrough_sameEffect (ha : a ≤ a') (hb : b ≤ b') {s : State}
    (hlog : ∀ c ∈ callsOf log, c.1.isSpecial) (hlog' : ∀ c ∈ callsOf log', c.1.isSpecial)
    (hend : ((passThrough limit p x ss ts a b).run (s.extend log)).1 ≠ .error .unfinished) :
    SameEffect ((passThrough limit p x ss ts a b).run (s.extend log))
      ((passThrough limit p x ss ts a' b').run (s.extend log')) := by
  obtain ⟨r, hr⟩ : ∃ r,
      (passThrough limit p x ss ts a' b').Reports s.scope s.nextIdentity r :=
    exists_passThrough_reports ..
  rw [← (passThrough_extends ha hb (s.extend log)).eq hend]
  exact hr.sameEffect hlog hlog'

/-! ## Pipelines as rows of steps -/

/-- A pipeline goes on to its seed after one special form has been put on record. -/
theorem evalWith_thread_run (limit : Option Nat) (x : Value) (steps : List Value) {s : State}
    (hthread : s.scope.resolve? ⟨p.form.name⟩ = some (.native (.special p.form))) (n : Nat) :
    ∃ log, (∀ c ∈ callsOf log, c.1.isSpecial) ∧
      (evalWith .reference limit (n + 2) (p.thread x steps)).run s =
        (evalWith .reference limit (n + 1) x >>=
          steps.foldlM ((Host.reference.context limit (n + 1)).evalThreadStep p)).run
            (s.extend log) := by
  have hname : (⟨p.form.name⟩ : Symbol) ≠ ⟨"inc!"⟩ := by
    cases p <;> decide
  have hexpand : Host.reference.expand? (p.thread x steps) = none :=
    Host.expand?_call rfl hname (x :: steps)
  refine ⟨[.called (.special p.form) (x :: steps), .evaluated (.symbol ⟨p.form.name⟩),
    .evaluated (p.thread x steps)], ?_, ?_⟩
  · intro c hc
    cases List.mem_singleton.mp hc
    rfl
  · rw [Position.thread, evalWith_special_run hexpand hthread, Context.callSpecial,
      Action.run_record_bind]
    cases p <;> rfl

theorem evalWith_whole_run {s : State}
    (hthread : s.scope.resolve? ⟨p.form.name⟩ = some (.native (.special p.form))) (n : Nat) :
    ∃ log, (∀ c ∈ callsOf log, c.1.isSpecial) ∧
      (evalWith .reference limit (n + 2) (p.thread x (ss ++ ts))).run s =
        (passThrough limit p x ss ts (n + 1) (n + 1)).run (s.extend log) := by
  obtain ⟨log, hlog, hrun⟩ := evalWith_thread_run limit x (ss ++ ts) hthread n
  refine ⟨log, hlog, ?_⟩
  rw [hrun]
  simp only [passThrough, List.foldlM_append]

/-- The inner one of two pipelines has one level less of the budget. -/
theorem evalWith_split_run {s : State}
    (hthread : s.scope.resolve? ⟨p.form.name⟩ = some (.native (.special p.form))) (n : Nat) :
    ∃ log, (∀ c ∈ callsOf log, c.1.isSpecial) ∧
      (evalWith .reference limit (n + 3) (p.thread (p.thread x ss) ts)).run s =
        (passThrough limit p x ss ts (n + 1) (n + 2)).run (s.extend log) := by
  obtain ⟨outer, houter, hrun⟩ := evalWith_thread_run limit (p.thread x ss) ts hthread (n + 1)
  have hthread' : (s.extend outer).scope.resolve? ⟨p.form.name⟩ =
      some (.native (.special p.form)) := hthread
  obtain ⟨inner, hinner, hrun'⟩ := evalWith_thread_run limit x ss hthread' n
  refine ⟨inner ++ outer, ?_, ?_⟩
  · intro c hc
    rw [callsOf_append] at hc
    exact (List.mem_append.mp hc).elim (houter c) (hinner c)
  · rw [hrun, Action.run_bind, hrun', ← Action.run_bind, bind_assoc, State.extend_extend]
    rfl

end

/-- A pipeline can be cut in two at any place. Where `->` is the built-in, a pipeline and the one
whose seed is a pipeline of the first steps come to an end together, with the same outcome, and
leave the same scope and the same logs. The steps can be any forms, and fail or rebind names. -/
theorem pipeline_splits_anywhere (limit : Option Nat) (p : Position) (x : Value)
    (ss ts : List Value) (s : State)
    (hthread : s.scope.resolve? ⟨p.form.name⟩ = some (.native (.special p.form))) :
    let r n := (evalWith .reference limit n (p.thread x (ss ++ ts))).run s
    let r' n := (evalWith .reference limit n (p.thread (p.thread x ss) ts)).run s
    (∀ n, (r n).1 ≠ .error .unfinished → ∃ m, SameEffect (r n) (r' m)) ∧
      ∀ m, (r' m).1 ≠ .error .unfinished → ∃ n, SameEffect (r n) (r' m) := by
  intro r r'
  -- A budget that is enough is replaced by a larger one, so that there are two levels to enter.
  constructor
  · intro n hend
    have hr : r (n + 2) = r n := (evalWith_extends (Nat.le_add_right n 2) ..).eq hend
    obtain ⟨log, hlog, (hwhole : r (n + 2) = _)⟩ := evalWith_whole_run hthread n
    obtain ⟨log', hlog', (hsplit : r' (n + 3) = _)⟩ := evalWith_split_run hthread n
    refine ⟨n + 3, ?_⟩
    rw [← hr, hwhole] at hend ⊢
    rw [hsplit]
    exact passThrough_sameEffect (Nat.le_refl _) (Nat.le_succ _) hlog hlog' hend
  · intro m hend
    have hr' : r' (m + 3) = r' m := (evalWith_extends (Nat.le_add_right m 3) ..).eq hend
    obtain ⟨log, hlog, (hwhole : r (m + 3) = _)⟩ := evalWith_whole_run hthread (m + 1)
    obtain ⟨log', hlog', (hsplit : r' (m + 3) = _)⟩ := evalWith_split_run hthread m
    refine ⟨m + 3, ?_⟩
    rw [← hr', hsplit] at hend ⊢
    rw [hwhole]
    exact (passThrough_sameEffect (Nat.le_succ _) (Nat.le_refl _) hlog' hlog hend).symm

/-- The first step rebinds `->`, the second one returns a marked value, and the last one fails. -/
theorem pipeline_splits_anywhere_failing :
    let s := State.initial (Scope.reference.bind ⟨"watch"⟩ (.native (.fn (.recorder 0 7))))
    let x : Value := .list [.symbol ⟨"quote"⟩, .symbol ⟨"->"⟩]
    let ss : List Value := [.list [.symbol ⟨"set!"⟩, .int 7], .list [.symbol ⟨"quote"⟩]]
    let ts : List Value := [.list [.symbol ⟨"watch"⟩]]
    let r n := (evalWith .reference none n (Position.first.thread x (ss ++ ts))).run s
    let r' n :=
      (evalWith .reference none n (Position.first.thread (Position.first.thread x ss) ts)).run s
    s.scope.resolve? ⟨Position.first.form.name⟩ = some (.native (.special Position.first.form)) ∧
      (r 4).1 = .error (.raised (.thrown "watcher failed on 7")) ∧
      (r 4).2.scope.resolve? ⟨"->"⟩ = some (.int 7) ∧
      (∃ m, SameEffect (r 4) (r' m)) ∧ ∃ n, SameEffect (r n) (r' 5) := by
  intro s x ss ts r r'
  have hthread : s.scope.resolve? ⟨"->"⟩ = some (.native (.special .threadFirst)) := rfl
  have herror : (r 4).1 = .error (.raised (.thrown "watcher failed on 7")) := rfl
  have herror' : (r' 5).1 = .error (.raised (.thrown "watcher failed on 7")) := rfl
  obtain ⟨hsplit, hjoin⟩ := pipeline_splits_anywhere none .first x ss ts s hthread
  refine ⟨hthread, herror, rfl, hsplit 4 ?_, hjoin 5 ?_⟩
  · exact herror ▸ nofun
  · exact herror' ▸ nofun

end Lisplet
