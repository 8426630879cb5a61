import Lisplet.Proofs.Agreement

/-!
Where marks can get to. In a form a mark stands around a value that was spliced in, and it goes when
the form is evaluated. Only `quote` hands on what it is written with, marks and all. Main
statements: `marks_reach_data_through_quote` and `quote_lets_mark_out`.
-/

namespace Lisplet

/-! ## Marks in values -/

/-- `x` stands somewhere in a sequence, whether or not it has been asked for. -/
def Sequence.Contains (s : Sequence α) (x : α) : Prop :=
  ∃ n, (Cursor.advance n s).bind Cursor.first? = some x

theorem Cursor.exists_advance_of_realize? [Cursor σ α] {budget : Nat} {c : σ} {xs : List α}
    (h : realize? budget c = some xs) (hx : x ∈ xs) :
    ∃ n, (advance n c).bind first? = some x := by
  induction budget generalizing c xs with
  | zero => cases h
  | succ budget ih =>
    unfold realize? at h
    split at h
    case h_1 =>
      cases h
      cases hx
    case h_2 a hfirst =>
      split at h
      case h_1 =>
        cases h
        cases List.mem_singleton.mp hx
        exact ⟨0, hfirst⟩
      case h_2 c' hnext =>
        obtain ⟨ys, hys, rfl⟩ := Option.map_eq_some_iff.mp h
        rcases List.mem_cons.mp hx with rfl | hx
        · exact ⟨0, hfirst⟩
        · obtain ⟨n, hn⟩ := ih hys hx
          refine ⟨n + 1, ?_⟩
          rw [advance, hnext]
          exact hn

namespace Sequence

theorem contains_of_realize? {s : Sequence α} (h : s.realize? = some xs) (hx : x ∈ xs) :
    s.Contains x := by
  obtain ⟨budget, -, h⟩ := Option.bind_eq_some_iff.mp h
  exact Cursor.exists_advance_of_realize? h hx

theorem exists_item_of_contains (h : (orbit item position left).Contains x) :
    ∃ i, item i = x := by
  obtain ⟨n, h⟩ := h
  induction n generalizing position left with
  | zero => exact ⟨position, Option.some.inj h⟩
  | succ n ih =>
    match left, h with
    | some (left + 1), h => exact ih h
    | none, h => exact ih h

end Sequence

/-- `w` stands in a mark somewhere in a value. -/
inductive Value.MarkedIn (w : Value) : Value → Prop
  | here : MarkedIn w (.resolved w)
  | resolved : MarkedIn w v → MarkedIn w (.resolved v)
  | list : v ∈ vs → MarkedIn w v → MarkedIn w (.list vs)
  | vector : v ∈ vs → MarkedIn w v → MarkedIn w (.vector vs)
  | element : s.Contains v → MarkedIn w v → MarkedIn w (.seq i s)

namespace Value

/-- All marks in a value are around values in `A`. -/
def MarksIn (A : Value → Prop) (v : Value) : Prop := ∀ w, w.MarkedIn v → A w

/-- There is no mark in a value. -/
def MarkFree (v : Value) : Prop := v.MarksIn fun _ => False

variable {A : Value → Prop}

theorem MarksIn.mono {v : Value} (h : v.MarksIn A) (hA : ∀ w, A w → B w) : v.MarksIn B :=
  fun w hw => hA w (h w hw)

theorem MarksIn.of_isScalar {v : Value} (h : v.isScalar) : v.MarksIn A := by
  rintro w (_ | _)
  all_goals cases h

theorem MarksIn.symbol : (symbol x).MarksIn A := fun _ => nofun

theorem MarksIn.native : (native n).MarksIn A := fun _ => nofun

theorem MarksIn.countdown : (Value.countdown i n).MarksIn A := by
  intro w hw
  rw [Value.countdown] at hw
  split at hw
  · cases hw with
    | list hv _ => cases hv
  · cases hw with
    | element hv hw =>
      obtain ⟨j, rfl⟩ := Sequence.exists_item_of_contains hv
      cases hw

theorem MarksIn.inherited (A : Value → Prop) : Inherited (MarksIn A) where
  scalar := .of_isScalar
  unmark h w hw := h w (.resolved hw)
  list := ⟨fun h _ hv w hw => h w (.list hv hw), fun h w => fun | .list hv hw => h _ hv w hw⟩
  vector := ⟨fun h _ hv w hw => h w (.vector hv hw), fun h w => fun | .vector hv hw => h _ hv w hw⟩
  elements h hr _ hv w hw := h w (.element (Sequence.contains_of_realize? hr hv) hw)
  countdown := .countdown
  assignName := .symbol
  incName := .symbol

/-! ## Marks in forms -/

/-- Forms with values spliced in: their items are values that have no marks but those in `A`, marks
around such values, and forms of the same kind. -/
inductive Spliced (A : Value → Prop) : Value → Prop
  | data : v.MarksIn A → Spliced A v
  | mark : v.MarksIn A → Spliced A (.resolved v)
  | list : (∀ g ∈ gs, Spliced A g) → Spliced A (.list gs)
  | vector : (∀ g ∈ gs, Spliced A g) → Spliced A (.vector gs)

theorem Spliced.mono {g : Value} (h : g.Spliced A) (hA : ∀ w, A w → B w) : g.Spliced B := by
  induction h with
  | data h => exact .data (h.mono hA)
  | mark h => exact .mark (h.mono hA)
  | list _ ih => exact .list ih
  | vector _ ih => exact .vector ih

theorem Spliced.forms (A : Value → Prop) : Forms (Spliced A) (MarksIn A) where
  values := MarksIn.inherited A
  data := .data
  mark := .mark
  unmark
    | .data h => (MarksIn.inherited A).unmark h
    | .mark h => h
  list := by
    refine ⟨fun h g hg => ?_, .list⟩
    cases h with
    | data h => exact .data ((MarksIn.inherited A).list.mp h g hg)
    | list h => exact h g hg
  vector h g hg := by
    cases h with
    | data h => exact .data ((MarksIn.inherited A).vector.mp h g hg)
    | vector h => exact h g hg
  atom h hitems hmark := by
    cases h with
    | data h => exact h
    | mark h => exact absurd rfl (hmark _)
    | list h | vector h => cases hitems

end Value

/-! ## Confined states -/

/-- `w` was in a mark in a form that was quoted. -/
def Quoted (log : List Event) (w : Value) : Prop :=
  ∃ g, .called (.special .quote) [g] ∈ log ∧ w.MarkedIn g

theorem Quoted.mono (h : log <:+ log') (w : Value) (hw : Quoted log w) : Quoted log' w := by
  obtain ⟨g, hmem, hg⟩ := hw
  exact ⟨g, h.subset hmem, hg⟩

/-- What is bound in a chain of scopes, in whichever of them, has no marks but those in `A`. -/
def Scope.MarksIn (A : Value → Prop) (s : Scope) : Prop :=
  ∀ x v, some v ∈ s.layers x → v.MarksIn A

namespace Scope.MarksIn

variable {A : Value → Prop} {s : Scope}

theorem mono (hs : s.MarksIn A) (hA : ∀ w, A w → B w) : s.MarksIn B :=
  fun x v hv => (hs x v hv).mono hA

theorem resolve (hs : s.MarksIn A) (h : s.resolve? x = some v) : v.MarksIn A := by
  rw [resolve?_eq_layers] at h
  obtain ⟨layer, hmem, hlayer⟩ := List.exists_of_findSome?_eq_some h
  exact hs x v (hlayer ▸ hmem)

theorem bind (hs : s.MarksIn A) (hv : v.MarksIn A) : (s.bind x v).MarksIn A := by
  intro y w hw
  by_cases hy : y = x
  · rw [hy, layers_bind_self] at hw
    rcases List.mem_cons.mp hw with hw | hw
    · cases hw
      exact hv
    · exact hs x w (List.mem_of_mem_tail hw)
  · rw [layers_bind_of_ne s v hy] at hw
    exact hs y w hw

theorem reference : Scope.reference.MarksIn A := by
  intro x v hv
  have hresolve : Scope.reference.resolve? x = some v := by
    rw [resolve?_eq_layers]
    simp_all [layers, Scope.reference, ofTable, root]
  rcases native_or_type_of_reference hresolve with ⟨n, rfl⟩ | ⟨t, rfl⟩
  · exact .native
  · exact .of_isScalar rfl

end Scope.MarksIn

/-- In what was evaluated, called and bound, all marks are around values in `A`, but for one more
mark around values that are spliced into forms. -/
def Event.Confined (A : Value → Prop) : Event → Prop
  | .evaluated form => form.Spliced A
  | .called (.fn _) args => ∀ v ∈ args, v.MarksIn A
  | .called (.special _) forms => ∀ g ∈ forms, g.Spliced A
  | .bound _ v => v.MarksIn A
  | .raised _ => True

theorem Event.Confined.mono (h : Event.Confined A e) (hA : ∀ w, A w → B w) :
    Event.Confined B e := by
  cases e with
  | evaluated form => exact Value.Spliced.mono h hA
  | called n args =>
    cases n with
    | fn f => exact fun v hv => (h v hv).mono hA
    | special s => exact fun g hg => (h g hg).mono hA
  | bound x v => exact Value.MarksIn.mono h hA
  | raised e => trivial

/-- The data of a state has no marks but those that were quoted. -/
structure State.Confined (s : State) : Prop where
  scope : s.scope.MarksIn (Quoted s.events)
  events : ∀ e ∈ s.events, e.Confined (Quoted s.events)

theorem State.Confined.record {s : State} (hs : s.Confined)
    (he : e.Confined (Quoted (e :: s.events))) :
    State.Confined { s with events := e :: s.events } := by
  have hmono := Quoted.mono (List.suffix_cons e s.events)
  refine ⟨hs.scope.mono hmono, List.forall_mem_cons.mpr ⟨he, fun e' he' => ?_⟩⟩
  exact (hs.events e' he').mono hmono

/-! ## Confined runs -/

/-- A run from `s` that ended with `r` went on from what was on record, with a result that has the
property `P` at the end. -/
structure ConfinedRun (P : List Event → α → Prop) (s : State) (r : Outcome α × State) : Prop where
  suffix : s.events <:+ r.2.events
  confined : r.2.Confined
  sat : r.1.Sat (P r.2.events) True

theorem ConfinedRun.bind {P : List Event → α → Prop} {Q : List Event → β → Prop} {x : Action α}
    {f : α → Action β} (hx : ConfinedRun P s (x.run s))
    (hf : ∀ a t, s.events <:+ t.events → t.Confined → P t.events a →
      ConfinedRun Q t ((f a).run t)) : ConfinedRun Q s ((x >>= f).run s) := by
  rw [Action.run_bind]
  rcases hr : x.run s with ⟨e | a, t⟩ <;> rw [hr] at hx
  · refine ⟨hx.suffix, hx.confined, ?_⟩
    cases e <;> trivial
  · have hrun := hf a t hx.suffix hx.confined hx.sat
    exact ⟨hx.suffix.trans hrun.suffix, hrun.confined, hrun.sat⟩

/-- The law of runs that keep marks out of data, but for those that are quoted. -/
def confinementLaw (limit : Option Nat) : StagedLaw Unit limit
    (fun log => Value.Spliced (Quoted log)) fun log => Value.MarksIn (Quoted log) where
  Holds log P a := ∀ s : State, log <:+ s.events → s.Confined → ConfinedRun P s ((a ()).run s)
  closed log := Value.Spliced.forms (Quoted log)
  keepsForm h hg := hg.mono (Quoted.mono h)
  keepsValue h hv := hv.mono (Quoted.mono h)
  later h hx s hlog := hx s (h.trans hlog)
  pure hP s hlog hs := ⟨List.suffix_rfl, hs, hP _ hlog⟩
  bind hx hf s hlog hs := (hx s hlog hs).bind fun a t ht hconfined ha =>
    hf t.events a (hlog.trans ht) ha t List.suffix_rfl hconfined
  raise s _ hs := ⟨List.suffix_cons .., hs.record trivial, trivial⟩
  endless _ _ s _ hs := ⟨List.suffix_rfl, hs, trivial⟩
  resolve {log x} _ s _ hs := by
    rw [Action.run_resolve]
    cases hv : s.scope.resolve? x with
    | some v => exact ⟨List.suffix_rfl, hs, hs.scope.resolve hv⟩
    | none => exact ⟨List.suffix_cons .., hs.record trivial, trivial⟩
  bindSymbol {log x v} _ hv s hlog hs := by
    have hv' : v.MarksIn (Quoted (.bound x v :: s.events)) :=
      hv.mono (Quoted.mono (hlog.trans (List.suffix_cons ..)))
    have hs' := hs.record (e := .bound x v) hv'
    exact ⟨List.suffix_cons .., ⟨hs'.scope.bind hv', hs'.events⟩, trivial⟩
  call {log f args eval} hargs s hlog hs := by
    obtain ⟨o, m, -, ho, ha⟩ := f.exists_answers limit args s.nextIdentity
    have hargs' : ∀ v ∈ args, v.MarksIn (Quoted (.called (.fn f) args :: s.events)) :=
      fun v hv => (hargs v hv).mono (Quoted.mono (hlog.trans (List.suffix_cons ..)))
    have hs' := hs.record (e := .called (.fn f) args) hargs'
    have hsat := ho _ (Value.MarksIn.inherited _) hargs'
    rw [ha.callFunction_run rfl]
    rcases o with (e | -) | v
    · have hraised := hs'.record (e := .raised e) trivial
      refine ⟨(List.suffix_cons ..).trans (List.suffix_cons ..), ?_, trivial⟩
      exact ⟨hraised.scope, hraised.events⟩
    · exact ⟨List.suffix_cons .., ⟨hs'.scope, hs'.events⟩, trivial⟩
    · exact ⟨List.suffix_cons .., ⟨hs'.scope, hs'.events⟩, hsat⟩
  enter {log sf forms} hforms s hlog hs := by
    have hforms' : ∀ g ∈ forms, g.Spliced (Quoted (.called (.special sf) forms :: s.events)) :=
      fun g hg => (hforms g hg).mono (Quoted.mono (hlog.trans (List.suffix_cons ..)))
    refine ⟨List.suffix_cons .., hs.record (e := .called (.special sf) forms) hforms', ?_⟩
    rintro g rfl rfl w hw
    exact ⟨g, List.mem_cons_self, hw⟩

theorem confinedRun_evalWith (limit : Option Nat) (n : Nat) {form : Value} {s : State}
    (hform : form.Spliced (Quoted s.events)) (hs : s.Confined) :
    ConfinedRun (fun log => Value.MarksIn (Quoted log)) s
      ((evalWith .reference limit n form).run s) := by
  refine (confinementLaw limit).evalWith ?_ ?_ n hform s List.suffix_rfl hs
  · exact fun log s _ hs => ⟨List.suffix_rfl, hs, trivial⟩
  · intro log g hg s hlog hs
    have hg' : g.Spliced (Quoted (.evaluated g :: s.events)) :=
      hg.mono (Quoted.mono (hlog.trans (List.suffix_cons ..)))
    exact ⟨List.suffix_cons .., hs.record (e := .evaluated g) hg', trivial⟩

/-! ## Data -/

/-- The data of a run that put `log` on record and ended with `r` has the property `V`: the value it
came to, all that is bound afterwards, and all that functions were called with. -/
structure DataIn (V : Value → Prop) (log : List Event) (r : Outcome Value × State) : Prop where
  value : ∀ v, r.1 = .ok v → V v
  bound : ∀ x v, some v ∈ r.2.scope.layers x → V v
  passed : ∀ f args, .called (.fn f) args ∈ log → ∀ v ∈ args, V v

theorem DataIn.mono (h : DataIn V log r) (hV : ∀ v, V v → V' v) : DataIn V' log r where
  value v hv := hV v (h.value v hv)
  bound x v hv := hV v (h.bound x v hv)
  passed f args hmem v hv := hV v (h.passed f args hmem v hv)

/-- Marks reach data through `quote` only. When there is no mark in a form and in what is bound
around it, every mark in the data of its evaluation was in a form that was quoted, and the forms
that are evaluated have other marks only around values that are spliced into them. So there is no
mark in any data as long as no form with a mark is quoted. -/
theorem marks_reach_data_through_quote (limit : Option Nat) (n : Nat) {form : Value}
    (hform : form.MarkFree) {s : State} (hs : ∀ x v, some v ∈ s.scope.layers x → v.MarkFree) :
    let r := (evalWith .reference limit n form).run s
    ∃ log, r.2.events = log ++ s.events ∧ DataIn (Value.MarksIn (Quoted log)) log r ∧
      (∀ g, .evaluated g ∈ log → g.Spliced (Quoted log)) ∧
      ((∀ g, .called (.special .quote) [g] ∈ log → g.MarkFree) →
        DataIn Value.MarkFree log r) := by
  intro r
  -- What is on record before makes no difference, so the run can be taken to begin with nothing.
  obtain ⟨o, k, log, hrun⟩ := exists_run_of_resolution limit n form s
  let s' : State := { s with events := [] }
  have hr : r = (o, ⟨s.scope.replay log, k, log ++ s.events⟩) := hrun s (.refl _ s)
  have hr' := hrun s' ⟨rfl, fun _ _ => rfl⟩
  have hs' : s'.Confined := ⟨fun x v hv => (hs x v hv).mono nofun, nofun⟩
  have hconfined := confinedRun_evalWith limit n (.data (hform.mono nofun)) hs'
  rw [hr'] at hconfined
  obtain ⟨-, ⟨hscope, hevents⟩, hsat⟩ := hconfined
  simp only [s', List.append_nil] at hscope hevents hsat
  have hdata : DataIn (Value.MarksIn (Quoted log)) log r := by
    rw [hr]
    refine ⟨?_, hscope, fun f args hmem => hevents _ hmem⟩
    rintro v rfl
    exact hsat
  refine ⟨log, congrArg (·.2.events) hr, hdata, fun g hmem => hevents _ hmem, fun hquote => ?_⟩
  refine hdata.mono fun v hv => hv.mono ?_
  rintro w ⟨g, hmem, hw⟩
  exact hquote g hmem w hw

/-- A value is quoted, and spliced into a step. No mark is left of that but in the step. -/
theorem marks_reach_data_through_quote_spliced :
    let name : Value := .list [.symbol ⟨"a"⟩]
    let seed : Value := .list [.symbol ⟨"quote"⟩, name]
    let step : Value := .list [.symbol ⟨"list"⟩]
    let form : Value := .list [.symbol ⟨"->"⟩, seed, step]
    let s := State.initial .reference
    let r := (evalWith .reference none 4 form).run s
    form.MarkFree ∧ (∀ x v, some v ∈ s.scope.layers x → v.MarkFree) ∧
      .evaluated (.list [.symbol ⟨"list"⟩, .resolved name]) ∈ r.2.events ∧
      r.1 = .ok (.list [name]) ∧ DataIn Value.MarkFree r.2.events r := by
  intro name seed step form s r
  have hform : form.MarkFree := by
    have hV := Value.MarksIn.inherited fun _ => False
    simp [form, seed, step, name, Value.MarkFree, hV.list, Value.MarksIn.symbol]
  have hs x v (hv : some v ∈ s.scope.layers x) : v.MarkFree := Scope.MarksIn.reference x v hv
  have hevents : r.2.events = [.called (.fn .list) [name], .evaluated (.resolved name),
      .evaluated (.symbol ⟨"list"⟩), .evaluated (.list [.symbol ⟨"list"⟩, .resolved name]),
      .called (.special .quote) [name], .evaluated (.symbol ⟨"quote"⟩), .evaluated seed,
      .called (.special .threadFirst) [seed, step], .evaluated (.symbol ⟨"->"⟩),
      .evaluated form] := rfl
  obtain ⟨log, hlog, -, -, hquote⟩ := marks_reach_data_through_quote none 4 hform hs
  obtain rfl : r.2.events = log := hlog.trans (List.append_nil log)
  refine ⟨hform, hs, by simp [hevents], rfl, hquote fun g hg => ?_⟩
  obtain rfl : g = name := by simpa [hevents] using hg
  exact (Value.MarksIn.inherited _).list.mpr (by simp [Value.MarksIn.symbol])

/-- A step that is a call of `quote` gives the value that is spliced into it back with its mark,
and so a marked value is passed to a function, bound, and returned. -/
theorem quote_lets_mark_out :
    let form : Value := .list [.symbol ⟨"set!"⟩, .symbol ⟨"y"⟩, .list [.symbol ⟨"identity"⟩,
      .list [.symbol ⟨"->"⟩, .int 5, .list [.symbol ⟨"quote"⟩]]]]
    let s := State.initial .reference
    let r := (evalWith .reference none 5 form).run s
    form.MarkFree ∧ (∀ x v, some v ∈ s.scope.layers x → v.MarkFree) ∧
      ¬(Value.resolved (.int 5)).MarkFree ∧ r.1 = .ok (.resolved (.int 5)) ∧
      some (.resolved (.int 5)) ∈ r.2.scope.layers ⟨"y"⟩ ∧
      .called (.fn .identity) [.resolved (.int 5)] ∈ r.2.events := by
  intro form s r
  refine ⟨?_, fun x v hv => Scope.MarksIn.reference x v hv, fun h => h _ .here, rfl, ?_, ?_⟩
  · have hV := Value.MarksIn.inherited fun _ => False
    have hfive : (Value.int 5).MarksIn fun _ => False := .of_isScalar rfl
    simp [form, Value.MarkFree, hV.list, Value.MarksIn.symbol, hfive]
  · have h : (r.2.scope.layers ⟨"y"⟩)[0]? = some (some (.resolved (.int 5))) := rfl
    exact List.mem_of_getElem? h
  · have h : r.2.events[1]? = some (.called (.fn .identity) [.resolved (.int 5)]) := rfl
    exact List.mem_of_getElem? h

end Lisplet
