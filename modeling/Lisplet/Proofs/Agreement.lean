import Lisplet.Proofs.Frame

/-!
What an evaluation sees of a chain of scopes. All runs from chains that agree on the names in reach
put the same things on record, in whichever of their scopes the bindings are. So nothing but the
resolution of names counts (`evaluation_sees_only_resolution`), and a name that occurs nowhere can
be bound to anything (`unrelated_binding_does_not_interfere`).
-/

namespace Lisplet

/-! ## Names in values -/

/-- Whether the name `x` stands somewhere in a value, be it in a mark or in an element of a host
sequence. What a sequence without an end computes does not count: nothing walks so far. -/
inductive Value.Occurs (x : Symbol) : Value → Prop
  | symbol : Occurs x (.symbol x)
  | list : v ∈ vs → Occurs x v → Occurs x (.list vs)
  | vector : v ∈ vs → Occurs x v → Occurs x (.vector vs)
  | element : s.realize? = some vs → v ∈ vs → Occurs x v → Occurs x (.seq i s)
  | resolved : Occurs x v → Occurs x (.resolved v)

/-- All names in a value are in `A`. -/
def Value.NamesIn (A : Symbol → Prop) (v : Value) : Prop := ∀ x, v.Occurs x → A x

namespace Value

variable {A : Symbol → Prop}

theorem NamesIn.of_isScalar {v : Value} (h : v.isScalar) : v.NamesIn A := by
  rintro x (_ | _)
  all_goals cases h

theorem namesIn_symbol : (symbol x).NamesIn A ↔ A x :=
  ⟨fun h => h x .symbol, fun h _ => fun | .symbol => h⟩

theorem NamesIn.countdown : (Value.countdown i n).NamesIn A := by
  rcases countdown_cases i n with h | ⟨s, vs, h, hvs, hint⟩
  · rw [h]
    exact fun x => fun | .list hv _ => nomatch hv
  · rw [h]
    rintro x (_ | _ | _ | ⟨hvs', hv, hx⟩)
    cases hvs.symm.trans hvs'
    obtain ⟨k, rfl⟩ := hint _ hv
    cases hx

theorem NamesIn.hereditary (hassign : A ⟨"set!"⟩) (hinc : A ⟨"inc"⟩) :
    Hereditary (NamesIn A) where
  scalar := .of_isScalar
  unmark h x hx := h x (.resolved hx)
  mark h x := fun | .resolved hx => h x hx
  list := ⟨fun h _ hv x hx => h x (.list hv hx), fun h x => fun | .list hv hx => h _ hv x hx⟩
  vector := ⟨fun h _ hv x hx => h x (.vector hv hx), fun h x => fun | .vector hv hx => h _ hv x hx⟩
  elements h hr _ hv x hx := h x (.element hr hv hx)
  countdown := .countdown
  assignName := namesIn_symbol.mpr hassign
  incName := namesIn_symbol.mpr hinc

end Value

/-! ## Replays on scopes that agree -/

namespace Scope

/-- What the names in `A` are bound to has no other names in it. -/
def Closed (A : Symbol → Prop) (s : Scope) : Prop :=
  ∀ x v, A x → s.resolve? x = some v → v.NamesIn A

theorem Closed.bind {s : Scope} (hs : s.Closed A) (hv : v.NamesIn A) : (s.bind x v).Closed A := by
  intro y w hy hw
  rcases resolve?_of_bind hw with ⟨-, rfl⟩ | ⟨-, hw⟩
  · exact hv
  · exact hs y w hy hw

theorem Closed.replay {s : Scope} (hs : s.Closed A)
    (hlog : ∀ x v, .bound x v ∈ log → v.NamesIn A) : (s.replay log).Closed A := by
  induction log with
  | nil => exact hs
  | cons e log ih =>
    have hs' := ih fun x v h => hlog x v (List.mem_cons_of_mem _ h)
    cases e with
    | bound x v => exact hs'.bind (hlog x v List.mem_cons_self)
    | evaluated | called | raised => exact hs'

theorem replay_log (s : Scope) (o : Outcome α) : s.replay o.log = s := by
  rcases o with (e | -) | a <;> rfl

theorem resolve?_replay_congr {s t : Scope} (h : t.resolve? x = s.resolve? x) (log : List Event) :
    (t.replay log).resolve? x = (s.replay log).resolve? x := by
  induction log with
  | nil => exact h
  | cons e log ih =>
    cases e with
    | bound y v =>
      by_cases hy : x = y
      · simp only [replay, hy, resolve?_bind_self]
      · simp only [replay, resolve?_bind_of_ne _ _ hy, ih]
    | evaluated | called | raised => exact ih

theorem layers_replay_congr {s t : Scope} (h : t.layers x = s.layers x) (log : List Event) :
    (t.replay log).layers x = (s.replay log).layers x := by
  induction log with
  | nil => exact h
  | cons e log ih =>
    cases e with
    | bound y v =>
      by_cases hy : x = y
      · simp only [replay, hy, layers_bind_self] at ih ⊢
        rw [ih]
      · simp only [replay, layers_bind_of_ne _ _ hy, ih]
    | evaluated | called | raised => exact ih

/-- What a name is bound to stays the same if it is not written. -/
theorem layers_replay_of_not_bound {log : List Event} (h : ∀ v, .bound x v ∉ log) (s : Scope) :
    (s.replay log).layers x = s.layers x := by
  induction log with
  | nil => rfl
  | cons e log ih =>
    have ih' := ih fun v hv => h v (List.mem_cons_of_mem _ hv)
    cases e with
    | bound y v =>
      have hy : x ≠ y := fun hxy => h v (by simp [hxy])
      rw [replay, layers_bind_of_ne _ _ hy, ih']
    | evaluated | called | raised => exact ih'

end Scope

/-! ## Runs from states that look alike -/

/-- `t` shows the names in `A` as `s` does, and hands out the same identities. -/
structure State.LooksLike (A : Symbol → Prop) (s t : State) : Prop where
  identity : t.nextIdentity = s.nextIdentity
  resolve : ∀ x, A x → t.scope.resolve? x = s.scope.resolve? x

theorem State.LooksLike.refl (A : Symbol → Prop) (s : State) : LooksLike A s s :=
  ⟨rfl, fun _ _ => rfl⟩

/-- The runs from all states that look like `s` are one: they have the same outcome and put the same
things on record, and write names in `A` only. -/
def Predicted (A : Symbol → Prop) (P : α → Prop) (s : State) (a : Action α) : Prop :=
  ∃ o k log, Outcome.Sat P True o ∧ (∀ x v, .bound x v ∈ log → A x ∧ v.NamesIn A) ∧
    ∀ t, State.LooksLike A s t → a.run t = (o, ⟨t.scope.replay log, k, log ++ t.events⟩)

theorem Predicted.bind {P : α → Prop} {Q : β → Prop} {x : Action α} {f : α → Action β}
    (hs : s.scope.Closed A) (hx : Predicted A P s x)
    (hf : ∀ a, P a → ∀ t : State, t.scope.Closed A → Predicted A Q t (f a)) :
    Predicted A Q s (x >>= f) := by
  obtain ⟨o, k, log, hsat, hlog, hrun⟩ := hx
  cases o with
  | error e =>
    refine ⟨.error e, k, log, ?_, hlog, fun t ht => ?_⟩
    · cases e <;> trivial
    · rw [Action.run_bind, hrun t ht]
  | ok a =>
    let s' : State := ⟨s.scope.replay log, k, log ++ s.events⟩
    have hs' : s'.scope.Closed A := hs.replay fun x v h => (hlog x v h).2
    obtain ⟨o, k', log', hsat', hlog', hrun'⟩ := hf a hsat s' hs'
    refine ⟨o, k', log' ++ log, hsat', fun x v h => ?_, fun t ht => ?_⟩
    · exact (List.mem_append.mp h).elim (hlog' x v) (hlog x v)
    · let t' : State := ⟨t.scope.replay log, k, log ++ t.events⟩
      have ht' : State.LooksLike A s' t' :=
        ⟨rfl, fun x hx => Scope.resolve?_replay_congr (ht.resolve x hx) log⟩
      rw [Action.run_bind_ok (hrun t ht), hrun' t' ht', Scope.replay_append, List.append_assoc]

/-- An action that does the same in all states is predicted in each. -/
theorem Predicted.of_run {P : α → Prop} (o : Outcome α) (log : List Event) (ho : o.Sat P True)
    (hlog : ∀ x v, .bound x v ∈ log → A x ∧ v.NamesIn A)
    (hrun : ∀ t, a.run t = (o, ⟨t.scope.replay log, t.nextIdentity, log ++ t.events⟩)) :
    Predicted A P s a :=
  ⟨o, s.nextIdentity, log, ho, hlog, fun t ht => by rw [hrun t, ht.identity]⟩

theorem Predicted.raise {P : α → Prop} : Predicted A P s (Action.raise e) :=
  .of_run (.error (.raised e)) [.raised e] trivial (by simp) fun _ => rfl

theorem Predicted.unfinished {P : α → Prop} : Predicted A P s (throw .unfinished) :=
  .of_run (.error .unfinished) [] trivial nofun fun _ => rfl

/-- Only the look-up of a name is told by the scope. -/
theorem Predicted.resolve (hs : s.scope.Closed A) (hx : A x) :
    Predicted A (Value.NamesIn A) s (Action.resolve x) := by
  cases hv : s.scope.resolve? x with
  | some v =>
    refine ⟨.ok v, s.nextIdentity, [], hs x v hx hv, nofun, fun t ht => ?_⟩
    rw [Action.run_resolve, ht.resolve x hx, hv, ← ht.identity]
    rfl
  | none =>
    refine ⟨.error (.raised (.undefinedSymbol x)), s.nextIdentity, [.raised (.undefinedSymbol x)],
      trivial, by simp, fun t ht => ?_⟩
    rw [Action.run_resolve, ht.resolve x hx, hv, ← ht.identity]
    rfl

/-- The law of runs that are told by the names in `A`. -/
def agreementLaw (limit : Option Nat) {A : Symbol → Prop} (hassign : A ⟨"set!"⟩)
    (hinc : A ⟨"inc"⟩) : Law Unit limit (Value.NamesIn A) where
  Holds P a := ∀ s : State, s.scope.Closed A → Predicted A P s (a ())
  hereditary := Value.NamesIn.hereditary hassign hinc
  pure h _ _ := .of_run (.ok _) [] h nofun fun _ => rfl
  bind hx hf s hs := (hx s hs).bind hs hf
  raise _ _ := .raise
  endless _ _ _ _ := .unfinished
  resolve hx _ hs := .resolve hs (Value.namesIn_symbol.mp hx)
  bindSymbol {x v} hx hv _ _ := by
    refine .of_run (.ok ()) [.bound x v] trivial (fun y w h => ?_) fun _ => rfl
    cases List.mem_singleton.mp h
    exact ⟨Value.namesIn_symbol.mp hx, hv⟩
  enter {sf forms} _ _ _ :=
    .of_run (.ok ()) [.called (.special sf) forms] trivial (by simp) fun _ => rfl
  call {f args eval} hargs s _ := by
    obtain ⟨o, m, -, ho, ha⟩ := f.exists_answers limit args s.nextIdentity
    have hsat := ho _ (Value.NamesIn.hereditary hassign hinc).toInherited hargs
    refine ⟨o, m, o.log ++ [.called (.fn f) args], hsat.mono (fun _ => id) fun _ => trivial, ?_, ?_⟩
    · rcases o with (e | -) | v <;> simp [Outcome.log, Outcome.error?]
    · intro t ht
      rw [ha.callFunction_run ht.identity, Scope.replay_append, Scope.replay_log]
      simp [Scope.replay]

theorem predicted_evalWith (limit : Option Nat) (n : Nat) {A : Symbol → Prop}
    (hassign : A ⟨"set!"⟩) (hinc : A ⟨"inc"⟩) {form : Value} (hform : form.NamesIn A) {s : State}
    (hs : s.scope.Closed A) :
    Predicted A (Value.NamesIn A) s (evalWith .reference limit n form) := by
  refine (agreementLaw limit hassign hinc).evalWith (fun _ _ => .unfinished) ?_ n hform s hs
  exact fun form _ _ _ => .of_run (.ok ()) [.evaluated form] trivial (by simp) fun _ => rfl

/-! ## Resolution -/

/-- From all states that resolve every name as `s` does, an evaluation goes the same way. -/
theorem exists_run_of_resolution (limit : Option Nat) (n : Nat) (form : Value) (s : State) :
    ∃ o k log, ∀ t, State.LooksLike (fun _ => True) s t →
      (evalWith .reference limit n form).run t =
        (o, ⟨t.scope.replay log, k, log ++ t.events⟩) := by
  have hform : form.NamesIn fun _ => True := fun _ _ => trivial
  have hs : s.scope.Closed fun _ => True := fun _ _ _ _ _ _ => trivial
  obtain ⟨o, k, log, -, -, hrun⟩ := predicted_evalWith limit n trivial trivial hform hs
  exact ⟨o, k, log, hrun⟩

/-- Evaluation sees a chain of scopes only through what the names resolve to: in two chains in which
every name resolves alike, or is unbound in both, a form has the same outcome, and every name
resolves alike afterwards. A fresh child of a scope is such a chain. -/
theorem evaluation_sees_only_resolution (limit : Option Nat) (n : Nat) (form : Value) (s : State)
    (t : Scope) (h : ∀ x, t.resolve? x = s.scope.resolve? x) :
    let r := (evalWith .reference limit n form).run s
    let r' := (evalWith .reference limit n form).run { s with scope := t }
    let c := (evalWith .reference limit n form).run { s with scope := s.scope.child }
    (r'.1 = r.1 ∧ (∀ x, r'.2.scope.resolve? x = r.2.scope.resolve? x) ∧
        r'.2.events = r.2.events ∧ r'.2.nextIdentity = r.2.nextIdentity) ∧
      c.1 = r.1 ∧ ∀ x, c.2.scope.resolve? x = r.2.scope.resolve? x := by
  intro r r' c
  obtain ⟨o, k, log, hrun⟩ := exists_run_of_resolution limit n form s
  have hr : r = _ := hrun s (.refl _ s)
  have hr' : r' = _ := hrun { s with scope := t } ⟨rfl, fun x _ => h x⟩
  have hchild x : s.scope.child.resolve? x = s.scope.resolve? x := s.scope.resolve?_child x
  have hc : c = _ := hrun { s with scope := s.scope.child } ⟨rfl, fun x _ => hchild x⟩
  rw [hr, hr', hc]
  refine ⟨⟨rfl, fun x => ?_, rfl, rfl⟩, rfl, fun x => ?_⟩
  · exact Scope.resolve?_replay_congr (h x) log
  · exact Scope.resolve?_replay_congr (hchild x) log

theorem evaluation_sees_only_resolution_shadowed :
    let s := State.initial ((Scope.reference.bind ⟨"y"⟩ (.int 3)).bind ⟨"x"⟩ (.int 1))
    let shadowed := (Scope.reference.bind ⟨"x"⟩ (.int 7)).child.bind ⟨"y"⟩ (.int 3)
    let t := shadowed.child.bind ⟨"x"⟩ (.int 1)
    let form : Value := .list [.symbol ⟨"set!"⟩, .symbol ⟨"y"⟩,
      .list [.symbol ⟨"+"⟩, .symbol ⟨"x"⟩, .symbol ⟨"y"⟩]]
    let r := (evalWith .reference none 3 form).run s
    let r' := (evalWith .reference none 3 form).run { s with scope := t }
    (∀ x, t.resolve? x = s.scope.resolve? x) ∧ r.1 = .ok (.int 4) ∧
      r'.1 = r.1 ∧ ∀ x, r'.2.scope.resolve? x = r.2.scope.resolve? x := by
  intro s shadowed t form r r'
  have h x : t.resolve? x = s.scope.resolve? x := by
    by_cases hx : x = ⟨"x"⟩
    · simp [s, t, State.initial, hx]
    · by_cases hy : x = ⟨"y"⟩
      · simp [s, t, shadowed, State.initial, hy, Scope.resolve?_bind_of_ne]
      · simp [s, t, shadowed, State.initial, hx, hy, Scope.resolve?_bind_of_ne]
  have hrun := evaluation_sees_only_resolution none 3 form s t h
  exact ⟨h, rfl, hrun.1.1, hrun.1.2.1⟩

/-! ## Unrelated bindings -/

/-- Whatever a name is bound to, at whichever level of a chain of scopes, makes no difference to the
evaluation of a form if the name occurs neither in the form nor in what the other names are bound
to, and is none of the two names that the macro brings. The outcome is the same, all other names
end up with the same bindings, and the bindings of the name itself are left alone. -/
theorem unrelated_binding_does_not_interfere (limit : Option Nat) (n : Nat) {form : Value}
    {z : Symbol} (hassign : z ≠ ⟨"set!"⟩) (hinc : z ≠ ⟨"inc"⟩) (hform : ¬form.Occurs z) {s : State}
    (hs : ∀ x v, x ≠ z → s.scope.resolve? x = some v → ¬v.Occurs z) {t : Scope}
    (ht : ∀ x, x ≠ z → t.layers x = s.scope.layers x) :
    let r := (evalWith .reference limit n form).run s
    let r' := (evalWith .reference limit n form).run { s with scope := t }
    r'.1 = r.1 ∧ (∀ x, x ≠ z → r'.2.scope.layers x = r.2.scope.layers x) ∧
      r.2.scope.layers z = s.scope.layers z ∧ r'.2.scope.layers z = t.layers z := by
  intro r r'
  have hnames {v : Value} (hv : ¬v.Occurs z) : v.NamesIn (· ≠ z) := fun x hx h => hv (h ▸ hx)
  obtain ⟨o, k, log, -, hlog, hrun⟩ := predicted_evalWith limit n hassign.symm hinc.symm
    (hnames hform) fun x v hx hv => hnames (hs x v hx hv)
  have hr : r = _ := hrun s (.refl _ s)
  have hr' : r' = _ := hrun { s with scope := t } ⟨rfl, fun x hx => by
    rw [Scope.resolve?_eq_layers, Scope.resolve?_eq_layers, ht x hx]⟩
  have hz v : .bound z v ∉ log := fun h => (hlog z v h).1 rfl
  rw [hr, hr']
  refine ⟨rfl, fun x hx => ?_, ?_, ?_⟩
  · exact Scope.layers_replay_congr (ht x hx) log
  · exact Scope.layers_replay_of_not_bound hz s.scope
  · exact Scope.layers_replay_of_not_bound hz t

theorem unrelated_binding_does_not_interfere_loop :
    let z : Symbol := ⟨"hidden"⟩
    let items : Value := .vector [.int 1, .resolved (.symbol ⟨"n"⟩)]
    let root := (Scope.reference.bind ⟨"n"⟩ (.int 0)).bind ⟨"items"⟩ items
    let s := State.initial (root.child.bind z (.symbol z))
    let t := (root.bind z (.int 5)).child
    let form : Value := .list [.symbol ⟨"doseq"⟩, .vector [.symbol ⟨"x"⟩, .symbol ⟨"items"⟩],
      .list [.symbol ⟨"inc!"⟩, .symbol ⟨"n"⟩]]
    let r := (evalWith .reference none 5 form).run s
    let r' := (evalWith .reference none 5 form).run { s with scope := t }
    (z ≠ ⟨"set!"⟩ ∧ z ≠ ⟨"inc"⟩ ∧ ¬form.Occurs z ∧
        (∀ x v, x ≠ z → s.scope.resolve? x = some v → ¬v.Occurs z) ∧
        ∀ x, x ≠ z → t.layers x = s.scope.layers x) ∧
      r.2.scope.resolve? ⟨"n"⟩ = some (.int 2) ∧
      r'.1 = r.1 ∧ (∀ x, x ≠ z → r'.2.scope.layers x = r.2.scope.layers x) ∧
      r.2.scope.layers z = s.scope.layers z ∧ r'.2.scope.layers z = t.layers z := by
  intro z items root s t form r r'
  have hz : z ≠ ⟨"set!"⟩ ∧ z ≠ ⟨"inc"⟩ := by decide
  have hV : Hereditary (Value.NamesIn (· ≠ z)) := Value.NamesIn.hereditary hz.1.symm hz.2.symm
  have hform : ¬form.Occurs z := by
    suffices h : form.NamesIn (· ≠ z) from fun hz => h z hz rfl
    simp [form, hV.list, hV.vector, Value.namesIn_symbol, z]
  have hs x v (hx : x ≠ z) (hv : s.scope.resolve? x = some v) : ¬v.Occurs z := by
    suffices h : v.NamesIn (· ≠ z) from fun hz => h z hz rfl
    rcases Scope.resolve?_of_bind hv with ⟨hxz, -⟩ | ⟨-, hv⟩
    · exact absurd hxz hx
    rw [Scope.resolve?_child] at hv
    rcases Scope.resolve?_of_bind hv with ⟨-, rfl⟩ | ⟨-, hv⟩
    · have hint : (Value.int 1).NamesIn (· ≠ z) := hV.scalar rfl
      have hname : (Value.symbol ⟨"n"⟩).NamesIn (· ≠ z) := Value.namesIn_symbol.mpr (by decide)
      simp [items, hV.vector, hV.resolved, hint, hname]
    rcases Scope.resolve?_of_bind hv with ⟨-, rfl⟩ | ⟨-, hv⟩
    · exact hV.scalar rfl
    rcases Scope.native_or_type_of_reference hv with ⟨n, rfl⟩ | ⟨t, rfl⟩
    · exact fun _ => nofun
    · exact hV.scalar rfl
  have ht x (hx : x ≠ z) : t.layers x = s.scope.layers x := by
    simp [s, t, State.initial, Scope.layers_bind_of_ne _ _ hx]
  exact ⟨⟨hz.1, hz.2, hform, hs, ht⟩, rfl,
    unrelated_binding_does_not_interfere none 5 hz.1 hz.2 hform hs ht⟩

end Lisplet
