import Lisplet.Outcome
import Lisplet.Scope

/-!
What evaluation can do: read and write the scope, make new host sequences, fail, and keep a record
of all that happens. The record decides nothing; it is there so that the order of evaluations,
calls, writes and failures can be told afterwards. Main statement: `run_bind` says how runs compose.
-/

namespace Lisplet

/-- Something that happened in the course of an evaluation. -/
inductive Event where
  /-- A form was handed to the evaluator. -/
  | evaluated (form : Value)
  /-- A native was called, with values or, for a special form, with forms. -/
  | called (n : Native) (args : List Value)
  | bound (x : Symbol) (v : Value)
  /-- An error came up for the first time. -/
  | raised (e : Error)

structure State where
  scope : Scope
  /-- No host sequence has this identity or a greater one. -/
  nextIdentity : Nat
  /-- What has happened, the latest first. -/
  events : List Event

/-- The arguments that a recorder has been called with, the first call first. -/
def State.recorded (s : State) (index : Nat) : List (List Value) :=
  s.events.reverse.filterMap fun
    | .called (.fn (.recorder i _)) args => if i = index then some args else none
    | _ => none

/-- A step of evaluation: it may change the state, and does so too when it has no result. -/
abbrev Action := ExceptT Stop (StateM State)

namespace Action

/-- The outcome of an action from a state, and the state it leaves. -/
def run (a : Action α) (s : State) : Outcome α × State := StateT.run (ExceptT.run a) s

def record (e : Event) : Action Unit := modify fun s => { s with events := e :: s.events }

/-- Fails with a new error. -/
def raise (e : Error) : Action α := do
  record (.raised e)
  throw (.raised e)

/-- The outcome of a computation that needs no state. -/
def ofOutcome : Outcome α → Action α
  | .ok a => pure a
  | .error (.raised e) => raise e
  | .error .unfinished => throw .unfinished

/-- Binds a symbol in the current scope. -/
def bindSymbol (x : Symbol) (v : Value) : Action Unit := do
  record (.bound x v)
  modify fun s => { s with scope := s.scope.bind x v }

/-- The value of a symbol, looked up through the chain of scopes. -/
def resolve (x : Symbol) : Action Value := do
  match (← get).scope.resolve? x with
  | some v => return v
  | none => raise (.undefinedSymbol x)

/-- An identity that no host sequence has yet. -/
def freshIdentity : Action Nat := do
  let s ← get
  set { s with nextIdentity := s.nextIdentity + 1 }
  return s.nextIdentity

/-! ## Runs -/

@[simp] theorem run_pure (a : α) (s : State) : (pure a : Action α).run s = (.ok a, s) := rfl

theorem run_bind (x : Action α) (f : α → Action β) (s : State) :
    (x >>= f).run s =
      match x.run s with
      | (.ok a, t) => (f a).run t
      | (.error e, t) => (.error e, t) := by
  change StateT.run (ExceptT.run x >>= ExceptT.bindCont f) s = _
  rw [StateT.run_bind]
  change (match StateT.run (ExceptT.run x) s with
    | (o, t) => StateT.run (ExceptT.bindCont f o) t) = _
  rw [run]
  rcases StateT.run (ExceptT.run x) s with ⟨_ | _, t⟩ <;> rfl

theorem run_bind_ok {x : Action α} {f : α → Action β} (h : x.run s = (.ok a, t)) :
    (x >>= f).run s = (f a).run t := by
  rw [run_bind, h]

theorem run_bind_unfinished {x : Action α} {f : α → Action β}
    (h : (x.run s).1 = .error .unfinished) : ((x >>= f).run s).1 = .error .unfinished := by
  rw [run_bind]
  rcases hr : x.run s with ⟨e | a, t⟩ <;> rw [hr] at h <;> cases h
  rfl

/-- A run has a result when both of its parts do. -/
theorem run_bind_eq_ok {x : Action α} {f : α → Action β} : (x >>= f).run s = (.ok b, u) ↔
    ∃ a t, x.run s = (.ok a, t) ∧ (f a).run t = (.ok b, u) := by
  rw [run_bind]
  rcases x.run s with ⟨e | a, t⟩
  · simp
  · refine ⟨fun h => ⟨a, t, rfl, h⟩, ?_⟩
    rintro ⟨_, _, ⟨⟩, h⟩
    exact h

/-- A run fails in its first part, or in its second one after the first has ended. -/
theorem run_bind_eq_error {x : Action α} {f : α → Action β} : (x >>= f).run s = (.error e, u) ↔
    x.run s = (.error e, u) ∨ ∃ a t, x.run s = (.ok a, t) ∧ (f a).run t = (.error e, u) := by
  rw [run_bind]
  rcases x.run s with ⟨e | a, t⟩
  · simp
  · refine ⟨fun h => .inr ⟨a, t, rfl, h⟩, ?_⟩
    rintro (⟨⟨⟩⟩ | ⟨_, _, ⟨⟩, h⟩)
    exact h

/-- A relation that holds of some end of a run, and of none but its true one, says how it ends. -/
theorem run_eq_iff {x : Action α} {Ends : Outcome α × State → Prop} (hexists : ∃ r, Ends r)
    (hends : ∀ r, Ends r → x.run s = r) : x.run s = r ↔ Ends r := by
  refine ⟨?_, hends r⟩
  rintro rfl
  obtain ⟨r, h⟩ := hexists
  rwa [hends r h]

theorem run_map (f : α → β) (x : Action α) (s : State) :
    (f <$> x).run s = ((x.run s).1.map f, (x.run s).2) := by
  rw [← bind_pure_comp, run_bind]
  rcases x.run s with ⟨_ | _, t⟩ <;> rfl

@[simp] theorem run_unfinished (s : State) :
    (throw .unfinished : Action α).run s = (.error .unfinished, s) := rfl

@[simp] theorem run_record (e : Event) (s : State) :
    (record e).run s = (.ok (), { s with events := e :: s.events }) := rfl

theorem run_record_bind (e : Event) (f : Unit → Action α) (s : State) :
    (record e >>= f).run s = (f ()).run { s with events := e :: s.events } := by
  rw [run_bind, run_record]

@[simp] theorem run_raise (e : Error) (s : State) :
    (raise e : Action α).run s =
      (.error (.raised e), { s with events := .raised e :: s.events }) := rfl

@[simp] theorem run_bindSymbol (x : Symbol) (v : Value) (s : State) :
    (bindSymbol x v).run s =
      (.ok (), { s with scope := s.scope.bind x v, events := .bound x v :: s.events }) := rfl

@[simp] theorem run_freshIdentity (s : State) :
    freshIdentity.run s = (.ok s.nextIdentity, { s with nextIdentity := s.nextIdentity + 1 }) := rfl

theorem run_resolve (x : Symbol) (s : State) :
    (resolve x).run s =
      match s.scope.resolve? x with
      | some v => (.ok v, s)
      | none => (raise (.undefinedSymbol x)).run s := by
  rw [resolve, run_bind]
  change Action.run (match s.scope.resolve? x with | some v => _ | none => _) s = _
  cases s.scope.resolve? x <;> rfl

end Action

end Lisplet
