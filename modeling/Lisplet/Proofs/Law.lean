import Lisplet.Proofs.Staged

/-!
Laws that say the same at all stages of a run. With one index a law speaks of single runs, with two
it compares runs, and with all natural numbers it speaks of runs with growing budgets. Main
statements: `Law.callSpecial` and `Law.evalForm`.
-/

namespace Lisplet

/-- A property of families of actions, and of the values they return, that is closed under all that
evaluation in the reference host is made of. `V` holds of every value that comes up. -/
structure Law (ι : Type) (limit : Option Nat) (V : Value → Prop) where
  Holds {α : Type} : (α → Prop) → (ι → Action α) → Prop
  hereditary : Hereditary V
  pure {α : Type} {P : α → Prop} {a : α} : P a → Holds P fun _ => pure a
  bind {α β : Type} {P : α → Prop} {Q : β → Prop} {x : ι → Action α} {f : α → ι → Action β} :
    Holds P x → (∀ a, P a → Holds Q (f a)) → Holds Q fun i => x i >>= (f · i)
  raise {α : Type} {P : α → Prop} {e : Error} : Holds P fun _ => .raise e
  /-- A walk that does not end is met at a value of the run only. -/
  endless {α : Type} {P : α → Prop} {v : Value} : V v → v.Endless →
    Holds P fun _ => throw .unfinished
  resolve {x : Symbol} : V (.symbol x) → Holds V fun _ => .resolve x
  bindSymbol {x : Symbol} {v : Value} : V (.symbol x) → V v →
    Holds (fun _ => True) fun _ => .bindSymbol x v
  call {f : Function} {args : List Value} {eval : ι → Evaluator} : (∀ v ∈ args, V v) →
    Holds V fun i => Context.callFunction ⟨.reference, limit, eval i⟩ f args
  enter {s : SpecialForm} {forms : List Value} : (∀ v ∈ forms, V v) →
    Holds (fun _ => True) fun _ => .record (.called (.special s) forms)

namespace Law

variable {ι : Type} {limit : Option Nat} {V : Value → Prop} (L : Law ι limit V)

theorem mono {x : ι → Action α} (hx : L.Holds P x) (h : ∀ a, P a → Q a) : L.Holds Q x := by
  have := L.bind hx (f := fun a _ => Pure.pure a) fun a ha => L.pure (h a ha)
  simpa only [bind_pure] using this

/-- The law as one of all stages. -/
def staged : StagedLaw ι limit (fun _ => V) fun _ => V where
  Holds log P x := ∀ log', log <:+ log' → L.Holds (P log') x
  closed _ := L.hereditary.forms
  keepsForm _ h := h
  keepsValue _ h := h
  later h hx log' h' := hx log' (h.trans h')
  pure hP log' h' := L.pure (hP log' h')
  bind hx hf log' h' := L.bind (hx log' h') fun a ha => hf log' a h' ha log' List.suffix_rfl
  raise _ _ := L.raise
  endless hv he _ _ := L.endless hv he
  resolve hx _ _ := L.resolve hx
  bindSymbol hx hv _ _ := L.bindSymbol hx hv
  call hargs _ _ := L.call hargs
  enter hforms _ _ := L.mono (L.enter hforms) fun _ _ g _ heq => hforms g (by simp [heq])

theorem at_stage {P : α → Prop} {x : ι → Action α} (h : L.Holds P x) (log : List Event) :
    L.staged.Holds log (fun _ => P) x :=
  fun _ _ => h

theorem of_staged {P : α → Prop} {x : ι → Action α} (h : L.staged.Holds [] (fun _ => P) x) :
    L.Holds P x :=
  h [] List.suffix_rfl

section
variable {eval : ι → Evaluator}

theorem evalThreadSteps {steps : List Value} (hsteps : ∀ v ∈ steps, V v) (hv : V v)
    (h : ∀ step ∈ steps, ∀ v g, splice? p step v = some g → V g → L.Holds V (eval · g)) :
    L.Holds V fun i => steps.foldlM (Context.evalThreadStep ⟨.reference, limit, eval i⟩ p) v :=
  L.of_staged <| L.staged.evalThreadSteps hsteps hv fun log _ step hstep v g hg hgV =>
    L.at_stage (h step hstep v g hg hgV) log

/-- A special form obeys the law when the evaluations it can enter do. -/
theorem callSpecial (hforms : ∀ v ∈ forms, V v)
    (h : ∀ g, s.Enters forms g → V g → L.Holds V (eval · g)) :
    L.Holds V fun i => Context.callSpecial ⟨.reference, limit, eval i⟩ s forms :=
  L.of_staged <| L.staged.callSpecial hforms fun log g _ hg hgV => L.at_stage (h g hg hgV) log

/-- A loop whose binding is marked obeys the law when the call does up to its collection form. -/
theorem callUnmarked (hforms : ∀ v ∈ forms, V v)
    (hg : (Event.called (.special s) forms).unmarked? = some g)
    (hopen : L.Holds V fun i => .record (.called (.special s) forms) >>= fun _ => eval i g)
    (h : ∀ g ∈ forms, L.Holds V (eval · g)) :
    L.Holds V fun i => Context.callSpecial ⟨.reference, limit, eval i⟩ s forms :=
  L.of_staged <| L.staged.callUnmarked hforms hg (L.at_stage hopen []) fun g hg =>
    L.at_stage (h g hg) []

/-- The evaluation of a form obeys the law when that of its items and of its expansion does, and the
special forms its head can be. -/
theorem evalForm (hform : V form)
    (hitems : ∀ forms, form.items? = some forms → ∀ g ∈ forms, L.Holds V (eval · g))
    (hexpand : ∀ g, Host.expandInc? form = some g → V g → L.Holds V (eval · g))
    (hspecial : ∀ head forms s, form = .list (head :: forms) →
      L.Holds V fun i => Context.callSpecial ⟨.reference, limit, eval i⟩ s forms) :
    L.Holds V fun i => Context.evalForm ⟨.reference, limit, eval i⟩ form := by
  refine L.of_staged (L.staged.evalForm hform ?_ ?_ ?_)
  · exact fun forms hforms g hg => L.at_stage (hitems forms hforms g hg) []
  · exact fun g hg hgV => L.at_stage (hexpand g hg hgV) []
  · exact fun head forms s heq => L.at_stage (hspecial head forms s heq) []

/-- A law that puts no condition on evaluated forms holds of an evaluation when it holds of those
inside it. -/
theorem evalStep (hevaluated : L.Holds (fun _ => True) fun _ => .record (.evaluated form))
    (h : ∀ g, V g → L.Holds V (eval · g)) (hform : V form) :
    L.Holds V fun i => .record (.evaluated form) >>= fun _ =>
      Context.evalForm ⟨.reference, limit, eval i⟩ form := by
  refine L.of_staged (L.staged.evalStep (L.at_stage hevaluated []) ?_ hform)
  exact fun log g _ hg => L.at_stage (h g hg) log

/-- It holds of evaluation within every budget then. -/
theorem evalWith (hunfinished : L.Holds V fun _ => throw .unfinished)
    (hevaluated : ∀ form, V form → L.Holds (fun _ => True) fun _ => .record (.evaluated form))
    (n : Nat) (hform : V form) : L.Holds V fun _ => evalWith .reference limit n form := by
  refine L.of_staged (L.staged.evalWith (L.at_stage hunfinished) ?_ n hform)
  exact fun log form hform => L.at_stage (hevaluated form hform) log

end

end Law

end Lisplet
