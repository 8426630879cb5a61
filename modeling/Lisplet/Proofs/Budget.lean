import Lisplet.Proofs.Record

/-!
Budgets of evaluations. A run with a budget is the beginning of every run with a larger one, and all
of it when it has ended. Main statement: `evalWith_extends`.
-/

namespace Lisplet

/-- What a larger budget makes of a run that ended with `r`: the same, or more if it has no end. -/
def Extends (r r' : Outcome α × State) : Prop :=
  r' = r ∨ r.1 = .error .unfinished ∧ r.2.events <:+ r'.2.events

namespace Extends

theorem suffix (h : Extends r r') : r.2.events <:+ r'.2.events := by
  rcases h with rfl | ⟨-, h⟩
  · exact List.suffix_rfl
  · exact h

theorem eq (h : Extends r r') (hr : r.1 ≠ .error .unfinished) : r' = r :=
  h.resolve_right fun h => hr h.1

theorem bind {P : α → Prop} {x x' : Action α} {f f' : α → Action β}
    (hx : Extends (x.run s) (x'.run s)) (hsat : ((x'.run s).1).Sat P True)
    (hf : ∀ a, P a → ∀ t, Extends ((f a).run t) ((f' a).run t))
    (hgrows : ∀ a, P a → ∀ t, t.events <:+ ((f' a).run t).2.events) :
    Extends ((x >>= f).run s) ((x' >>= f').run s) := by
  rw [Action.run_bind, Action.run_bind]
  rcases hx with heq | ⟨he, hevents⟩
  · rw [heq] at hsat ⊢
    rcases hr : x.run s with ⟨e | a, t⟩ <;> rw [hr] at hsat
    · exact .inl rfl
    · exact hf a hsat t
  · generalize x.run s = r at he hevents ⊢
    generalize x'.run s = r' at hsat hevents ⊢
    obtain ⟨e | a, t⟩ := r
    · cases he
      refine .inr ⟨rfl, hevents.trans ?_⟩
      obtain ⟨e' | a, t'⟩ := r'
      · exact List.suffix_rfl
      · exact hgrows a hsat t'
    · cases he

end Extends

/-- The law of runs with a smaller and a larger budget. -/
def budgetLaw (limit : Option Nat) : Law Bool limit fun _ => True :=
  let L := (RecordProperty.trivial limit).law
  { Holds P a := ∀ s, (∀ i, Recorded (fun _ _ => True) P s ((a i).run s)) ∧
      Extends ((a false).run s) ((a true).run s)
    hereditary := L.hereditary
    pure h s := ⟨fun _ => L.pure h s, .inl rfl⟩
    bind hx hf s := by
      have hbind i := (RecordProperty.trivial limit).recorded_bind ((hx s).1 i)
        fun a ha t => (hf a ha t).1 i
      exact ⟨hbind, (hx s).2.bind ((hx s).1 true).1 (fun a ha t => (hf a ha t).2)
        fun a ha t => ((hf a ha t).1 true).suffix⟩
    raise s := ⟨fun _ => L.raise s, .inl rfl⟩
    endless hv he s := ⟨fun _ => L.endless hv he s, .inl rfl⟩
    resolve hx s := ⟨fun _ => L.resolve hx s, .inl rfl⟩
    bindSymbol hx hv s := ⟨fun _ => L.bindSymbol hx hv s, .inl rfl⟩
    enter hforms s := ⟨fun _ => L.enter hforms s, .inl rfl⟩
    call {f args eval} hargs s := by
      obtain ⟨o, m, -, -, ha⟩ := f.exists_answers limit args s.nextIdentity
      have hcall i : L.Holds (fun _ => True) fun _ =>
        Context.callFunction ⟨.reference, limit, eval i⟩ f args := L.call hargs
      refine ⟨fun i => hcall i s, .inl ?_⟩
      rw [ha.callFunction_run rfl, ha.callFunction_run rfl] }

theorem budgetLaw_evalWith (limit : Option Nat) (form : Value) {d : Bool → Nat}
    (h : d false ≤ d true) :
    (budgetLaw limit).Holds (fun _ => True) fun i => evalWith .reference limit (d i) form := by
  have hT := RecordProperty.trivial limit
  generalize hn : d false = n at h
  induction n generalizing d form with
  | zero =>
    refine fun s => ⟨fun i => hT.recorded_evalWith (fun _ => trivial) (d i) form s, .inr ?_⟩
    dsimp only
    rw [hn]
    exact ⟨rfl, (hT.recorded_evalWith (fun _ => trivial) (d true) form s).suffix⟩
  | succ n ih =>
    obtain ⟨e, rfl⟩ : ∃ e : Bool → Nat, d = fun i => e i + 1 := by
      refine ⟨fun i => d i - 1, funext fun i => ?_⟩
      cases i <;> dsimp only <;> omega
    have hn : e false = n := Nat.succ.inj hn
    have hrecord : (budgetLaw limit).Holds (fun _ => True) fun _ => .record (.evaluated form) :=
      fun s => ⟨fun _ => ⟨trivial, [.evaluated form], rfl, rfl, trivial⟩, .inl rfl⟩
    exact (budgetLaw limit).evalStep hrecord (fun g _ => ih g hn (Nat.le_of_succ_le_succ h)) trivial

/-- A run with a larger budget begins like one with a smaller, and is the same if that has ended. -/
theorem evalWith_extends (h : n ≤ m) (limit : Option Nat) (form : Value) (s : State) :
    Extends ((evalWith .reference limit n form).run s)
      ((evalWith .reference limit m form).run s) :=
  (budgetLaw_evalWith limit form (d := fun i => cond i m n) h s).2

end Lisplet
