import Lisplet.Eval
import Lisplet.Proofs.Runs

/-!
Checks before effects. A special form looks at the forms it is written with before it evaluates any
of them, and has written nothing when one of its operands fails. Main statement:
`special_forms_check_before_effects`.
-/

namespace Lisplet

/-! ## Forms that are taken, and forms that are refused -/

theorem exists_cons_cons_of_two_le {xs : List α} (h : 2 ≤ xs.length) :
    ∃ a b ys, xs = a :: b :: ys := by
  obtain ⟨a, xs, rfl⟩ := List.exists_cons_of_length_pos (Nat.lt_of_lt_of_le Nat.zero_lt_two h)
  obtain ⟨b, ys, rfl⟩ := List.exists_cons_of_length_pos (Nat.le_of_succ_le_succ h)
  exact ⟨a, b, ys, rfl⟩

namespace SpecialForm

/-- The forms that a special form can be written with, and the one of them, if any, that it
evaluates first. -/
inductive Takes : SpecialForm → List Value → Option Value → Prop
  | case : Takes .case (subject :: clause :: clauses) (some subject)
  | map : Takes .map (function :: collection :: collections) (some function)
  | filter : Takes .filter [predicate, collection] (some predicate)
  | reduce : Takes .reduce [function, collection] (some function)
  | reduce_seed : Takes .reduce [function, seed, collection] (some function)
  | doseq : binding.payload = .vector [.symbol x, form] → Takes .doseq (binding :: body) (some form)
  | assign : target.payload = .symbol x → Takes .assign (target :: form :: rest) (some form)
  | threadFirst {steps : List Value} : Takes .threadFirst (seed :: steps) (some seed)
  | threadLast {steps : List Value} : Takes .threadLast (seed :: steps) (some seed)
  | quote : Takes .quote [form] none

/-- With fewer forms than this a special form fails for want of more. -/
def required : SpecialForm → Nat
  | case | map | filter | reduce | assign => 2
  | doseq | threadFirst | threadLast => 1
  | quote | foreign _ => 0

theorem required_le_two (f : SpecialForm) : f.required ≤ 2 := by
  cases f <;> simp [required]

/-- The ways in which forms can be unfit for a special form, each with what is said about it. -/
inductive Refuses : SpecialForm → List Value → Error → Prop
  | too_few : forms.length < f.required →
      Refuses f forms (.arityAtLeast f.name f.required forms.length)
  | filter_too_many : 2 < forms.length →
      Refuses .filter forms (.arityExactly "filter" 2 forms.length)
  | reduce_too_many : 3 < forms.length →
      Refuses .reduce forms (.arityRange "reduce" 2 3 forms.length)
  | quote_not_one : forms.length ≠ 1 → Refuses .quote forms (.arityExactly "quote" 1 forms.length)
  | no_binding : (∀ v form, binding.payload ≠ .vector [v, form]) →
      Refuses .doseq (binding :: body)
        (.typeIn "doseq" "[symbol seq-form] binding" binding.typeName)
  | no_loop_symbol : binding.payload = .vector [v, form] → (∀ x, v ≠ .symbol x) →
      Refuses .doseq (binding :: body) (.typeIn "doseq" "symbol" v.typeName)
  | no_target : (∀ x, target.payload ≠ .symbol x) →
      Refuses .assign (target :: form :: rest) (.typeIn "set!" "symbol" target.typeName)
  | no_code {name : String} : Refuses (.foreign name) forms (.noCode name)

/-- Forms of any number and shape are taken or refused. -/
theorem takes_or_refuses (f : SpecialForm) (forms : List Value) :
    (∃ first?, f.Takes forms first?) ∨ ∃ e, f.Refuses forms e := by
  by_cases hlt : forms.length < f.required
  · exact .inr ⟨_, .too_few hlt⟩
  have henough : f.required ≤ forms.length := Nat.le_of_not_lt hlt
  cases f with
  | case =>
    obtain ⟨subject, clause, clauses, rfl⟩ := exists_cons_cons_of_two_le henough
    exact .inl ⟨_, .case⟩
  | map =>
    obtain ⟨function, collection, collections, rfl⟩ := exists_cons_cons_of_two_le henough
    exact .inl ⟨_, .map⟩
  | filter =>
    obtain ⟨predicate, collection, rest, rfl⟩ := exists_cons_cons_of_two_le henough
    cases rest with
    | nil => exact .inl ⟨_, .filter⟩
    | cons => exact .inr ⟨_, .filter_too_many (by simp)⟩
  | reduce =>
    obtain ⟨function, form, rest, rfl⟩ := exists_cons_cons_of_two_le henough
    rcases rest with _ | ⟨collection, _ | ⟨form', rest⟩⟩
    · exact .inl ⟨_, .reduce⟩
    · exact .inl ⟨_, .reduce_seed⟩
    · exact .inr ⟨_, .reduce_too_many (by simp)⟩
  | doseq =>
    obtain ⟨binding, body, rfl⟩ := List.exists_cons_of_length_pos henough
    by_cases hpair : ∃ v form, binding.payload = .vector [v, form]
    · obtain ⟨v, form, hb⟩ := hpair
      by_cases hv : ∃ x, v = .symbol x
      · obtain ⟨x, rfl⟩ := hv
        exact .inl ⟨_, .doseq hb⟩
      · exact .inr ⟨_, .no_loop_symbol hb (not_exists.mp hv)⟩
    · exact .inr ⟨_, .no_binding fun v form hb => hpair ⟨v, form, hb⟩⟩
  | assign =>
    obtain ⟨target, form, rest, rfl⟩ := exists_cons_cons_of_two_le henough
    by_cases hx : ∃ x, target.payload = .symbol x
    · obtain ⟨x, hx⟩ := hx
      exact .inl ⟨_, .assign hx⟩
    · exact .inr ⟨_, .no_target (not_exists.mp hx)⟩
  | threadFirst =>
    obtain ⟨seed, forms, rfl⟩ := List.exists_cons_of_length_pos henough
    exact .inl ⟨_, .threadFirst⟩
  | threadLast =>
    obtain ⟨seed, forms, rfl⟩ := List.exists_cons_of_length_pos henough
    exact .inl ⟨_, .threadLast⟩
  | quote =>
    by_cases hone : forms.length = 1
    · obtain ⟨form, rfl⟩ := List.length_eq_one_iff.mp hone
      exact .inl ⟨_, .quote⟩
    · exact .inr ⟨_, .quote_not_one hone⟩
  | foreign name => exact .inr ⟨_, .no_code⟩

end SpecialForm

/-! ## Refusals -/

theorem loopBinding_of_ne_vector {b : Value} (h : ∀ v form, b.payload ≠ .vector [v, form]) :
    loopBinding b = .fail (.typeIn "doseq" "[symbol seq-form] binding" b.typeName) := by
  unfold loopBinding
  split
  case h_1 heq => exact absurd heq (h _ _)
  case h_2 heq => exact absurd heq (h _ _)
  case h_3 => rw [Value.typeName_payload]

theorem loopBinding_of_ne_symbol {b v : Value} (h : b.payload = .vector [v, form])
    (hv : ∀ x, v ≠ .symbol x) : loopBinding b = .fail (.typeIn "doseq" "symbol" v.typeName) := by
  unfold loopBinding
  rw [h]
  split
  case h_1 heq =>
    cases heq
    exact absurd rfl (hv _)
  case h_2 heq =>
    cases heq
    rfl
  case h_3 hne => exact absurd rfl (hne v form)

namespace Context

variable {ctx : Context} {f : SpecialForm} {forms : List Value}

theorem applySpecial_of_length_lt (ctx : Context) (h : forms.length < f.required) :
    ctx.applySpecial f forms = .raise (.arityAtLeast f.name f.required forms.length) := by
  rcases forms with _ | ⟨form, _ | ⟨form', rest⟩⟩
  · cases f <;> first | rfl | cases h
  · cases f <;> first | rfl | simp [SpecialForm.required] at h
  · exact absurd (Nat.lt_of_lt_of_le h f.required_le_two) (by simp)

/-- A refusal comes from the forms alone: neither the evaluator nor the state has a part in it. -/
theorem applySpecial_of_refuses (ctx : Context) (h : f.Refuses forms e) :
    ctx.applySpecial f forms = .raise e := by
  cases h with
  | too_few hlt => exact ctx.applySpecial_of_length_lt hlt
  | filter_too_many hlt =>
    obtain ⟨a, b, rest, rfl⟩ := exists_cons_cons_of_two_le (Nat.le_of_lt hlt)
    cases rest with
    | nil => simp at hlt
    | cons => rfl
  | reduce_too_many hlt =>
    obtain ⟨a, b, rest, rfl⟩ := exists_cons_cons_of_two_le (Nat.le_of_lt (Nat.lt_of_succ_lt hlt))
    rcases rest with _ | ⟨c, _ | ⟨d, rest⟩⟩
    · simp at hlt
    · simp at hlt
    · rfl
  | quote_not_one hne =>
    rcases forms with _ | ⟨form, _ | ⟨form', rest⟩⟩
    · rfl
    · exact absurd rfl hne
    · rfl
  | no_binding hb =>
    rw [applySpecial, evalDoseq, loopBinding_of_ne_vector hb]
    rfl
  | no_loop_symbol hb hv =>
    rw [applySpecial, evalDoseq, loopBinding_of_ne_symbol hb hv]
    rfl
  | no_target hx =>
    rw [applySpecial, evalAssign]
    split
    case h_1 x heq => exact absurd heq (hx x)
    case h_2 => rw [Value.typeName_payload]
  | no_code => rfl

/-! ## The first evaluation -/

theorem evalDoseq_of_binding (ctx : Context) (h : binding.payload = .vector [.symbol x, form])
    (body : List Value) :
    ctx.evalDoseq (binding :: body) = (do
      let vs ← ctx.evalElements "doseq" form
      vs.forM (ctx.evalTurn x body)
      return .nil) := by
  rw [evalDoseq, loopBinding_eq_ok.mpr h]
  exact pure_bind _ _

theorem evalAssign_of_target (ctx : Context) (h : target.payload = .symbol x)
    (form : Value) (rest : List Value) :
    ctx.evalAssign (target :: form :: rest) = (do
      let v ← ctx.eval form
      .bindSymbol x v
      return v) := by
  rw [evalAssign, h]

/-- When the form that is evaluated first fails, that is all that a special form does. -/
theorem applySpecial_run_of_first (h : f.Takes forms (some first))
    (hfail : (ctx.eval first).run s = (.error e, t)) :
    (ctx.applySpecial f forms).run s = (.error e, t) := by
  have hfunction : (ctx.evalFunction first).run s = (.error e, t) :=
    evalFunction_run_eq_error.mpr (.inl hfail)
  cases h with
  | case | threadFirst | threadLast => exact Action.run_bind_eq_error.mpr (.inl hfail)
  | map =>
    rw [applySpecial, evalMap_cons_cons]
    exact Action.run_bind_eq_error.mpr (.inl hfunction)
  | filter | reduce | reduce_seed => exact Action.run_bind_eq_error.mpr (.inl hfunction)
  | doseq hb =>
    rw [applySpecial, evalDoseq_of_binding ctx hb]
    exact Action.run_bind_eq_error.mpr (.inl (evalElements_run_eq_error.mpr (.inl hfail)))
  | assign hx =>
    rw [applySpecial, evalAssign_of_target ctx hx]
    exact Action.run_bind_eq_error.mpr (.inl hfail)

/-- An evaluator that gives up gets its turn whenever the forms are taken. -/
theorem exists_not_raised_of_takes (h : f.Takes forms first?) :
    ∃ (ctx : Context) (s : State), ∀ e, ((ctx.applySpecial f forms).run s).1 ≠
      .error (.raised e) := by
  refine ⟨⟨.reference, none, fun _ => throw .unfinished⟩, .initial .reference, fun e heq => ?_⟩
  cases first? with
  | some first =>
    rw [applySpecial_run_of_first h rfl] at heq
    cases heq
  | none =>
    cases h
    cases heq

theorem refuses_iff : f.Refuses forms e ↔ ∀ (ctx : Context) s, (ctx.applySpecial f forms).run s =
    (.error (.raised e), { s with events := .raised e :: s.events }) := by
  constructor
  · intro h ctx s
    rw [applySpecial_of_refuses ctx h, Action.run_raise]
  · intro hrun
    rcases f.takes_or_refuses forms with ⟨first?, h⟩ | ⟨e', h⟩
    · obtain ⟨ctx, s, hne⟩ := exists_not_raised_of_takes h
      exact absurd (congrArg Prod.fst (hrun ctx s)) (hne e)
    · have hraise := hrun ⟨.reference, none, fun _ => throw .unfinished⟩ (.initial .reference)
      rw [applySpecial_of_refuses _ h] at hraise
      cases hraise
      exact h

theorem exists_refuses_iff : (∃ e, f.Refuses forms e) ↔ ¬∃ first?, f.Takes forms first? := by
  constructor
  · rintro ⟨e, h⟩ ⟨first?, htakes⟩
    obtain ⟨ctx, s, hne⟩ := exists_not_raised_of_takes htakes
    exact hne e (congrArg Prod.fst (refuses_iff.mp h ctx s))
  · exact (f.takes_or_refuses forms).resolve_left

/-! ## The forms that write -/

theorem applySpecial_doseq_run_not_seqable (h : SpecialForm.Takes .doseq forms (some form))
    (hform : (ctx.eval form).run s = (.ok v, t)) (hv : v.asSeq? = none) :
    (ctx.applySpecial .doseq forms).run s =
      (Action.raise (.typeIn "doseq" "seqable" v.typeName)).run t := by
  cases h with
  | doseq hb =>
    rw [applySpecial, evalDoseq_of_binding ctx hb]
    exact Action.run_bind_eq_error.mpr
      (.inl (evalElements_run_eq_error.mpr (.inr ⟨v, t, hform, .inl ⟨hv, rfl⟩⟩)))

/-- `set!` succeeds when its target is a symbol and its second form has a value, and then writes
that value to the state that the form has left. -/
theorem applySpecial_assign_run_eq_ok : (ctx.applySpecial .assign forms).run s = (.ok v, u) ↔
    ∃ target form rest x t, forms = target :: form :: rest ∧ target.payload = .symbol x ∧
      (ctx.eval form).run s = (.ok v, t) ∧
      u = { t with scope := t.scope.bind x v, events := .bound x v :: t.events } := by
  constructor
  · intro hrun
    rcases SpecialForm.takes_or_refuses .assign forms with ⟨_, h⟩ | ⟨e, h⟩
    · cases h with
      | @assign target form rest x hx =>
        rw [applySpecial, evalAssign_of_target ctx hx] at hrun
        obtain ⟨w, t, hform, hwrite⟩ := Action.run_bind_eq_ok.mp hrun
        cases hwrite
        exact ⟨target, form, rest, x, t, rfl, hx, hform, rfl⟩
    · rw [applySpecial_of_refuses ctx h] at hrun
      cases hrun
  · rintro ⟨target, form, rest, x, t, rfl, hx, hform, rfl⟩
    rw [applySpecial, evalAssign_of_target ctx hx, Action.run_bind_ok hform]
    rfl

/-- A special form is refused just for the reasons that `Refuses` lists, which are about the forms
it is written with, and then the error is all that there is: no form is evaluated, nothing is called
and nothing is written. What it can be written with is what `Takes` lists. From there it evaluates
one form first, and stops where that has stopped. `doseq` has written nothing either when its
collection form has a value that is no sequence; and `set!` writes one binding, in the innermost
scope of the state that its second form has left, whatever stands behind that form. -/
theorem special_forms_check_before_effects :
    (∀ f forms e, SpecialForm.Refuses f forms e ↔ ∀ (ctx : Context) s,
      (ctx.applySpecial f forms).run s =
        (.error (.raised e), { s with events := .raised e :: s.events })) ∧
    (∀ f forms, (∃ e, SpecialForm.Refuses f forms e) ↔ ¬∃ first?, f.Takes forms first?) ∧
    (∀ f forms first (ctx : Context) s e t, SpecialForm.Takes f forms (some first) →
      (ctx.eval first).run s = (.error e, t) → (ctx.applySpecial f forms).run s = (.error e, t)) ∧
    (∀ forms form (ctx : Context) s v t, SpecialForm.Takes .doseq forms (some form) →
      (ctx.eval form).run s = (.ok v, t) → v.asSeq? = none →
      (ctx.applySpecial .doseq forms).run s =
        (Action.raise (.typeIn "doseq" "seqable" v.typeName)).run t) ∧
    ∀ forms (ctx : Context) s v u, (ctx.applySpecial .assign forms).run s = (.ok v, u) ↔
      ∃ target form rest x t, forms = target :: form :: rest ∧ target.payload = .symbol x ∧
        (ctx.eval form).run s = (.ok v, t) ∧
        u = { t with scope := t.scope.bind x v, events := .bound x v :: t.events } := by
  refine ⟨?_, ?_, ?_, ?_, ?_⟩
  · exact fun f forms e => refuses_iff
  · exact fun f forms => exists_refuses_iff
  · exact fun f forms first ctx s e t h hfail => applySpecial_run_of_first h hfail
  · exact fun forms form ctx s v t h hform hv => applySpecial_doseq_run_not_seqable h hform hv
  · exact fun forms ctx s v u => applySpecial_assign_run_eq_ok

/-- The form `(set! x 1)` has no effect where it is not reached, and keeps it where `doseq` fails on
its value. A marked symbol is a target for `set!`, and no symbol for `doseq`. -/
theorem special_forms_check_before_effects_around_write :
    let ctx := Host.reference.context none 3
    let s := State.initial .reference
    let y : Value := .resolved (.symbol ⟨"y"⟩)
    let write : Value := .list [.symbol ⟨"set!"⟩, .symbol ⟨"x"⟩, .int 1]
    let e : Error := .typeIn "doseq" "symbol" "symbol"
    let refused := (ctx.applySpecial .doseq [.vector [y, write], write]).run s
    let t := ((ctx.eval write).run s).2
    let u : State :=
      { t with scope := t.scope.bind ⟨"y"⟩ (.int 1), events := .bound ⟨"y"⟩ (.int 1) :: t.events }
    let fails := (ctx.applySpecial .doseq [.vector [.symbol ⟨"y"⟩, write], write]).run s
    let writes := (ctx.applySpecial .assign [y, write, .list [.int 2]]).run s
    refused = (.error (.raised e), { s with events := [.raised e] }) ∧
      t.scope = Scope.reference.bind ⟨"x"⟩ (.int 1) ∧
      fails = (Action.raise (.typeIn "doseq" "seqable" "int")).run t ∧
      writes = (.ok (.int 1), u) := by
  intro ctx s y write e refused t u fails writes
  obtain ⟨hrefuses, -, -, hdoseq, hassign⟩ := special_forms_check_before_effects
  have hwrite : (ctx.eval write).run s = (.ok (.int 1), t) := rfl
  have hy : ∀ x, y ≠ .symbol x := by simp [y]
  have he : SpecialForm.Refuses .doseq [.vector [y, write], write] e := .no_loop_symbol rfl hy
  exact ⟨(hrefuses _ _ _).mp he ctx s, rfl, hdoseq _ write ctx s _ t (.doseq rfl) hwrite rfl,
    (hassign _ ctx s _ _).mpr ⟨y, write, _, _, t, rfl, rfl, hwrite, rfl⟩⟩

end Context

end Lisplet
