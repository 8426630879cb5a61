import Lisplet.Eval
import Lisplet.Proofs.Equality

/-!
Clauses of `case`. The forms behind the subject are read in one way as pairs of a key and a body
with a default behind them, the value of the subject selects one body or the default, and no other
form is evaluated. Main statement: `case_selects_first_match`.
-/

namespace Lisplet

/-! ## Reading clauses -/

/-- Clauses as they are written, each with its key in front of its body, and the default last. -/
def clauseForms (clauses : List (Value × Value)) (default? : Option Value) : List Value :=
  clauses.flatMap (fun c => [c.1, c.2]) ++ default?.toList

theorem clauseForms_nil (default? : Option Value) : clauseForms [] default? = default?.toList := rfl

theorem clauseForms_cons (c : Value × Value) (clauses : List (Value × Value))
    (default? : Option Value) :
    clauseForms (c :: clauses) default? = c.1 :: c.2 :: clauseForms clauses default? := rfl

theorem exists_clauseForms_eq : (forms : List Value) →
    ∃ clauses default?, clauseForms clauses default? = forms
  | [] => ⟨[], none, rfl⟩
  | [form] => ⟨[], some form, rfl⟩
  | key :: body :: forms => by
    obtain ⟨clauses, default?, rfl⟩ := exists_clauseForms_eq forms
    exact ⟨(key, body) :: clauses, default?, rfl⟩

/-- A default is shorter than a clause, so forms cannot be read in two ways. -/
theorem clauseForms_inj {clauses clauses' : List (Value × Value)}
    {default? default?' : Option Value}
    (h : clauseForms clauses default? = clauseForms clauses' default?') :
    clauses = clauses' ∧ default? = default?' := by
  induction clauses generalizing clauses' with
  | nil =>
    cases clauses' with
    | nil =>
      rw [clauseForms_nil, clauseForms_nil] at h
      exact ⟨rfl, by simpa using congrArg List.head? h⟩
    | cons c clauses' => cases default? <;> cases h
  | cons c clauses ih =>
    cases clauses' with
    | nil => cases default?' <;> cases h
    | cons c' clauses' =>
      rw [clauseForms_cons, clauseForms_cons, List.cons.injEq, List.cons.injEq] at h
      obtain ⟨rfl, rfl⟩ := ih h.2.2
      exact ⟨by rw [Prod.ext h.1 h.2.1], rfl⟩

/-! ## Selection -/

/-- What a value selects: the body of the first clause whose key equals it, or, when no key does,
the default if there is one. -/
inductive Selects (v : Value) (clauses : List (Value × Value)) (default? : Option Value) :
    Option Value → Prop
  | clause {i : Nat} {key body : Value} : clauses[i]? = some (key, body) → key == v →
      (∀ j < i, ∀ c : Value × Value, clauses[j]? = some c → ¬c.1 == v) →
      Selects v clauses default? (some body)
  | default : (∀ c ∈ clauses, ¬c.1 == v) → Selects v clauses default? default?

theorem selects_nil_iff : Selects v [] default? form? ↔ form? = default? := by
  constructor
  · rintro (⟨hi, -, -⟩ | -)
    · cases hi
    · rfl
  · rintro rfl
    exact .default (List.forall_mem_nil _)

theorem selects_cons_iff_of_beq {c : Value × Value} (h : c.1 == v) :
    Selects v (c :: clauses) default? form? ↔ form? = some c.2 := by
  constructor
  · rintro (@⟨i, key, body, hi, -, hbefore⟩ | hnone)
    · cases i with
      | zero => cases hi; rfl
      | succ i => exact absurd h (hbefore 0 (Nat.succ_pos i) c rfl)
    · exact absurd h (hnone c List.mem_cons_self)
  · rintro rfl
    exact .clause (i := 0) rfl h fun j hj => absurd hj (Nat.not_lt_zero j)

theorem selects_cons_iff_of_not_beq {c : Value × Value} (h : ¬c.1 == v) :
    Selects v (c :: clauses) default? form? ↔ Selects v clauses default? form? := by
  constructor
  · rintro (@⟨i, key, body, hi, hkey, hbefore⟩ | hnone)
    · cases i with
      | zero =>
        cases hi
        exact absurd hkey h
      | succ i => exact .clause hi hkey fun j hj => hbefore (j + 1) (Nat.succ_lt_succ hj)
    · exact .default fun d hd => hnone d (List.mem_cons_of_mem _ hd)
  · rintro (@⟨i, key, body, hi, hkey, hbefore⟩ | hnone)
    · refine .clause (i := i + 1) hi hkey fun j hj d hd => ?_
      cases j with
      | zero =>
        cases hd
        exact h
      | succ j => exact hbefore j (Nat.lt_of_succ_lt_succ hj) d hd
    · exact .default (List.forall_mem_cons.mpr ⟨h, hnone⟩)

/-- The induction is on the clauses: those whose keys do not equal the value are passed over. -/
theorem chosen?_clauseForms_iff {v : Value} {clauses : List (Value × Value)} :
    chosen? v (clauseForms clauses default?) = form? ↔ Selects v clauses default? form? := by
  induction clauses with
  | nil =>
    rw [selects_nil_iff, clauseForms_nil]
    cases default? <;> exact eq_comm
  | cons c clauses ih =>
    rw [clauseForms_cons, chosen?]
    split
    case isTrue h =>
      rw [selects_cons_iff_of_beq h]
      exact eq_comm
    case isFalse h => rw [ih, selects_cons_iff_of_not_beq h]

/-! ## Runs of `case` -/

namespace Context

/-- The ways in which `case` can end, each with its outcome and the state that it leaves. -/
inductive CaseRun (ctx : Context) (subject : Value) (clauses : List (Value × Value))
    (default? : Option Value) (s : State) : Outcome Value × State → Prop
  | subject_fails : (ctx.eval subject).run s = (.error e, t) →
      CaseRun ctx subject clauses default? s (.error e, t)
  | selected : (ctx.eval subject).run s = (.ok v, t) → Selects v clauses default? (some form) →
      CaseRun ctx subject clauses default? s ((ctx.eval form).run t)
  | no_match : (ctx.eval subject).run s = (.ok v, t) → Selects v clauses default? none →
      CaseRun ctx subject clauses default? s
        ((Action.raise (.noMatchingClause (v.render ctx.printLength))).run t)

variable {ctx : Context}

theorem CaseRun.run_eq (hne : clauseForms clauses default? ≠ [])
    (h : CaseRun ctx subject clauses default? s r) :
    (ctx.evalCase (subject :: clauseForms clauses default?)).run s = r := by
  cases h with
  | subject_fails hs =>
    obtain ⟨form, forms, heq⟩ := List.exists_cons_of_ne_nil hne
    rw [heq]
    exact Action.run_bind_eq_error.mpr (.inl hs)
  | selected hs hselects =>
    rw [evalCase_run hs hne, chosen?_clauseForms_iff.mpr hselects]
  | no_match hs hselects =>
    rw [evalCase_run hs hne, chosen?_clauseForms_iff.mpr hselects]

theorem exists_caseRun (ctx : Context) (subject : Value) (clauses : List (Value × Value))
    (default? : Option Value) (s : State) : ∃ r, CaseRun ctx subject clauses default? s r := by
  rcases hs : (ctx.eval subject).run s with ⟨e | v, t⟩
  · exact ⟨_, .subject_fails hs⟩
  have hselects : Selects v clauses default? _ := chosen?_clauseForms_iff.mp rfl
  cases hform : chosen? v (clauseForms clauses default?) with
  | none => exact ⟨_, .no_match hs (hform ▸ hselects)⟩
  | some form => exact ⟨_, .selected hs (hform ▸ hselects)⟩

/-- What other forms would do, and what these would do in other states, makes no difference. -/
theorem CaseRun.of_eval {eval' : Evaluator} (h : CaseRun ctx subject clauses default? s r)
    (hsubject : (eval' subject).run s = (ctx.eval subject).run s)
    (hform : ∀ v t form, (ctx.eval subject).run s = (.ok v, t) →
      Selects v clauses default? (some form) → (eval' form).run t = (ctx.eval form).run t) :
    CaseRun { ctx with eval := eval' } subject clauses default? s r := by
  cases h with
  | subject_fails hs => exact .subject_fails (hsubject.trans hs)
  | selected hs hselects =>
    rw [← hform _ _ _ hs hselects]
    exact .selected (hsubject.trans hs) hselects
  | no_match hs hselects => exact .no_match (hsubject.trans hs) hselects

/-- The forms behind the subject can be read as clauses and a default in one way only. The subject
is evaluated first, and behind it at most the form that its value selects: whatever another
evaluator does with other forms, or with these two in other states, `case` does not notice. -/
theorem case_selects_first_match (ctx : Context) (subject : Value) (hforms : forms ≠ [])
    (s : State) :
    ∃ clauses default?, clauseForms clauses default? = forms ∧
      (∀ clauses' default?', clauseForms clauses' default?' = forms →
        clauses' = clauses ∧ default?' = default?) ∧
      (∀ r, (ctx.evalCase (subject :: forms)).run s = r ↔
        CaseRun ctx subject clauses default? s r) ∧
      ∀ eval' : Evaluator, (eval' subject).run s = (ctx.eval subject).run s →
        (∀ v t form, (ctx.eval subject).run s = (.ok v, t) →
          Selects v clauses default? (some form) → (eval' form).run t = (ctx.eval form).run t) →
        ({ ctx with eval := eval' }.evalCase (subject :: forms)).run s =
          (ctx.evalCase (subject :: forms)).run s := by
  obtain ⟨clauses, default?, rfl⟩ := exists_clauseForms_eq forms
  have hexists := exists_caseRun ctx subject clauses default? s
  refine ⟨clauses, default?, rfl, fun _ _ => clauseForms_inj, fun r => ?_, ?_⟩
  · exact Action.run_eq_iff hexists fun _ h => h.run_eq hforms
  · intro eval' hsubject hform
    obtain ⟨r, h⟩ := hexists
    rw [h.run_eq hforms, (h.of_eval hsubject hform).run_eq hforms]

/-- The first key is a form that fails when it is evaluated, and the second equals the value. A
host that knows only the subject and one body does the same. -/
theorem case_selects_first_match_big :
    let ctx := Host.reference.context none 2
    let subject : Value := .list [.symbol ⟨"inc"⟩, .int 1]
    let failing : Value := .list [.symbol ⟨"throw"⟩, .string "reached"]
    let clauses : List (Value × Value) :=
      [(failing, .int 0), (.big 2, .bool true), (.int 2, failing)]
    let s := State.initial .reference
    let eval' : Evaluator := fun form =>
      if form == subject || form == .bool true then ctx.eval form else .raise (.thrown "unknown")
    let r := (ctx.evalCase (subject :: clauseForms clauses (some failing))).run s
    clauseForms clauses (some failing) ≠ [] ∧
      ((ctx.eval failing).run s).1 = .error (.raised (.thrown "reached")) ∧
      r.1 = .ok (.bool true) ∧ CaseRun ctx subject clauses (some failing) s r ∧
      ({ ctx with eval := eval' }.evalCase
        (subject :: clauseForms clauses (some failing))).run s = r := by
  intro ctx subject failing clauses s eval' r
  have hne : clauseForms clauses (some failing) ≠ [] := List.cons_ne_nil _ _
  obtain ⟨_, _, -, honly, hruns, hother⟩ := case_selects_first_match ctx subject hne s
  obtain ⟨rfl, rfl⟩ := honly clauses (some failing) rfl
  refine ⟨hne, rfl, rfl, (hruns r).mp rfl, hother eval' rfl ?_⟩
  intro v t form hsubject hselects
  have hv : v = .int 2 := (Except.ok.inj (congrArg Prod.fst hsubject)).symm
  have hform : some (.bool true) = some form := by
    rw [← chosen?_clauseForms_iff.mpr hselects, hv]
    rfl
  obtain rfl := Option.some.inj hform
  rfl

end Context

end Lisplet
