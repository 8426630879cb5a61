import Lisplet.Proofs.Operands

/-!
`reduce` as a fold from the left. Its operands come first, then the elements, and the seed last; a
sequence without a seed gives its first element away for one. Main statement:
`reduce_folds_from_left`.
-/

namespace Lisplet

/-! ## Folds of actions -/

namespace Action

/-- Each element of a list is joined in turn with what there is so far, from the state that the
step before has left, and all steps have results. -/
inductive Folds (act : β → α → Action β) : β → List α → State → β → State → Prop
  | nil : Folds act b [] s b s
  | cons : (act b x).run s = (.ok c, t) → Folds act c xs t d u → Folds act b (x :: xs) s d u

variable {act : β → α → Action β}

theorem folds_nil_iff : Folds act b [] s c t ↔ c = b ∧ t = s := by
  constructor
  · rintro ⟨⟩
    exact ⟨rfl, rfl⟩
  · rintro ⟨rfl, rfl⟩
    exact .nil

theorem folds_cons_iff : Folds act b (x :: xs) s d u ↔
    ∃ c t, (act b x).run s = (.ok c, t) ∧ Folds act c xs t d u := by
  constructor
  · rintro ⟨⟩
    exact ⟨_, _, ‹_›, ‹_›⟩
  · rintro ⟨c, t, hx, hxs⟩
    exact .cons hx hxs

theorem run_foldlM_eq_ok : (xs.foldlM act b).run s = (.ok c, t) ↔ Folds act b xs s c t := by
  induction xs generalizing b s with
  | nil =>
    rw [List.foldlM_nil, run_pure, folds_nil_iff, Prod.mk.injEq, Except.ok.injEq]
    exact and_congr eq_comm eq_comm
  | cons x xs ih =>
    rw [List.foldlM_cons, run_bind_eq_ok, folds_cons_iff]
    simp only [ih]

/-- A fold fails in one of its steps, and the elements behind it are not reached. -/
theorem run_foldlM_eq_error {xs : List α} : (xs.foldlM act b).run s = (.error e, t) ↔
    ∃ i x c u, Folds act b (xs.take i) s c u ∧ xs[i]? = some x ∧
      (act c x).run u = (.error e, t) := by
  induction xs generalizing b s with
  | nil => simp
  | cons x xs ih =>
    rw [List.foldlM_cons, run_bind_eq_error]
    constructor
    · rintro (hx | ⟨c, u, hx, hxs⟩)
      · exact ⟨0, x, b, s, .nil, rfl, hx⟩
      · obtain ⟨i, y, d, v, hfolds, hi, hy⟩ := ih.mp hxs
        exact ⟨i + 1, y, d, v, .cons hx hfolds, hi, hy⟩
    · rintro ⟨i, y, d, v, hfolds, hi, hy⟩
      cases i with
      | zero =>
        cases hi
        cases hfolds
        exact .inl hy
      | succ i =>
        obtain ⟨c, u, hx, hxs⟩ := folds_cons_iff.mp hfolds
        exact .inr ⟨c, u, hx, ih.mpr ⟨i, y, d, v, hxs, hi, hy⟩⟩

end Action

/-! ## Failures of calls -/

/-- The outcome is not the failure of a fold that has nothing to start from. -/
def Outcome.NotEmptyReduce (o : Outcome α) : Prop := o ≠ .error (.raised .emptyReduce)

theorem Outcome.notEmptyReduce_ok (a : α) : NotEmptyReduce (.ok a) := by
  rintro ⟨⟩

theorem Outcome.NotEmptyReduce.bind {x : Outcome α} {f : α → Outcome β} (hx : x.NotEmptyReduce)
    (hf : ∀ a, (f a).NotEmptyReduce) : (x >>= f).NotEmptyReduce := by
  cases x with
  | ok a => exact hf a
  | error e =>
    rintro ⟨⟩
    exact hx rfl

theorem Outcome.NotEmptyReduce.map {x : Outcome α} {f : α → β} (hx : x.NotEmptyReduce) :
    (f <$> x).NotEmptyReduce := by
  cases x with
  | ok a => rintro ⟨⟩
  | error e =>
    rintro ⟨⟩
    exact hx rfl

theorem Function.integers_notEmptyReduce (name : String) (vs : List Value) :
    (integers name vs).NotEmptyReduce := by
  induction vs with
  | nil => exact Outcome.notEmptyReduce_ok _
  | cons v vs ih =>
    cases v with
    | int n => exact ih.map
    | _ => rintro ⟨⟩

theorem Function.oneInteger_notEmptyReduce (name : String) (args : List Value) :
    (oneInteger name args).NotEmptyReduce := by
  refine (integers_notEmptyReduce name args).bind fun ns => ?_
  split <;> rintro ⟨⟩

theorem Value.requireType_notEmptyReduce (name : String) (v : Value) :
    (v.requireType name).NotEmptyReduce := by
  unfold requireType
  split <;> rintro ⟨⟩

theorem Value.requireInt_notEmptyReduce (name : String) (v : Value) :
    (v.requireInt name).NotEmptyReduce := by
  unfold requireInt
  split
  · rintro ⟨⟩
  · split <;> rintro ⟨⟩
  · rintro ⟨⟩

theorem Value.realize_notEmptyReduce (name : String) (v : Value) :
    (v.realize name).NotEmptyReduce := by
  unfold realize
  split
  · rintro ⟨⟩
  · split <;> rintro ⟨⟩

theorem Value.toType_notEmptyReduce (v : Value) (t : Ty) : (v.toType t).NotEmptyReduce := by
  simp only [toType]
  split
  · rintro ⟨⟩
  · split
    · exact (realize_notEmptyReduce _ _).map
    · exact (realize_notEmptyReduce _ _).map
    · split <;> rintro ⟨⟩

theorem Function.applyRange_notEmptyReduce (a b : Value) :
    (applyRange [a, b]).NotEmptyReduce := by
  have hbounds : (rangeBounds [a, b]).NotEmptyReduce :=
    (Value.requireInt_notEmptyReduce "range" a).bind fun _ =>
      (Value.requireInt_notEmptyReduce "range" b).bind fun _ => Outcome.notEmptyReduce_ok _
  refine hbounds.bind fun bounds =>
    Outcome.NotEmptyReduce.bind ?_ fun _ => Outcome.notEmptyReduce_ok _
  unfold integerRange
  split <;> rintro ⟨⟩

theorem Function.applyImplements_notEmptyReduce (v t : Value) :
    (applyImplements [v, t]).NotEmptyReduce := by
  refine (Value.requireType_notEmptyReduce _ t).bind fun target => ?_
  rw [Value.implements]
  split <;> rintro ⟨⟩

/-- A call with two arguments does not fail for want of a seed, whichever function it is. -/
theorem Context.invoke_notEmptyReduce {ctx : Context}
    (hhost : ctx.host = .reference ∨ ctx.host = .reflective) (f a b : Value) (s : State) :
    ((ctx.invoke f [a, b]).run s).1.NotEmptyReduce := by
  rw [invoke]
  split
  case h_2 => rintro ⟨⟩
  case h_1 g hg =>
    rw [callFunction, Action.run_record_bind]
    generalize ({ s with events := .called (.fn g) [a, b] :: s.events } : State) = t
    have settled {o : Outcome Value} (ho : o.NotEmptyReduce) :
        ((Action.ofOutcome o).run t).1.NotEmptyReduce := by
      rwa [Action.run_ofOutcome]
    cases g with
    -- They have a value, or an error of their own.
    | type | macroexpand | identity | str | list | alwaysTrue | alwaysFalse | throw | foreign =>
      rintro ⟨⟩
    | implements => exact settled (Function.applyImplements_notEmptyReduce a b)
    | toType =>
      exact settled ((Value.requireType_notEmptyReduce _ b).bind (a.toType_notEmptyReduce ·))
    | range => exact settled (Function.applyRange_notEmptyReduce a b)
    | add | mul =>
      exact settled ((Function.integers_notEmptyReduce _ _).bind fun _ =>
        Outcome.notEmptyReduce_ok _)
    | sub =>
      refine settled ((Function.integers_notEmptyReduce _ _).bind fun ns => ?_)
      split <;> rintro ⟨⟩
    | inc | isEven =>
      exact settled ((Function.oneInteger_notEmptyReduce _ _).bind fun _ =>
        Outcome.notEmptyReduce_ok _)
    | countdown =>
      have hn := Function.oneInteger_notEmptyReduce "countdown" [a, b]
      change ((Function.applyCountdown [a, b]).run t).1.NotEmptyReduce
      rw [Function.applyCountdown, Action.run_bind, Action.run_ofOutcome]
      cases ho : Function.oneInteger "countdown" [a, b] with
      | ok n => rintro ⟨⟩
      | error e =>
        rw [ho] at hn
        rintro ⟨⟩
        exact hn rfl
    | recorder index failOn =>
      refine settled ?_
      unfold Function.applyRecorder
      split
      · split <;> rintro ⟨⟩
      · rintro ⟨⟩
    | hosted name slot =>
      rw [apply]
      rcases hhost with h | h <;> rw [h]
      · rintro ⟨⟩
      · rcases slot with _ | _ | slot
        · rintro ⟨⟩
        · cases a <;> rintro ⟨⟩
        · rintro ⟨⟩

/-! ## Runs of `reduce` -/

namespace Context

/-- What is written behind `reduce`: a seed can stand between the function and the collection. -/
def reduceForms (function : Value) (seed? : Option Value) (collection : Value) : List Value :=
  function :: (seed?.toList ++ [collection])

/-- What a fold starts with, and the elements that it goes on with. -/
def start (ctx : Context) : Option Value → List Value → Action (Value × List Value)
  | some seed, xs => do return (← ctx.eval seed, xs)
  | none, x :: xs => return (x, xs)
  | none, [] => .raise .emptyReduce

variable {ctx : Context}

theorem evalReduce_eq_fold (function : Value) (seed? : Option Value) (collection : Value) :
    ctx.evalReduce (reduceForms function seed? collection) = (do
      let (f, v) ← ctx.evalOperands function collection
      let xs ← .ofOutcome (v.realize "reduce")
      let (a, ys) ← ctx.start seed? xs
      ctx.fold f a ys) := by
  cases seed? with
  | some seed => simp [reduceForms, evalReduce, evalOperands, evalElements, start]
  | none =>
    simp only [reduceForms, Option.toList_none, List.nil_append, evalReduce, evalOperands,
      evalElements, bind_assoc, pure_bind]
    refine bind_congr fun f => bind_congr fun v => bind_congr fun xs => ?_
    cases xs with
    | nil => rfl
    | cons x xs => rfl

/-- With all elements there in the state `s`, a fold starts in the state `t` with `a` and with `ys`
to go: with the value of the seed, or else with the first element. -/
inductive Starts (ctx : Context) : Option Value → List Value → State → Value → List Value → State →
    Prop
  | seed : (ctx.eval seed).run s = (.ok a, t) → Starts ctx (some seed) xs s a xs t
  | first : Starts ctx none (x :: xs) s x xs s

/-- The ways in which `reduce` can end, each with its outcome and the state that it leaves. -/
inductive ReduceRun (ctx : Context) (function : Value) (seed? : Option Value) (collection : Value)
    (s : State) : Outcome Value × State → Prop
  | operands_fail : OperandsRun ctx function collection s (.error e, t) →
      ReduceRun ctx function seed? collection s (.error e, t)
  | not_seqable : OperandsRun ctx function collection s (.ok (f, v), t) → v.asSeq? = none →
      ReduceRun ctx function seed? collection s
        ((Action.raise (.typeIn "reduce" "seqable" v.typeName)).run t)
  | endless : OperandsRun ctx function collection s (.ok (f, v), t) → v.Endless →
      ReduceRun ctx function seed? collection s (.error .unfinished, t)
  | empty : OperandsRun ctx function collection s (.ok (f, v), t) → v.HasElements [] →
      seed? = none → ReduceRun ctx function seed? collection s ((Action.raise .emptyReduce).run t)
  | seed_fails : OperandsRun ctx function collection s (.ok (f, v), t) → v.HasElements xs →
      seed? = some seed → (ctx.eval seed).run t = (.error e, u) →
      ReduceRun ctx function seed? collection s (.error e, u)
  | call_fails : OperandsRun ctx function collection s (.ok (f, v), t) → v.HasElements xs →
      Starts ctx seed? xs t a ys u →
      Action.Folds (fun a y => ctx.invoke f [a, y]) a (ys.take i) u b w → ys[i]? = some y →
      (ctx.invoke f [b, y]).run w = (.error e, w') →
      ReduceRun ctx function seed? collection s (.error e, w')
  | done : OperandsRun ctx function collection s (.ok (f, v), t) → v.HasElements xs →
      Starts ctx seed? xs t a ys u →
      Action.Folds (fun a y => ctx.invoke f [a, y]) a ys u b w →
      ReduceRun ctx function seed? collection s (.ok b, w)

theorem Starts.run_eq (h : Starts ctx seed? xs s a ys t) :
    (ctx.start seed? xs).run s = (.ok (a, ys), t) := by
  cases h with
  | seed hseed => exact Action.run_bind_ok hseed
  | first => rfl

theorem OperandsRun.evalReduce_run (h : OperandsRun ctx function collection s (.ok (f, v), t)) :
    (ctx.evalReduce (reduceForms function seed? collection)).run s =
      (do let xs ← .ofOutcome (v.realize "reduce")
          let (a, ys) ← ctx.start seed? xs
          ctx.fold f a ys : Action Value).run t := by
  rw [evalReduce_eq_fold]
  exact Action.run_bind_ok h.run_eq

theorem OperandsRun.evalReduce_run_elements
    (h : OperandsRun ctx function collection s (.ok (f, v), t)) (hxs : v.HasElements xs) :
    (ctx.evalReduce (reduceForms function seed? collection)).run s =
      (ctx.start seed? xs >>= fun (a, ys) => ctx.fold f a ys).run t := by
  rw [h.evalReduce_run, hxs.realize]
  rfl

/-- With a seed and without one, `reduce` is the same fold once it has something to start with. -/
theorem Starts.evalReduce_run (hstart : Starts ctx seed? xs t a ys u)
    (h : OperandsRun ctx function collection s (.ok (f, v), t)) (hxs : v.HasElements xs) :
    (ctx.evalReduce (reduceForms function seed? collection)).run s = (ctx.fold f a ys).run u := by
  rw [h.evalReduce_run_elements hxs, Action.run_bind_ok hstart.run_eq]

theorem ReduceRun.run_eq (h : ReduceRun ctx function seed? collection s r) :
    (ctx.evalReduce (reduceForms function seed? collection)).run s = r := by
  cases h with
  | operands_fail ho =>
    rw [evalReduce_eq_fold]
    exact Action.run_bind_eq_error.mpr (.inl ho.run_eq)
  | not_seqable ho hno =>
    rw [ho.evalReduce_run, Value.realize_of_asSeq?_eq_none hno]
    rfl
  | endless ho hend =>
    rw [ho.evalReduce_run, hend.realize]
    rfl
  | empty ho hxs hseed =>
    rw [ho.evalReduce_run_elements hxs, hseed]
    rfl
  | seed_fails ho hxs hseed hfail =>
    rw [ho.evalReduce_run_elements hxs, hseed]
    exact Action.run_bind_eq_error.mpr (.inl (Action.run_bind_eq_error.mpr (.inl hfail)))
  | call_fails ho hxs hstart hfolds hy hfail =>
    rw [hstart.evalReduce_run ho hxs]
    exact Action.run_foldlM_eq_error.mpr ⟨_, _, _, _, hfolds, hy, hfail⟩
  | done ho hxs hstart hfolds =>
    rw [hstart.evalReduce_run ho hxs]
    exact Action.run_foldlM_eq_ok.mpr hfolds

theorem Starts.exists_reduceRun (hstart : Starts ctx seed? xs t a ys u)
    (h : OperandsRun ctx function collection s (.ok (f, v), t)) (hxs : v.HasElements xs) :
    ∃ r, ReduceRun ctx function seed? collection s r := by
  rcases hfold : (ctx.fold f a ys).run u with ⟨e | b, w⟩
  · obtain ⟨i, y, b, w', hfolds, hy, hfail⟩ := Action.run_foldlM_eq_error.mp hfold
    exact ⟨_, .call_fails h hxs hstart hfolds hy hfail⟩
  · exact ⟨_, .done h hxs hstart (Action.run_foldlM_eq_ok.mp hfold)⟩

theorem exists_reduceRun (ctx : Context) (function : Value) (seed? : Option Value)
    (collection : Value) (s : State) : ∃ r, ReduceRun ctx function seed? collection s r := by
  obtain ⟨⟨e | ⟨f, v⟩, t⟩, ho⟩ := exists_operandsRun ctx function collection s
  · exact ⟨_, .operands_fail ho⟩
  rcases v.walk_cases with hno | hend | ⟨xs, hxs⟩
  · exact ⟨_, .not_seqable ho hno⟩
  · exact ⟨_, .endless ho hend⟩
  match seed?, xs, hxs with
  | none, [], hxs => exact ⟨_, .empty ho hxs rfl⟩
  | none, x :: xs, hxs => exact Starts.first.exists_reduceRun ho hxs
  | some seed, xs, hxs =>
    rcases hseed : (ctx.eval seed).run t with ⟨e | a, u⟩
    · exact ⟨_, .seed_fails ho hxs rfl hseed⟩
    · exact (Starts.seed hseed).exists_reduceRun ho hxs

/-! ## Folds without a seed -/

theorem evalReduce_run_emptyReduce_iff (hhost : ctx.host = .reference ∨ ctx.host = .reflective)
    (h : OperandsRun ctx function collection s (.ok (f, v), t)) (hxs : v.HasElements xs) :
    ((ctx.evalReduce (reduceForms function none collection)).run s).1 =
      .error (.raised .emptyReduce) ↔ xs = [] := by
  cases xs with
  | nil =>
    rw [(ReduceRun.empty h hxs rfl).run_eq]
    exact iff_of_true rfl rfl
  | cons x xs =>
    rw [Starts.first.evalReduce_run h hxs]
    refine iff_of_false (fun heq => ?_) (List.cons_ne_nil x xs)
    rcases hfold : (ctx.fold f x xs).run t with ⟨e | b, u⟩ <;> rw [hfold] at heq <;> cases heq
    obtain ⟨i, y, b, w, -, -, hfail⟩ := Action.run_foldlM_eq_error.mp hfold
    exact invoke_notEmptyReduce hhost f b y w (congrArg Prod.fst hfail)

theorem exists_fold_reports (limit : Option Nat) (n : Nat) (f a : Value) (xs : List Value)
    (scope : Scope) (k : Nat) :
    ∃ r, ((Host.reference.context limit n).fold f a xs).Reports scope k r := by
  have hV (v : Value) : v.NamesIn fun _ => True := fun _ _ => trivial
  let L := agreementLaw limit (A := fun _ => True) trivial trivial
  have hlaw : L.Holds (Value.NamesIn fun _ => True)
      fun _ => (Host.reference.context limit n).fold f a xs :=
    L.of_staged (L.staged.fold (hV a) fun w _ => hV w)
  exact (hlaw ⟨scope, k, []⟩ fun _ v _ _ => hV v).exists_reports

/-- A sequence that is reduced without a seed gives its first element away for one. -/
theorem evalReduce_first_run (limit : Option Nat) (n : Nat) (function : Value) {w w' : Value}
    (hw : w.HasElements (x :: ys)) (hw' : w'.HasElements ys) (s : State) :
    let ctx := Host.reference.context limit (n + 1)
    let r := (ctx.evalReduce (reduceForms function none (.resolved w))).run s
    let r' := (ctx.evalReduce
      (reduceForms function (some (.resolved x)) (.resolved w'))).run s
    r'.1 = r.1 ∧ r'.2.scope = r.2.scope ∧ r'.2.nextIdentity = r.2.nextIdentity ∧
      r'.2.calls = r.2.calls := by
  intro ctx r r'
  have of_fails {e t} (h : ∀ collection, OperandsRun ctx function collection s (.error e, t)) :
      r' = r :=
    (ReduceRun.operands_fail (h _)).run_eq.trans (ReduceRun.operands_fail (h _)).run_eq.symm
  rcases hf : (ctx.eval function).run s with ⟨e | f, u⟩
  · rw [of_fails fun _ => .function_fails hf]
    exact ⟨rfl, rfl, rfl, rfl⟩
  by_cases hok : f.isInvokable
  · have hr : r = _ := Starts.first.evalReduce_run (.evaluated hf hok rfl) hw
    have hr' : r' = _ := Starts.evalReduce_run (.seed rfl) (.evaluated hf hok rfl) hw'
    -- What has been put on record in between differs, but a fold does not look at that.
    obtain ⟨report, hfold⟩ := exists_fold_reports limit (n + 1) f x ys u.scope u.nextIdentity
    let t (form : Value) (u : State) : State := { u with events := .evaluated form :: u.events }
    obtain ⟨ho, hscope, hk, hcalls⟩ := hfold.run_eq (s := t (.resolved w) u)
    obtain ⟨ho', hscope', hk', hcalls'⟩ :=
      hfold.run_eq (s := t (.resolved x) (t (.resolved w') u))
    have ht (form : Value) (u : State) : (t form u).calls = u.calls := u.calls_evaluated form
    rw [ht] at hcalls
    rw [ht, ht] at hcalls'
    rw [hr, hr']
    exact ⟨ho'.trans ho.symm, hscope'.trans hscope.symm, hk'.trans hk.symm,
      hcalls'.trans hcalls.symm⟩
  · rw [of_fails fun _ => .not_invokable hf hok]
    exact ⟨rfl, rfl, rfl, rfl⟩

/-- `reduce` ends in the ways that `ReduceRun` lists and in no others: the operands come first, then
the elements and then the seed, and the function is called with what there is so far and the next
element until a call fails. Without a seed it is the fold that starts with the first element, as if
that were the value of a seed in front of the others, and it fails for want of one just when there
is no element. A fold can be cut in two at any place. -/
theorem reduce_folds_from_left (ctx : Context) (function : Value) (seed? : Option Value)
    (collection : Value) (s : State) :
    (∀ r, (ctx.evalReduce (reduceForms function seed? collection)).run s = r ↔
      ReduceRun ctx function seed? collection s r) ∧
    (∀ f v xs t a ys u, OperandsRun ctx function collection s (.ok (f, v), t) →
      v.HasElements xs → Starts ctx seed? xs t a ys u →
      (ctx.evalReduce (reduceForms function seed? collection)).run s = (ctx.fold f a ys).run u) ∧
    (∀ f v xs t, ctx.host = .reference ∨ ctx.host = .reflective →
      OperandsRun ctx function collection s (.ok (f, v), t) → v.HasElements xs →
      (((ctx.evalReduce (reduceForms function none collection)).run s).1 =
        .error (.raised .emptyReduce) ↔ xs = [])) ∧
    (∀ f a xs ys, ctx.fold f a (xs ++ ys) = do ctx.fold f (← ctx.fold f a xs) ys) ∧
    ∀ limit n w w' x ys, w.HasElements (x :: ys) → w'.HasElements ys →
      let ctx := Host.reference.context limit (n + 1)
      let r := (ctx.evalReduce (reduceForms function none (.resolved w))).run s
      let r' := (ctx.evalReduce
        (reduceForms function (some (.resolved x)) (.resolved w'))).run s
      r'.1 = r.1 ∧ r'.2.scope = r.2.scope ∧ r'.2.nextIdentity = r.2.nextIdentity ∧
        r'.2.calls = r.2.calls := by
  refine ⟨?_, ?_, ?_, ?_, ?_⟩
  · exact fun r => Action.run_eq_iff (exists_reduceRun ctx function seed? collection s)
      fun _ => ReduceRun.run_eq
  · exact fun f v xs t a ys u ho hxs hstart => hstart.evalReduce_run ho hxs
  · exact fun f v xs t hhost ho hxs => evalReduce_run_emptyReduce_iff hhost ho hxs
  · exact fun f a xs ys => List.foldlM_append
  · exact fun limit n w w' x ys hw hw' => evalReduce_first_run limit n function hw hw' s

/-- The third element is no integer. With the first one as the seed of the others it is the same. -/
theorem reduce_folds_from_left_failing :
    let ctx := Host.reference.context none 1
    let s := State.initial .reference
    let function : Value := .resolved (.native (.fn .add))
    let vs : List Value := [.int 2, .string "x"]
    let collection : Value := .resolved (.vector (.int 1 :: vs))
    let e : Error := .typeIn "+" "int" "string"
    let t : State := ⟨.reference, 0, [.evaluated collection, .evaluated function]⟩
    let r := (ctx.evalReduce (reduceForms function none collection)).run s
    let r' := (ctx.evalReduce
      (reduceForms function (some (.resolved (.int 1))) (.resolved (.list vs)))).run s
    ReduceRun ctx function none collection s (.error (.raised e), ⟨.reference, 0,
        .raised e :: .called (.fn .add) [.int 3, .string "x"] ::
          .called (.fn .add) [.int 1, .int 2] :: t.events⟩) ∧
      r = (ctx.fold (.native (.fn .add)) (.int 1) vs).run t ∧
      (r.1 = .error (.raised .emptyReduce) ↔ .int 1 :: vs = []) ∧
      r'.1 = r.1 ∧ r'.2.calls = r.2.calls := by
  intro ctx s function vs collection e t r r'
  have hvs : (Value.list vs).HasElements vs := ⟨.items vs, rfl, Sequence.realize?_items vs⟩
  have hall : (Value.vector (.int 1 :: vs)).HasElements (.int 1 :: vs) :=
    ⟨.items (.int 1 :: vs), rfl, Sequence.realize?_items _⟩
  have ho : OperandsRun ctx function collection s
      (.ok (.native (.fn .add), .vector (.int 1 :: vs)), t) := .evaluated rfl rfl rfl
  obtain ⟨hrun, hfold, hempty, -, hseed⟩ := reduce_folds_from_left ctx function none collection s
  obtain ⟨ho', -, -, hcalls⟩ := hseed none 0 _ _ _ _ hall hvs
  exact ⟨(hrun _).mp rfl, hfold _ _ _ _ _ _ _ ho hall .first, hempty _ _ _ _ (.inl rfl) ho hall,
    ho', hcalls⟩

end Context

end Lisplet
