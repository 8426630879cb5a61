import Lisplet.Proofs.Filter
import Lisplet.Proofs.Rows
import Lisplet.Proofs.Target
import Lisplet.Proofs.Threading
import Lisplet.Proofs.Validation

/-!
Capabilities. A value has a capability exactly when it is good for what the capability is about:
what is seqable can be walked wherever elements are asked for, and what is invokable can be called
wherever a function is asked for. The elements are its own, and so is the native that is called.
Main statement: `capabilities_are_uses`.
-/

namespace Lisplet

/-! ## What a value tells of itself -/

namespace Value

theorem seqable_ty : (v : Value) → Interface.seqable.isSatisfiedBy v.ty = v.asSeq?.isSome
  | resolved v => seqable_ty v
  | nil | bool _ | int _ | big _ | float _ | string _ | symbol _ | keyword _ | list _ | vector _
  | seq _ _ | native (.fn _) | native (.special _) | type _ => rfl

theorem invokable_ty : (v : Value) → Interface.invokable.isSatisfiedBy v.ty = v.isInvokable
  | resolved v => invokable_ty v
  | nil | bool _ | int _ | big _ | float _ | string _ | symbol _ | keyword _ | list _ | vector _
  | seq _ _ | native (.fn _) | native (.special _) | type _ => rfl

theorem implements_seqable_iff {v : Value} :
    v.implements (.interface .seqable) = .ok true ↔ v.asSeq?.isSome := by
  rw [← seqable_ty]
  exact ⟨Except.ok.inj, congrArg Except.ok⟩

theorem implements_invokable_iff {v : Value} :
    v.implements (.interface .invokable) = .ok true ↔ v.isInvokable := by
  rw [← invokable_ty]
  exact ⟨Except.ok.inj, congrArg Except.ok⟩

theorem forall_realize_iff {v : Value} :
    (∀ name, v.realize name = .ok xs) ↔ v.HasElements xs :=
  ⟨fun h => realize_eq_ok.mp (h ""), HasElements.realize⟩

theorem exists_hasElements_iff {v : Value} (hv : ¬v.Endless) :
    (∃ xs, v.HasElements xs) ↔ v.asSeq?.isSome := by
  constructor
  · rintro ⟨xs, s, hs, -⟩
    rw [hs]
    rfl
  · intro h
    obtain ⟨s, hs⟩ := Option.isSome_iff_exists.mp h
    obtain ⟨xs, hxs⟩ := exists_realize hs hv
    exact ⟨xs, forall_realize_iff.mp hxs⟩

theorem Converts.isSome_asSeq? {v : Value} (h : v.Converts t r) (ht : t = .list ∨ t = .vector) :
    v.asSeq?.isSome := by
  cases h with
  | same h =>
    have hty : v.ty = t := by rcases ht with rfl | rfl <;> exact of_decide_eq_true h
    rw [← seqable_ty, hty]
    rcases ht with rfl | rfl <;> rfl
  | list h | vector h =>
    obtain ⟨s, hs, -⟩ := realize_eq_ok.mp h
    rw [hs]
    rfl
  | number h =>
    have hnone : v.payload.convertNumber? t = none := by
      rcases ht with rfl | rfl <;> cases v.payload <;> rfl
    rw [hnone] at h
    cases h

/-- Only what can be walked is a list or a vector or becomes one. -/
theorem exists_toType_iff {v : Value} (hv : ¬v.Endless) (ht : t = .list ∨ t = .vector) :
    (∃ r, v.toType t = .ok r) ↔ v.asSeq?.isSome := by
  have ht' : t.deref = t := by rcases ht with rfl | rfl <;> rfl
  constructor
  · rintro ⟨r, hr⟩
    rcases toType_cases hv t with ⟨r', -, hconverts⟩ | hfail
    · exact hconverts.isSome_asSeq? (ht'.symm ▸ ht)
    · cases hfail.symm.trans hr
  · intro h
    obtain ⟨xs, hxs⟩ := (exists_hasElements_iff hv).mpr h
    obtain ⟨r, hr, -⟩ := toType_elements (hxs.realize "to-type") (ht'.symm ▸ ht)
    exact ⟨r, hr⟩

theorem asFunction?_eq_some {v : Value} :
    v.asFunction? = some g ↔ v.payload = native (.fn g) := by
  rw [asFunction?]
  split
  case h_1 h => simp [h]
  case h_2 h => exact iff_of_false (by rintro ⟨⟩) (h g)

theorem isInvokable_iff {v : Value} : v.isInvokable ↔ ∃ g, v.payload = native (.fn g) := by
  simp only [isInvokable, Option.isSome_iff_exists, asFunction?_eq_some]

/-- Where a value can only stand for the native it is, it stands for a function exactly when it is
invokable. -/
theorem exists_function_iff {v : Value} {P : Native → Prop}
    (h : ∀ n, P n ↔ v.payload = native n ∧ v.isInvokable) :
    (∃ g, v.payload = native (.fn g) ∧ P (.fn g)) ↔ v.isInvokable := by
  constructor
  · rintro ⟨g, -, hg⟩
    exact ((h _).mp hg).2
  · intro hv
    obtain ⟨g, hg⟩ := isInvokable_iff.mp hv
    exact ⟨g, hg, (h _).mpr ⟨hg, hv⟩⟩

/-- A step that is no call of its own. -/
def NoCall (step : Value) : Prop := ∀ operator args, step ≠ list (operator :: args)

theorem NoCall.splice?_eq_none {step : Value} (h : step.NoCall) (p : Position) (v : Value) :
    splice? p step v = none := by
  cases hform : splice? p step v with
  | none => rfl
  | some form =>
    obtain ⟨operator, args, heq, -⟩ := splice?_eq_some.mp hform
    exact absurd heq (h operator args)

theorem noCall_of_asFunction? {step : Value} (h : step.asFunction? = some g) : step.NoCall := by
  rintro operator args rfl
  cases h

end Value

/-! ## Values of collection forms -/

namespace Context

/-- The value `v` comes to a special form in the state `t` as that of a collection form, and what is
to be done with its elements is `go`. -/
inductive AsCollection (ctx : Context) (s : State) (v : Value) (t : State) :
    SpecialForm → List Value → (List Value → Action Value) → Prop
  /-- It can be any of the collections, those before it have been walked. -/
  | map {before after : List Value} : (ctx.evalFunction function).run s = (.ok f, u) →
      Action.Runs (ctx.evalElements "map") before u columns u' →
      (ctx.eval collection).run u' = (.ok v, t) →
      AsCollection ctx s v t .map (function :: (before ++ collection :: after)) fun xs => do
        let columns' ← after.mapM (ctx.evalElements "map")
        return .list (← (rows (columns ++ xs :: columns')).mapM (ctx.invoke f))
  | filter : (ctx.evalFunction predicate).run s = (.ok p, u) →
      (ctx.eval collection).run u = (.ok v, t) →
      AsCollection ctx s v t .filter [predicate, collection] fun xs => do
        return .list (← keepIf (fun x => Value.isTruthy <$> ctx.invoke p [x]) xs)
  | reduce : (ctx.evalFunction function).run s = (.ok f, u) →
      (ctx.eval collection).run u = (.ok v, t) →
      AsCollection ctx s v t .reduce [function, collection] fun
        | [] => .raise .emptyReduce
        | x :: xs => ctx.fold f x xs
  | reduce_seed : (ctx.evalFunction function).run s = (.ok f, u) →
      (ctx.eval collection).run u = (.ok v, t) →
      AsCollection ctx s v t .reduce [function, seed, collection] fun xs => do
        ctx.fold f (← ctx.eval seed) xs
  | doseq : binding.payload = .vector [.symbol x, collection] →
      (ctx.eval collection).run s = (.ok v, t) →
      AsCollection ctx s v t .doseq (binding :: body) fun xs => do
        xs.forM (ctx.evalTurn x body)
        return .nil

variable {ctx : Context}

theorem evalMap_append_cons (ctx : Context) (function : Value) (before : List Value)
    (collection : Value) (after : List Value) :
    ctx.evalMap (function :: (before ++ collection :: after)) = (do
      let f ← ctx.evalFunction function
      let columns ← before.mapM (ctx.evalElements "map")
      let xs ← ctx.evalElements "map" collection
      let columns' ← after.mapM (ctx.evalElements "map")
      return .list (← (rows (columns ++ xs :: columns')).mapM (ctx.invoke f))) := by
  have hne := List.append_ne_nil_of_right_ne_nil before (List.cons_ne_nil collection after)
  obtain ⟨form, forms, heq⟩ := List.exists_cons_of_ne_nil hne
  rw [heq, evalMap_cons_cons, ← heq, List.mapM_append, List.mapM_cons]
  simp only [bind_assoc, pure_bind]

theorem evalElements_run (hv : (ctx.eval form).run s = (.ok v, t)) (name : String)
    (go : List Value → Action Value) : (ctx.evalElements name form >>= go).run s =
      (.ofOutcome (v.realize name) >>= go : Action Value).run t := by
  rw [evalElements, bind_assoc, Action.run_bind_ok hv]

/-- All of them ask for elements in one way. -/
theorem AsCollection.run_eq (h : AsCollection ctx s v t f forms go) :
    (ctx.applySpecial f forms).run s =
      (.ofOutcome (v.realize f.name) >>= go : Action Value).run t := by
  cases h with
  | map hf hbefore hv =>
    rw [applySpecial, evalMap_append_cons, Action.run_bind_ok hf,
      Action.run_bind_ok (Action.run_mapM_eq_ok.mpr hbefore)]
    exact evalElements_run hv "map" _
  | filter hp hv => exact (Action.run_bind_ok hp).trans (evalElements_run hv "filter" _)
  | reduce hf hv | reduce_seed hf hv =>
    exact (Action.run_bind_ok hf).trans (evalElements_run hv "reduce" _)
  | doseq hb hv =>
    rw [applySpecial, evalDoseq_of_binding ctx hb]
    exact evalElements_run hv "doseq" _

/-- What the special form does with the value of a collection form is what it does with the row of
elements `xs`. -/
def AcceptsCollection (f : SpecialForm) (v : Value) (xs : List Value) : Prop :=
  ∀ (ctx : Context) s t forms go, AsCollection ctx s v t f forms go →
    (ctx.applySpecial f forms).run s = (go xs).run t

theorem AsCollection.run_of_elements (h : AsCollection ctx s v t f forms go)
    (hxs : v.HasElements xs) : (ctx.applySpecial f forms).run s = (go xs).run t := by
  rw [h.run_eq, hxs.realize]
  rfl

theorem AsCollection.run_of_none (h : AsCollection ctx s v t f forms go) (hv : v.asSeq? = none) :
    (ctx.applySpecial f forms).run s =
      (Action.raise (.typeIn f.name "seqable" v.typeName)).run t := by
  rw [h.run_eq, Value.realize_of_asSeq?_eq_none hv]
  rfl

theorem fold_alwaysTrue_run (hf : f.asFunction? = some .alwaysTrue) (xs : List Value)
    (s : State) : (ctx.fold f (.bool true) xs).run s = (.ok (.bool true), { s with
      events := (xs.map fun x => .called (.fn .alwaysTrue) [.bool true, x]).reverse ++
        s.events }) := by
  induction xs generalizing s with
  | nil => rfl
  | cons x xs ih =>
    have hx : (ctx.invoke f [.bool true, x]).run s = (.ok (.bool true), { s with
        events := .called (.fn .alwaysTrue) [.bool true, x] :: s.events }) := by
      rw [invoke, hf]
      rfl
    rw [fold] at ih ⊢
    rw [List.foldlM_cons, Action.run_bind_ok hx, ih]
    simp

theorem empty_turns_run (x : Symbol) (xs : List Value) (s : State) :
    (xs.forM (ctx.evalTurn x [])).run s = (.ok (), { s with
      scope := s.scope.bindLast x xs
      events := (xs.map (.bound x)).reverse ++ s.events }) := by
  induction xs generalizing s with
  | nil => rfl
  | cons v xs ih =>
    have hv : (ctx.evalTurn x [] v).run s = (.ok (), { s with
        scope := s.scope.bind x v
        events := .bound x v :: s.events }) := rfl
    rw [List.forM_eq_forM] at ih ⊢
    rw [List.forM_cons, Action.run_bind_ok hv, ih, Scope.bindLast_cons]
    simp

/-- From the state `t`, what is done with a row of elements ends well and leaves them on record. -/
def Traces (go : List Value → Action Value) (t : State) : Prop :=
  ∃ (trace : Value → Event) (older : List Event), (∀ x y, trace x = trace y → x = y) ∧
    ∀ xs, ∃ w u, (go xs).run t = (.ok w, u) ∧ u.events = (xs.map trace).reverse ++ older

theorem Traces.eq_of_run_eq (h : Traces go t) (hrun : (go xs).run t = (go ys).run t) :
    xs = ys := by
  obtain ⟨trace, older, hinj, htrace⟩ := h
  obtain ⟨w, u, hxs, hu⟩ := htrace xs
  obtain ⟨w', u', hys, hu'⟩ := htrace ys
  have hend : u = u' := congrArg Prod.snd ((hxs.symm.trans hrun).trans hys)
  rw [← hend, hu] at hu'
  exact (List.map_inj_right hinj).mp (List.reverse_inj.mp (List.append_cancel_right hu'))

theorem Traces.exists_ok (h : Traces go t) (xs : List Value) :
    ∃ w, ((go xs).run t).1 = .ok w := by
  obtain ⟨trace, older, -, htrace⟩ := h
  obtain ⟨w, u, hrun, -⟩ := htrace xs
  exact ⟨w, congrArg Prod.fst hrun⟩

theorem exists_asCollection (hf : f ∈ [.map, .filter, .reduce, .doseq]) (v : Value) :
    ∃ (ctx : Context) (s t : State) (forms : List Value) (go : List Value → Action Value),
      AsCollection ctx s v t f forms go ∧ Traces go t := by
  let ctx := Host.plain.context none 1
  let s := State.initial (.root .empty)
  let identity : Value := .native (.fn .identity)
  let alwaysTrue : Value := .native (.fn .alwaysTrue)
  simp only [List.mem_cons, List.not_mem_nil, or_false] at hf
  rcases hf with rfl | rfl | rfl | rfl
  · refine ⟨ctx, s, _, identity :: ([] ++ .resolved v :: []), _, .map rfl .nil rfl, ?_⟩
    exact ⟨fun x => .called (.fn .identity) [x], _, by rintro x y ⟨⟩; rfl, fun xs =>
      ⟨_, _, Action.run_bind_ok (identity_calls_run rfl xs _), rfl⟩⟩
  · refine ⟨ctx, s, _, [identity, .resolved v], _, .filter rfl rfl, ?_⟩
    have hcalls (xs : List Value) (t : State) : (xs.mapM fun x => ctx.invoke identity [x]).run t =
        (.ok xs, { t with
          events := (xs.map fun x => .called (.fn .identity) [x]).reverse ++ t.events }) := by
      rw [← identity_calls_run (f := identity) rfl, List.mapM_map]
      rfl
    simp only [keepIf_eq_map_passing, bind_map_left]
    exact ⟨fun x => .called (.fn .identity) [x], _, by rintro x y ⟨⟩; rfl, fun xs =>
      ⟨_, _, Action.run_bind_ok (hcalls xs _), rfl⟩⟩
  · refine ⟨ctx, s, _, [alwaysTrue, .bool true, .resolved v], _, .reduce_seed rfl rfl, ?_⟩
    exact ⟨fun x => .called (.fn .alwaysTrue) [.bool true, x], _, by rintro x y ⟨⟩; rfl,
      fun xs => ⟨_, _, fold_alwaysTrue_run rfl xs _, rfl⟩⟩
  · refine ⟨ctx, s, _, [.vector [.symbol ⟨"x"⟩, .resolved v]], _, .doseq rfl rfl, ?_⟩
    exact ⟨.bound ⟨"x"⟩, _, by rintro x y ⟨⟩; rfl, fun xs =>
      ⟨_, _, Action.run_bind_ok (empty_turns_run _ xs _), rfl⟩⟩

/-- A value is accepted as the row of its own elements, and as no other. -/
theorem acceptsCollection_iff (hf : f ∈ [.map, .filter, .reduce, .doseq]) {v : Value} :
    AcceptsCollection f v xs ↔ v.HasElements xs := by
  constructor
  · intro hxs
    obtain ⟨ctx, s, t, forms, go, h, htraces⟩ := exists_asCollection hf v
    obtain ⟨w, hw⟩ := htraces.exists_ok xs
    have hrun := hxs ctx s t forms go h
    cases hv : v.realize f.name with
    | error e =>
      rw [← hrun, h.run_eq, hv, Action.run_bind, Action.run_ofOutcome] at hw
      cases hw
    | ok ys =>
      have hys : v.HasElements ys := Value.realize_eq_ok.mp hv
      rw [h.run_of_elements hys] at hrun
      exact htraces.eq_of_run_eq hrun ▸ hys
  · exact fun h ctx s t forms go hcollection => hcollection.run_of_elements h

/-! ## Values in the place of functions -/

/-- The value `v` comes to a special form in the state `t` where a function is asked for, and what
is to be done with calls of the function is `go`. A step of a pipeline is not evaluated before. -/
inductive AsFunction (ctx : Context) (s : State) (v : Value) (t : State) :
    SpecialForm → List Value → ((List Value → Action Value) → Action Value) → Prop
  | map : (ctx.eval function).run s = (.ok v, t) →
      AsFunction ctx s v t .map (function :: collection :: collections) fun call => do
        let columns ← (collection :: collections).mapM (ctx.evalElements "map")
        return .list (← (rows columns).mapM call)
  | filter : (ctx.eval predicate).run s = (.ok v, t) →
      AsFunction ctx s v t .filter [predicate, collection] fun call => do
        let xs ← ctx.evalElements "filter" collection
        return .list (← keepIf (fun x => Value.isTruthy <$> call [x]) xs)
  | reduce : (ctx.eval function).run s = (.ok v, t) →
      AsFunction ctx s v t .reduce [function, collection] fun call => do
        match ← ctx.evalElements "reduce" collection with
        | [] => .raise .emptyReduce
        | x :: xs => xs.foldlM (fun acc x => call [acc, x]) x
  | reduce_seed : (ctx.eval function).run s = (.ok v, t) →
      AsFunction ctx s v t .reduce [function, seed, collection] fun call => do
        let xs ← ctx.evalElements "reduce" collection
        xs.foldlM (fun acc x => call [acc, x]) (← ctx.eval seed)
  | step {p : Position} {before after : List Value} :
      (ctx.applySpecial p.form (seed :: before)).run s = (.ok w, t) →
      AsFunction ctx s v t p.form (seed :: (before ++ v :: after)) fun call => do
        after.foldlM (ctx.evalThreadStep p) (← call [w])

/-- What the special form does with a value in the place of a function is what it does with calls of
the native `n`. -/
def AcceptsFunction (f : SpecialForm) (v : Value) (n : Native) : Prop :=
  ∀ (ctx : Context) s t forms go, AsFunction ctx s v t f forms go →
    (ctx.applySpecial f forms).run s = (go (ctx.callNative n)).run t

/-- What is done with a value in the place of a function: it is called, or refused at once. -/
def useFunction (ctx : Context) (v : Value) (go : (List Value → Action Value) → Action Value) :
    Action Value :=
  match v.asFunction? with
  | some g => go (ctx.callFunction g)
  | none => .raise (.notInvokable v.typeName)

theorem evalFunction_bind_run (h : (ctx.eval form).run s = (.ok v, t))
    (go : (List Value → Action Value) → Action Value) :
    (ctx.evalFunction form >>= fun f => go (ctx.invoke f)).run s =
      (ctx.useFunction v go).run t := by
  rw [evalFunction, bind_assoc, Action.run_bind_ok h, useFunction, Value.isInvokable]
  cases hg : v.asFunction? with
  | none => rfl
  | some g =>
    rw [Option.isSome_some, if_pos rfl, pure_bind, invoke_eq_callFunction hg]

theorem evalThread_append_run {before after : List Value}
    (h : (ctx.applySpecial p.form (seed :: before)).run s = (.ok w, t)) (step : Value) :
    (ctx.applySpecial p.form (seed :: (before ++ step :: after))).run s =
      (ctx.evalThreadStep p w step >>= fun r => after.foldlM (ctx.evalThreadStep p) r).run t := by
  rw [applySpecial_form, evalThread] at h ⊢
  simp only [List.foldlM_append, List.foldlM_cons]
  rw [← bind_assoc, Action.run_bind_ok h]

theorem evalThreadStep_bind_eq (hv : v.NoCall) (w : Value) (k : Value → Action Value) :
    ctx.evalThreadStep p w v >>= k = ctx.useFunction v fun call => call [w] >>= k := by
  simp only [evalThreadStep, hv.splice?_eq_none, invoke, useFunction]
  cases v.asFunction? <;> rfl

/-- All of them ask for a function in one way. -/
theorem AsFunction.run_eq (h : AsFunction ctx s v t f forms go)
    (hv : ∀ p : Position, f = p.form → v.NoCall) :
    (ctx.applySpecial f forms).run s = (ctx.useFunction v go).run t := by
  cases h with
  | map hf =>
    rw [applySpecial, evalMap_cons_cons]
    refine Eq.trans ?_ (evalFunction_bind_run hf _)
    rfl
  | filter hf | reduce hf | reduce_seed hf =>
    refine Eq.trans ?_ (evalFunction_bind_run hf _)
    rfl
  | step h => rw [evalThread_append_run h, evalThreadStep_bind_eq (hv _ rfl)]

theorem useFunction_of_asFunction? (h : v.asFunction? = some g)
    (go : (List Value → Action Value) → Action Value) :
    ctx.useFunction v go = go (ctx.callFunction g) := by
  simp only [useFunction, h]

theorem useFunction_of_not_isInvokable (h : ¬v.isInvokable)
    (go : (List Value → Action Value) → Action Value) :
    ctx.useFunction v go = .raise (.notInvokable v.typeName) := by
  have hg : v.asFunction? = none := by simpa [Value.isInvokable] using h
  simp only [useFunction, hg]

theorem AsFunction.run_of_asFunction? (h : AsFunction ctx s v t f forms go)
    (hg : v.asFunction? = some g) :
    (ctx.applySpecial f forms).run s = (go (ctx.callFunction g)).run t := by
  rw [h.run_eq fun _ _ => Value.noCall_of_asFunction? hg, useFunction_of_asFunction? hg]

theorem AsFunction.run_of_not_isInvokable (h : AsFunction ctx s v t f forms go)
    (hv : ¬v.isInvokable) (hcall : ∀ p : Position, f = p.form → v.NoCall) :
    (ctx.applySpecial f forms).run s = (Action.raise (.notInvokable v.typeName)).run t := by
  rw [h.run_eq hcall, useFunction_of_not_isInvokable hv]

/-- From the state `t`, in which nothing has been called, what is done with a native leaves a single
call on record, which is of that native. -/
def Calls (ctx : Context) (go : (List Value → Action Value) → Action Value) (t : State) : Prop :=
  t.calls = [] ∧ ∃ args, ∀ n, ((go (ctx.callNative n)).run t).2.calls = [(n, args)]

theorem Calls.eq_of_run_eq (h : ctx.Calls go t)
    (hrun : (go (ctx.callNative n)).run t = (go (ctx.callNative m)).run t) : n = m := by
  obtain ⟨-, args, hcalls⟩ := h
  have hcall := (hcalls n).symm.trans ((congrArg (·.2.calls) hrun).trans (hcalls m))
  cases hcall
  rfl

theorem Calls.run_ne (h : ctx.Calls go t) (hr : r.2.calls = []) :
    r ≠ (go (ctx.callNative n)).run t := by
  obtain ⟨-, args, hcalls⟩ := h
  rintro rfl
  cases (hcalls n).symm.trans hr

/-- A value is used like a native only if it is that native: it is told by its call. -/
theorem Calls.payload_eq (h : ctx.Calls go t)
    (hrun : (ctx.useFunction v go).run t = (go (ctx.callNative n)).run t) :
    v.payload = .native n ∧ v.isInvokable := by
  cases hg : v.asFunction? with
  | none =>
    have hv : ¬v.isInvokable := by simp [Value.isInvokable, hg]
    rw [useFunction_of_not_isInvokable hv] at hrun
    have hquiet := callsOf_append [.raised (.notInvokable v.typeName)] t.events
    exact absurd hrun (h.run_ne (hquiet.trans ((List.append_nil _).trans h.1)))
  | some g =>
    rw [useFunction_of_asFunction? hg] at hrun
    have hpayload := Value.asFunction?_eq_some.mp hg
    obtain rfl : .fn g = n := h.eq_of_run_eq hrun
    exact ⟨hpayload, Value.isInvokable_iff.mpr ⟨g, hpayload⟩⟩

/-- A step can be a call of its own. The budget does not allow it, and no call is left on record. -/
theorem exists_asFunction_step (p : Position) (v : Value) :
    ∃ (ctx : Context) (s t : State) (forms : List Value)
      (go : (List Value → Action Value) → Action Value), AsFunction ctx s v t p.form forms go ∧
        ctx.Calls go t ∧ ((∀ q : Position, p.form = q.form → v.NoCall) ∨
          ((ctx.applySpecial p.form forms).run s).2.calls = []) := by
  let ctx := Host.plain.context none 1
  let s := State.initial (.root .empty)
  have hseed : (ctx.applySpecial p.form [.nil]).run s =
      (.ok .nil, { s with events := [.evaluated .nil] }) := by
    cases p <;> rfl
  have h : AsFunction ctx s v _ p.form (.nil :: ([] ++ v :: [])) _ := .step hseed
  refine ⟨ctx, s, _, _, _, h, ⟨rfl, [.nil], fun n => ?_⟩, ?_⟩
  · cases n with
    | fn f | special f => cases f <;> rfl
  · by_cases hcall : v.NoCall
    · exact .inl fun _ _ => hcall
    · obtain ⟨operator, args, rfl⟩ : ∃ operator args, v = .list (operator :: args) := by
        simpa [Value.NoCall] using hcall
      exact .inr (by cases p <;> rfl)

theorem exists_asFunction (hf : f ∈ [.map, .filter, .reduce, .threadFirst, .threadLast])
    (v : Value) :
    ∃ (ctx : Context) (s t : State) (forms : List Value)
      (go : (List Value → Action Value) → Action Value), AsFunction ctx s v t f forms go ∧
        ctx.Calls go t ∧ ((∀ p : Position, f = p.form → v.NoCall) ∨
          ((ctx.applySpecial f forms).run s).2.calls = []) := by
  let ctx := Host.plain.context none 1
  let s := State.initial (.root .empty)
  let row : Value := .resolved (.list [.nil])
  simp only [List.mem_cons, List.not_mem_nil, or_false] at hf
  rcases hf with rfl | rfl | rfl | rfl | rfl
  -- With nil to work on, no native calls another.
  · have h : AsFunction ctx s v _ .map [.resolved v, row] _ := .map rfl
    refine ⟨ctx, s, _, _, _, h, ⟨rfl, [.nil], fun n => ?_⟩, .inl (by rintro ⟨⟩ ⟨⟩)⟩
    cases n with
    | fn f | special f => cases f <;> rfl
  · have h : AsFunction ctx s v _ .filter [.resolved v, row] _ := .filter rfl
    refine ⟨ctx, s, _, _, _, h, ⟨rfl, [.nil], fun n => ?_⟩, .inl (by rintro ⟨⟩ ⟨⟩)⟩
    cases n with
    | fn f | special f => cases f <;> rfl
  · have h : AsFunction ctx s v _ .reduce [.resolved v, .nil, row] _ := .reduce_seed rfl
    refine ⟨ctx, s, _, _, _, h, ⟨rfl, [.nil, .nil], fun n => ?_⟩, .inl (by rintro ⟨⟩ ⟨⟩)⟩
    cases n with
    | fn f | special f => cases f <;> rfl
  · exact exists_asFunction_step .first v
  · exact exists_asFunction_step .last v

/-- A value is accepted as the function it is, and as no other native. -/
theorem acceptsFunction_iff (hf : f ∈ [.map, .filter, .reduce, .threadFirst, .threadLast]) :
    AcceptsFunction f v n ↔ v.payload = .native n ∧ v.isInvokable := by
  constructor
  · intro hn
    obtain ⟨ctx, s, t, forms, go, h, hcalls, hcall | hquiet⟩ := exists_asFunction hf v
    · exact hcalls.payload_eq ((h.run_eq hcall).symm.trans (hn ctx s t forms go h))
    · exact absurd (hn ctx s t forms go h) (hcalls.run_ne hquiet)
  · rintro ⟨hn, hv⟩ ctx s t forms go h
    obtain ⟨g, hg⟩ := Value.isInvokable_iff.mp hv
    cases hn.symm.trans hg
    exact h.run_of_asFunction? (Value.asFunction?_eq_some.mpr hg)

/-! ## Calls -/

theorem invoke_eq_useFunction (ctx : Context) (v : Value) (args : List Value) :
    ctx.invoke v args = ctx.useFunction v fun call => call args := rfl

theorem invoke_of_not_isInvokable (ctx : Context) (hv : ¬v.isInvokable) (args : List Value) :
    ctx.invoke v args = .raise (.notInvokable v.typeName) := by
  rw [invoke_eq_useFunction, useFunction_of_not_isInvokable hv]

/-- To invoke a value is to call the function it is, and no other native. -/
theorem invoke_eq_callNative_iff :
    (∀ (ctx : Context) args, ctx.invoke v args = ctx.callNative n args) ↔
      v.payload = .native n ∧ v.isInvokable := by
  constructor
  · intro hn
    have hcalls : (Host.plain.context none 1).Calls (fun call => call [.nil])
        (.initial (.root .empty)) := by
      refine ⟨rfl, [.nil], fun n => ?_⟩
      cases n with
      | fn f | special f => cases f <;> rfl
    refine hcalls.payload_eq ?_
    rw [← invoke_eq_useFunction, hn]
  · rintro ⟨hn, hv⟩ ctx args
    obtain ⟨g, hg⟩ := Value.isInvokable_iff.mp hv
    cases hn.symm.trans hg
    exact congrFun (invoke_eq_callFunction (Value.asFunction?_eq_some.mpr hg)) args

end Context

open Context

/-- A value that can be walked to its end, if at all, is seqable exactly when it is a sequence, has
elements for every operation, converts to a list and to a vector, and is accepted by each special
form that has a collection form, wherever that stands; it is accepted as the row of its elements and
as no other. Any value is invokable exactly when it is a function and to invoke it is to call that
function, and when each special form that asks for a function, which threading does of its steps,
accepts it as that function; no other native does as well. What is not accepted is refused where it
comes, and nothing more happens; a step can be a call of its own. No mark makes a function of a
special form. -/
theorem capabilities_are_uses {v : Value} (hv : ¬v.Endless) :
    ((v.implements (.interface .seqable) = .ok true ↔ v.asSeq?.isSome) ∧
      ((∃ xs, ∀ name, v.realize name = .ok xs) ↔ v.asSeq?.isSome) ∧
      (∀ xs, (∀ name, v.realize name = .ok xs) ↔ v.HasElements xs) ∧
      (∀ t, t = .list ∨ t = .vector → ((∃ r, v.toType t = .ok r) ↔ v.asSeq?.isSome)) ∧
      (∀ f ∈ [.map, .filter, .reduce, .doseq],
        ((∃ xs, AcceptsCollection f v xs) ↔ v.asSeq?.isSome) ∧
        ∀ xs, AcceptsCollection f v xs ↔ v.HasElements xs)) ∧
    ((v.implements (.interface .invokable) = .ok true ↔ v.isInvokable) ∧
      ((∃ g, v.payload = .native (.fn g) ∧
        ∀ (ctx : Context) args, ctx.invoke v args = ctx.callNative (.fn g) args) ↔
          v.isInvokable) ∧
      (∀ n, (∀ (ctx : Context) args, ctx.invoke v args = ctx.callNative n args) ↔
        v.payload = .native n ∧ v.isInvokable) ∧
      (∀ f ∈ [.map, .filter, .reduce, .threadFirst, .threadLast],
        ((∃ g, v.payload = .native (.fn g) ∧ AcceptsFunction f v (.fn g)) ↔ v.isInvokable) ∧
        ∀ n, AcceptsFunction f v n ↔ v.payload = .native n ∧ v.isInvokable)) ∧
    (¬v.asSeq?.isSome → ∀ ctx s t f forms go, AsCollection ctx s v t f forms go →
      (ctx.applySpecial f forms).run s =
        (Action.raise (.typeIn f.name "seqable" v.typeName)).run t) ∧
    (¬v.isInvokable →
      (∀ (ctx : Context) args, ctx.invoke v args = .raise (.notInvokable v.typeName)) ∧
      ∀ ctx s t f forms go, AsFunction ctx s v t f forms go →
        (∀ p : Position, f = p.form → v.NoCall) →
        (ctx.applySpecial f forms).run s = (Action.raise (.notInvokable v.typeName)).run t) ∧
    ∀ f, v.payload = .native (.special f) → ∀ (ctx : Context) args,
      ctx.invoke v args = .raise (.notInvokable "special-form") := by
  have helements : (∃ xs, v.HasElements xs) ↔ v.asSeq?.isSome := Value.exists_hasElements_iff hv
  refine ⟨⟨Value.implements_seqable_iff, ?_, fun xs => Value.forall_realize_iff,
    fun t => Value.exists_toType_iff hv, fun f hf => ⟨?_, fun xs => acceptsCollection_iff hf⟩⟩,
    ⟨Value.implements_invokable_iff,
      Value.exists_function_iff fun n => invoke_eq_callNative_iff,
      fun n => invoke_eq_callNative_iff, fun f hf =>
        ⟨Value.exists_function_iff fun n => acceptsFunction_iff hf,
          fun n => acceptsFunction_iff hf⟩⟩, ?_, ?_, ?_⟩
  · simp only [Value.forall_realize_iff, helements]
  · simp only [acceptsCollection_iff hf, helements]
  · intro hnone ctx s t f forms go h
    exact h.run_of_none (by simpa using hnone)
  · intro hnot
    exact ⟨fun ctx => invoke_of_not_isInvokable ctx hnot,
      fun ctx s t f forms go h => h.run_of_not_isInvokable hnot⟩
  · intro f hf ctx args
    have hnot : ¬v.isInvokable := by simp [Value.isInvokable, Value.asFunction?, hf]
    rw [invoke_of_not_isInvokable ctx hnot, ← Value.typeName_payload, hf, Value.typeName]

/-- A marked vector, a marked function and a marked special form. -/
theorem capabilities_are_uses_marked :
    let v : Value := .resolved (.resolved (.vector [.int 1]))
    let g : Value := .resolved (.native (.fn .identity))
    let f : Value := .resolved (.native (.special .map))
    (¬v.Endless ∧ v.implements (.interface .seqable) = .ok true ∧
      AcceptsCollection .doseq v [.int 1] ∧ ¬AcceptsCollection .doseq v [] ∧
      (∃ r, v.toType .list = .ok r) ∧ ∀ n, ¬AcceptsFunction .threadFirst v n) ∧
    (¬g.Endless ∧ g.implements (.interface .invokable) = .ok true ∧
      (∀ (ctx : Context) args, ctx.invoke g args = ctx.callNative (.fn .identity) args) ∧
      AcceptsFunction .threadFirst g (.fn .identity) ∧
      ¬(∀ (ctx : Context) args, ctx.invoke g args = ctx.callNative (.fn .alwaysTrue) args) ∧
      ¬AcceptsFunction .threadFirst g (.fn .alwaysTrue)) ∧
    ¬f.Endless ∧ (∀ xs, ¬AcceptsCollection .map f xs) ∧ (∀ n, ¬AcceptsFunction .map f n) ∧
      ∀ (ctx : Context) args, ctx.invoke f args = .raise (.notInvokable "special-form") := by
  intro v g f
  have hv : ¬v.Endless := by rintro ⟨s, ⟨⟩, ⟨⟩⟩
  have hg : ¬g.Endless := by rintro ⟨s, ⟨⟩, -⟩
  have hf : ¬f.Endless := by rintro ⟨s, ⟨⟩, -⟩
  obtain ⟨⟨himplements, -, -, hlist, haccepts⟩, ⟨-, -, -, hstep⟩, -⟩ := capabilities_are_uses hv
  obtain ⟨-, ⟨hinvokable, -, hinvoke, hfunction⟩, -⟩ := capabilities_are_uses hg
  obtain ⟨⟨-, -, -, -, hcollection⟩, ⟨-, -, -, hspecial⟩, -, -, hrefused⟩ :=
    capabilities_are_uses hf
  obtain ⟨-, helements⟩ := haccepts .doseq (by simp)
  obtain ⟨-, hnative⟩ := hfunction .threadFirst (by simp)
  refine ⟨⟨hv, himplements.mpr rfl, ?_, ?_, (hlist .list (.inl rfl)).mpr rfl, fun n hn => ?_⟩,
    ⟨hg, hinvokable.mpr rfl, (hinvoke _).mpr ⟨rfl, rfl⟩, (hnative _).mpr ⟨rfl, rfl⟩, ?_, ?_⟩,
    hf, fun xs hxs => ?_, fun n hn => ?_, hrefused .map rfl⟩
  · exact (helements _).mpr ⟨.items _, rfl, Sequence.realize?_items _⟩
  · rw [helements]
    rintro ⟨s, ⟨⟩, ⟨⟩⟩
  · obtain ⟨⟨⟩, -⟩ := ((hstep .threadFirst (by simp)).2 n).mp hn
  · rw [hinvoke]
    rintro ⟨⟨⟩, -⟩
  · rw [hnative]
    rintro ⟨⟨⟩, -⟩
  · obtain ⟨s, ⟨⟩, -⟩ := ((hcollection .map (by simp)).2 xs).mp hxs
  · obtain ⟨-, ⟨⟩⟩ := ((hspecial .map (by simp)).2 n).mp hn

end Lisplet
