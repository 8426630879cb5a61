import Lisplet.Eval
import Lisplet.Proofs.Operands

/-!
`filter` beside `map`. Both evaluate the same forms and call the same function with one element
after the other, from state to state; they differ in what they make of the results, and in the name
that they give when there is nothing to walk. Main statement: `filter_agrees_with_map`.
-/

namespace Lisplet

/-- The elements at the places of true results. -/
def passing (xs results : List Value) : List Value :=
  ((xs.zip results).filter (·.2.isTruthy)).map (·.1)

theorem passing_cons (x result : Value) (xs results : List Value) :
    passing (x :: xs) (result :: results) =
      if result.isTruthy then x :: passing xs results else passing xs results := by
  rw [passing, List.zip_cons_cons, List.filter_cons]
  split <;> rfl

theorem Value.isTruthy_iff {v : Value} :
    v.isTruthy ↔ v.payload ≠ .nil ∧ v.payload ≠ .bool false := by
  rw [isTruthy]
  cases v.payload <;> simp

/-- To test one element after the other by what a call gives is to make all calls, and to keep what
the results let pass. -/
theorem keepIf_eq_map_passing (call : Value → Action Value) (xs : List Value) :
    keepIf (fun x => Value.isTruthy <$> call x) xs = passing xs <$> xs.mapM call := by
  induction xs with
  | nil => rfl
  | cons x xs ih =>
    rw [keepIf, ih, List.mapM_cons]
    simp only [map_bind, bind_map_left, passing_cons, bind_pure_comp, Functor.map_map]

namespace Context

variable {ctx : Context}

/-! ## One walk for both -/

/-- The elements of a collection and the results of calling a function with each of them. -/
def walk (ctx : Context) (name : String) (function collection : Value) :
    Action (List Value × List Value) := do
  let (f, v) ← ctx.evalOperands function collection
  let xs ← .ofOutcome (v.realize name)
  let results ← xs.mapM fun x => ctx.invoke f [x]
  return (xs, results)

theorem evalMap_eq_walk (function collection : Value) :
    ctx.evalMap [function, collection] =
      (fun w => .list w.2) <$> ctx.walk "map" function collection := by
  simp [evalMap, walk, evalOperands, evalElements]

theorem evalFilter_eq_walk (predicate collection : Value) :
    ctx.evalFilter [predicate, collection] =
      (fun w => .list (passing w.1 w.2)) <$> ctx.walk "filter" predicate collection := by
  simp [evalFilter, walk, evalOperands, evalElements, keepIf_eq_map_passing]

theorem OperandsRun.walk_run_error (h : OperandsRun ctx function collection s (.error e, t))
    (name : String) : (ctx.walk name function collection).run s = (.error e, t) :=
  Action.run_bind_eq_error.mpr (.inl h.run_eq)

theorem OperandsRun.walk_run (h : OperandsRun ctx function collection s (.ok (f, v), t))
    (name : String) : (ctx.walk name function collection).run s =
      (do let xs ← .ofOutcome (v.realize name)
          let results ← xs.mapM fun x => ctx.invoke f [x]
          return (xs, results) : Action (List Value × List Value)).run t :=
  Action.run_bind_ok h.run_eq

theorem OperandsRun.walk_run_elements (h : OperandsRun ctx function collection s (.ok (f, v), t))
    (hxs : v.HasElements xs) (name : String) : (ctx.walk name function collection).run s =
      ((fun results => (xs, results)) <$> xs.mapM fun x => ctx.invoke f [x]).run t := by
  rw [h.walk_run, hxs.realize, ← bind_pure_comp]
  rfl

/-! ## Two runs -/

/-- The ways in which `map` and `filter` can end that are given the same forms in the same state,
each with what comes of the one and of the other: an outcome and a state. -/
inductive FilterRun (ctx : Context) (predicate collection : Value) (s : State) :
    Outcome Value × State → Outcome Value × State → Prop
  | operands_fail : OperandsRun ctx predicate collection s (.error e, t) →
      FilterRun ctx predicate collection s (.error e, t) (.error e, t)
  | not_seqable : OperandsRun ctx predicate collection s (.ok (p, v), t) → v.asSeq? = none →
      FilterRun ctx predicate collection s
        ((Action.raise (.typeIn "map" "seqable" v.typeName)).run t)
        ((Action.raise (.typeIn "filter" "seqable" v.typeName)).run t)
  | endless : OperandsRun ctx predicate collection s (.ok (p, v), t) → v.Endless →
      FilterRun ctx predicate collection s (.error .unfinished, t) (.error .unfinished, t)
  | call_fails : OperandsRun ctx predicate collection s (.ok (p, v), t) → v.HasElements xs →
      Action.Runs (fun x => ctx.invoke p [x]) (xs.take i) t results u → xs[i]? = some x →
      (ctx.invoke p [x]).run u = (.error e, u') →
      FilterRun ctx predicate collection s (.error e, u') (.error e, u')
  | done : OperandsRun ctx predicate collection s (.ok (p, v), t) → v.HasElements xs →
      Action.Runs (fun x => ctx.invoke p [x]) xs t results u →
      FilterRun ctx predicate collection s (.ok (.list results), u)
        (.ok (.list (passing xs results)), u)

theorem FilterRun.run_eq (h : FilterRun ctx predicate collection s r r') :
    (ctx.evalMap [predicate, collection]).run s = r ∧
      (ctx.evalFilter [predicate, collection]).run s = r' := by
  rw [evalMap_eq_walk, evalFilter_eq_walk, Action.run_map, Action.run_map]
  cases h with
  | operands_fail ho =>
    rw [ho.walk_run_error, ho.walk_run_error]
    exact ⟨rfl, rfl⟩
  | not_seqable ho hno =>
    rw [ho.walk_run, ho.walk_run, Value.realize_of_asSeq?_eq_none hno,
      Value.realize_of_asSeq?_eq_none hno]
    exact ⟨rfl, rfl⟩
  | endless ho hend =>
    rw [ho.walk_run, ho.walk_run, hend.realize, hend.realize]
    exact ⟨rfl, rfl⟩
  | call_fails ho hxs hcalls hx hfail =>
    rw [ho.walk_run_elements hxs, ho.walk_run_elements hxs, Action.run_map,
      Action.run_mapM_eq_error.mpr ⟨_, _, _, _, hx, hcalls, hfail⟩]
    exact ⟨rfl, rfl⟩
  | done ho hxs hcalls =>
    rw [ho.walk_run_elements hxs, ho.walk_run_elements hxs, Action.run_map,
      Action.run_mapM_eq_ok.mpr hcalls]
    exact ⟨rfl, rfl⟩

theorem exists_filterRun (ctx : Context) (predicate collection : Value) (s : State) :
    ∃ r r', FilterRun ctx predicate collection s r r' := by
  obtain ⟨⟨e | ⟨p, v⟩, t⟩, ho⟩ := exists_operandsRun ctx predicate collection s
  · exact ⟨_, _, .operands_fail ho⟩
  rcases v.walk_cases with hno | hend | ⟨xs, hxs⟩
  · exact ⟨_, _, .not_seqable ho hno⟩
  · exact ⟨_, _, .endless ho hend⟩
  rcases hcalls : (xs.mapM fun x => ctx.invoke p [x]).run t with ⟨e | results, u⟩
  · obtain ⟨i, x, results, w, hx, hcalls, hfail⟩ := Action.run_mapM_eq_error.mp hcalls
    exact ⟨_, _, .call_fails ho hxs hcalls hx hfail⟩
  · exact ⟨_, _, .done ho hxs (Action.run_mapM_eq_ok.mp hcalls)⟩

/-- `filter` and `map` that are given the same forms in the same state end in the ways that
`FilterRun` lists and in no others: they evaluate the same forms and make the same calls in the same
order, from the same states to the same states. What `filter` keeps are the elements, as they are,
at whose places `map` has a result that is neither nil nor false. -/
theorem filter_agrees_with_map (ctx : Context) (predicate collection : Value) (s : State) :
    (∀ r r', (ctx.evalMap [predicate, collection]).run s = r ∧
        (ctx.evalFilter [predicate, collection]).run s = r' ↔
      FilterRun ctx predicate collection s r r') ∧
    ∀ v : Value, v.isTruthy ↔ v.payload ≠ .nil ∧ v.payload ≠ .bool false := by
  refine ⟨fun r r' => ⟨?_, FilterRun.run_eq⟩, fun v => Value.isTruthy_iff⟩
  rintro ⟨rfl, rfl⟩
  obtain ⟨r, r', h⟩ := exists_filterRun ctx predicate collection s
  obtain ⟨hr, hr'⟩ := h.run_eq
  rwa [hr, hr']

/-- A marked result counts as its payload, and an element that comes twice is kept twice. -/
theorem filter_agrees_with_map_marked :
    let predicate : Value := .resolved (.native (.fn .identity))
    let elements : List Value := [.int 1, .resolved (.bool false), .nil, .int 1]
    let collection : Value := .resolved (.vector elements)
    let t : State := ⟨.reference, 0, [.called (.fn .identity) [.int 1],
      .called (.fn .identity) [.nil], .called (.fn .identity) [.resolved (.bool false)],
      .called (.fn .identity) [.int 1], .evaluated collection, .evaluated predicate]⟩
    FilterRun (Host.reference.context none 1) predicate collection (.initial .reference)
      (.ok (.list elements), t) (.ok (.list [.int 1, .int 1]), t) :=
  ((filter_agrees_with_map _ _ _ _).1 _ _).mp ⟨rfl, rfl⟩

end Context

end Lisplet
