import Lisplet.Eval
import Lisplet.Proofs.Answer

/-!
Laws of actions. A law is a property of families of actions that has one clause for each thing an
action can be made of, so every evaluation obeys it as soon as the evaluations inside it do. What
such a law says of forms and values may depend on the record, which is the stage that a run has come
to. Main statements: `StagedLaw.callSpecial` and `StagedLaw.evalForm`.
-/

namespace Lisplet

/-! ## What special forms look at and enter -/

/-- The rows of a table hold nothing that its columns do not hold. -/
theorem forall_mem_rows {V : α → Prop} {columns : List (List α)}
    (h : ∀ c ∈ columns, ∀ v ∈ c, V v) : ∀ row ∈ rows columns, ∀ v ∈ row, V v := by
  fun_induction rows columns with
  | case1 => simp
  | case2 column => simpa using h
  | case3 column columns _ ih =>
    obtain ⟨hcolumn, hcolumns⟩ := List.forall_mem_cons.mp h
    intro row hrow
    rw [← List.map_uncurry_zip_eq_zipWith] at hrow
    obtain ⟨⟨v, row'⟩, hp, rfl⟩ := List.mem_map.mp hrow
    obtain ⟨hv, hrow'⟩ := List.of_mem_zip hp
    exact List.forall_mem_cons.mpr ⟨hcolumn v hv, ih hcolumns row' hrow'⟩

theorem mem_of_chosen? (h : chosen? v clauses = some form) :
    form ∈ clauses := by
  fun_induction chosen? v clauses with
  | case1 => simp_all
  | case2 _ _ _ _ ih => simp [ih h]
  | case3 => simp_all
  | case4 => cases h

/-- Some special form that is written with `forms` can hand `g` to the evaluator: each can do so
with the forms themselves, threading with a step into which a value is spliced, and `doseq` with the
collection form of its binding. -/
inductive SpecialForm.Enters : SpecialForm → List Value → Value → Prop
  | form : g ∈ forms → Enters s forms g
  | step {steps} : step ∈ steps → splice? p step v = some g → Enters s (seed :: steps) g
  | collection : loopBinding binding = .ok (x, g) → Enters .doseq (binding :: body) g

/-- The collection form that a call of `doseq` takes out of a mark. -/
def Event.unmarked? : Event → Option Value
  | .called (.special .doseq) (.resolved b :: _) =>
    match loopBinding (.resolved b) with
    | .ok (_, g) => some g
    | .error _ => none
  | _ => none

theorem Event.exists_of_unmarked? (h : (Event.called (.special s) forms).unmarked? = some g) :
    ∃ b body x, s = .doseq ∧ forms = .resolved b :: body ∧
      loopBinding (.resolved b) = .ok (x, g) := by
  unfold unmarked? at h
  split at h
  case h_1 b body heq =>
    cases heq
    split at h
    case h_1 x g' hb =>
      cases h
      exact ⟨b, body, x, rfl, rfl, hb⟩
    case h_2 => cases h
  case h_2 => cases h

/-- Without a mark around a binding, what is entered stands in the forms, or is spliced from a step
that does. -/
theorem SpecialForm.Enters.of_unmarked?_eq_none (h : s.Enters forms g)
    (hu : (Event.called (.special s) forms).unmarked? = none) :
    g ∈ forms ∨ (∃ seed steps step p v, forms = seed :: steps ∧ step ∈ steps ∧
      splice? p step v = some g) ∨ ∃ x body, forms = .vector [.symbol x, g] :: body := by
  cases h with
  | form hg => exact .inl hg
  | step hstep hg => exact .inr (.inl ⟨_, _, _, _, _, rfl, hstep, hg⟩)
  | @collection binding x g body hb =>
    have hp := loopBinding_eq_ok.mp hb
    cases binding with
    | vector vs => cases hp; exact .inr (.inr ⟨x, body, rfl⟩)
    | resolved b => simp [Event.unmarked?, hb] at hu
    | _ => cases hp

/-! ## Forms and values -/

/-- A property `F` of forms and a property `V` of values. Values can stand in forms, with marks or
without, and a form that is evaluated no further is a value. -/
structure Forms (F V : Value → Prop) : Prop where
  values : Inherited V
  data : V v → F v
  mark : V v → F (.resolved v)
  unmark : F (.resolved v) → V v
  list : F (.list gs) ↔ ∀ g ∈ gs, F g
  vector : F (.vector gs) → ∀ g ∈ gs, F g
  atom : F v → v.items? = none → (∀ w, v ≠ .resolved w) → V v

/-- Where marks make no difference, forms are values. -/
theorem Hereditary.forms (hV : Hereditary V) : Forms V V where
  values := hV.toInherited
  data := id
  mark := hV.mark
  unmark := hV.unmark
  list := hV.list
  vector := hV.vector.mp
  atom h _ _ := h

namespace Forms

variable {F V : Value → Prop} (hF : Forms F V)
include hF

theorem payload {g : Value} (hg : F g) : F g.payload := by
  cases g with
  | resolved v => exact hF.data (hF.values.payload (v := v) (hF.unmark hg))
  | _ => exact hg

theorem items {g : Value} (hg : F g) (h : g.items? = some gs) : ∀ g ∈ gs, F g := by
  rcases Value.items?_eq_some.mp h with rfl | rfl
  · exact hF.list.mp hg
  · exact hF.vector hg

theorem expansion (hf : F f) (h : Host.expandInc? f = some g) : F g :=
  Host.expansion_of_items (fun _ => hF.list) (hF.data hF.values.assignName)
    (hF.data hF.values.incName) hf h

theorem splice (hstep : F step) (hv : V v) (h : splice? p step v = some g) : F g := by
  obtain ⟨operator, args, rfl, hg⟩ := splice?_eq_some.mp h
  obtain ⟨ho, hargs⟩ := List.forall_mem_cons.mp (hF.list.mp hstep)
  have hm : F v.mark := by
    cases v with
    | resolved w => exact hF.data hv
    | _ => exact hF.mark hv
  rcases hg with ⟨-, rfl⟩ | ⟨-, rfl⟩
  · simpa [hF.list, ho, hm] using hargs
  · simpa [hF.list, ho, hm, or_imp, forall_and] using hargs

theorem loopBinding (hb : F binding) :
    (Lisplet.loopBinding binding).Sat (fun b => V (.symbol b.1) ∧ F b.2) E := by
  replace hb := hF.payload hb
  unfold Lisplet.loopBinding
  split
  case h_1 x form h =>
    rw [h] at hb
    have hitems := hF.vector hb
    exact ⟨hF.atom (hitems _ (by simp)) rfl nofun, hitems _ (by simp)⟩
  case h_2 => trivial
  case h_3 => trivial

end Forms

/-! ## Laws -/

/-- A property of families of actions, from a stage of the record on, that is closed under all that
evaluation in the reference host is made of. What an action returns has a property at the stage it
leaves; `F` holds of every form that comes up, and `V` of every value. -/
structure StagedLaw (ι : Type) (limit : Option Nat) (F V : List Event → Value → Prop) where
  Holds {α : Type} : List Event → (List Event → α → Prop) → (ι → Action α) → Prop
  closed (log : List Event) : Forms (F log) (V log)
  keepsForm {g : Value} : log <:+ log' → F log g → F log' g
  keepsValue {v : Value} : log <:+ log' → V log v → V log' v
  later {α : Type} {P : List Event → α → Prop} {x : ι → Action α} :
    log <:+ log' → Holds log P x → Holds log' P x
  pure {α : Type} {P : List Event → α → Prop} {a : α} :
    (∀ log', log <:+ log' → P log' a) → Holds log P fun _ => pure a
  bind {α β : Type} {P : List Event → α → Prop} {Q : List Event → β → Prop} {x : ι → Action α}
    {f : α → ι → Action β} : Holds log P x →
    (∀ log' a, log <:+ log' → P log' a → Holds log' Q (f a)) → Holds log Q fun i => x i >>= (f · i)
  raise {α : Type} {P : List Event → α → Prop} {e : Error} : Holds log P fun _ => .raise e
  /-- A walk that does not end is met at a value of the run only. -/
  endless {α : Type} {P : List Event → α → Prop} {v : Value} : V log v → v.Endless →
    Holds log P fun _ => throw .unfinished
  resolve {x : Symbol} : V log (.symbol x) → Holds log V fun _ => .resolve x
  bindSymbol {x : Symbol} {v : Value} : V log (.symbol x) → V log v →
    Holds log (fun _ _ => True) fun _ => .bindSymbol x v
  call {f : Function} {args : List Value} {eval : ι → Evaluator} : (∀ v ∈ args, V log v) →
    Holds log V fun i => Context.callFunction ⟨.reference, limit, eval i⟩ f args
  /-- What is quoted is a form before, and a value from there on. -/
  enter {s : SpecialForm} {forms : List Value} : (∀ g ∈ forms, F log g) →
    Holds log (fun log' _ => ∀ g, s = .quote → forms = [g] → V log' g) fun _ =>
      .record (.called (.special s) forms)

namespace StagedLaw

variable {ι : Type} {limit : Option Nat} {F V : List Event → Value → Prop}
  (L : StagedLaw ι limit F V) {log : List Event}

include L in
theorem keepsValues {vs : List Value} (h : log <:+ log') (hvs : ∀ v ∈ vs, V log v) :
    ∀ v ∈ vs, V log' v :=
  fun v hv => L.keepsValue h (hvs v hv)

theorem pureValue (hv : V log v) : L.Holds log V fun _ => Pure.pure v :=
  L.pure fun _ h => L.keepsValue h hv

/-! ## Loops -/

theorem map {P : List Event → α → Prop} {Q : List Event → β → Prop} {x : ι → Action α} {g : α → β}
    (hx : L.Holds log P x)
    (h : ∀ log' a, P log' a → ∀ log'', log' <:+ log'' → Q log'' (g a)) :
    L.Holds log Q fun i => g <$> x i := by
  have := L.bind hx (f := fun a _ => Pure.pure (g a)) fun log' a _ ha => L.pure (h log' a ha)
  simpa only [bind_pure_comp] using this

theorem ofOutcome {P : List Event → α → Prop} {o : Outcome α}
    (ho : o.Sat (fun a => ∀ log', log <:+ log' → P log' a) (∃ v, V log v ∧ v.Endless)) :
    L.Holds log P fun _ => .ofOutcome o := by
  rcases o with (e | -) | a
  · exact L.raise
  · obtain ⟨v, hv, he⟩ := ho
    exact L.endless hv he
  · exact L.pure ho

theorem mapM {P : List Event → β → Prop} {as : List α} {f : α → ι → Action β}
    (hP : ∀ {log log' b}, log <:+ log' → P log b → P log' b)
    (h : ∀ a ∈ as, L.Holds log P (f a)) :
    L.Holds log (fun log bs => ∀ b ∈ bs, P log b) fun i => as.mapM (f · i) := by
  induction as generalizing log with
  | nil => simpa only [List.mapM_nil] using L.pure (by simp)
  | cons a as ih =>
    obtain ⟨ha, has⟩ := List.forall_mem_cons.mp h
    simp only [List.mapM_cons]
    refine L.bind ha fun log₁ b h₁ hb => ?_
    refine L.bind (ih fun a ha => L.later h₁ (has a ha)) fun log₂ bs h₂ hbs => ?_
    exact L.pure fun log₃ h₃ => List.forall_mem_cons.mpr
      ⟨hP (h₂.trans h₃) hb, fun b hb => hP h₃ (hbs b hb)⟩

theorem forM {as : List α} {f : α → ι → Action PUnit}
    (h : ∀ a ∈ as, L.Holds log (fun _ _ => True) (f a)) :
    L.Holds log (fun _ _ => True) fun i => as.forM (f · i) := by
  induction as generalizing log with
  | nil => exact L.pure fun _ _ => trivial
  | cons a as ih =>
    obtain ⟨ha, has⟩ := List.forall_mem_cons.mp h
    exact L.bind ha fun log₁ _ h₁ _ => ih fun a ha => L.later h₁ (has a ha)

theorem foldlM {Q : List Event → β → Prop} {as : List α} {f : β → α → ι → Action β} {b : β}
    (hQ : ∀ {log log' b}, log <:+ log' → Q log b → Q log' b) (hb : Q log b)
    (h : ∀ log' b, log <:+ log' → Q log' b → ∀ a ∈ as, L.Holds log' Q (f b a)) :
    L.Holds log Q fun i => as.foldlM (f · · i) b := by
  induction as generalizing log b with
  | nil => simpa only [List.foldlM_nil] using L.pure fun _ h => hQ h hb
  | cons a as ih =>
    simp only [List.foldlM_cons]
    refine L.bind (h log b List.suffix_rfl hb a List.mem_cons_self) fun log₁ c h₁ hc => ?_
    exact ih hc fun log₂ b h₂ hb a ha =>
      h log₂ b (h₁.trans h₂) hb a (List.mem_cons_of_mem _ ha)

theorem keepIf {as : List α} {test : α → ι → Action Bool} {P : List Event → α → Prop}
    (hP : ∀ {log log' a}, log <:+ log' → P log a → P log' a) (has : ∀ a ∈ as, P log a)
    (h : ∀ a ∈ as, L.Holds log (fun _ _ => True) (test a)) :
    L.Holds log (fun log as => ∀ a ∈ as, P log a) fun i => Lisplet.keepIf (test · i) as := by
  induction as generalizing log with
  | nil => exact L.pure (by simp)
  | cons a as ih =>
    obtain ⟨ha, has⟩ := List.forall_mem_cons.mp has
    obtain ⟨htest, htests⟩ := List.forall_mem_cons.mp h
    refine L.bind htest fun log₁ passes h₁ _ => ?_
    refine L.bind (ih (fun a ha => hP h₁ (has a ha)) fun a ha => L.later h₁ (htests a ha)) ?_
    intro log₂ kept h₂ hk
    have hkept log₃ (h₃ : log₂ <:+ log₃) : ∀ a ∈ kept, P log₃ a := fun a ha => hP h₃ (hk a ha)
    cases passes with
    | true =>
      exact L.pure fun log₃ h₃ =>
        List.forall_mem_cons.mpr ⟨hP ((h₁.trans h₂).trans h₃) ha, hkept log₃ h₃⟩
    | false => exact L.pure hkept

/-! ## Parts of special forms -/

section
variable {eval : ι → Evaluator}

theorem evalAll (h : ∀ g ∈ forms, L.Holds log V (eval · g)) :
    L.Holds log (fun log vs => ∀ v ∈ vs, V log v) fun i =>
      Context.evalAll ⟨.reference, limit, eval i⟩ forms :=
  L.mapM (f := fun g i => eval i g) L.keepsValue h

theorem evalFunction (h : L.Holds log V (eval · form)) :
    L.Holds log V fun i => Context.evalFunction ⟨.reference, limit, eval i⟩ form := by
  refine L.bind h fun _ f _ hf => ?_
  cases f.isInvokable with
  | true => exact L.pureValue hf
  | false => exact L.raise

theorem realize (hv : V log v) (name : String) :
    L.Holds log (fun log vs => ∀ v ∈ vs, V log v) fun _ => .ofOutcome (v.realize name) := by
  refine L.ofOutcome (((L.closed log).values.realize hv).mono ?_ fun he => ⟨v, hv, he⟩)
  exact fun vs hvs log' h => L.keepsValues h hvs

theorem evalElements (h : L.Holds log V (eval · form)) :
    L.Holds log (fun log vs => ∀ v ∈ vs, V log v) fun i =>
      Context.evalElements ⟨.reference, limit, eval i⟩ name form :=
  L.bind h fun _ _ _ hv => L.realize hv name

theorem invoke (hargs : ∀ v ∈ args, V log v) :
    L.Holds log V fun i => Context.invoke ⟨.reference, limit, eval i⟩ f args := by
  simp only [Context.invoke]
  cases f.asFunction? with
  | some g => exact L.call hargs
  | none => exact L.raise

theorem fold (hv : V log v) (hvs : ∀ w ∈ vs, V log w) :
    L.Holds log V fun i => Context.fold ⟨.reference, limit, eval i⟩ f v vs := by
  refine L.foldlM (f := fun acc w i => Context.invoke ⟨.reference, limit, eval i⟩ f [acc, w])
    L.keepsValue hv fun log' acc h hacc w hw => ?_
  exact L.invoke (by simp [hacc, L.keepsValue h (hvs w hw)])

/-! ## Special forms

What is entered may be entered at any later stage, with values in it that have come up by then. -/

theorem evalMap (h : ∀ g ∈ forms, L.Holds log V (eval · g)) :
    L.Holds log V fun i => Context.evalMap ⟨.reference, limit, eval i⟩ forms := by
  match forms, h with
  | function :: collection :: collections, h =>
    simp only [Context.evalMap_cons_cons]
    refine L.bind (L.evalFunction (h function (by simp))) fun log₁ f h₁ _ => ?_
    have hcolumns : L.Holds log₁ (fun log columns => ∀ c ∈ columns, ∀ v ∈ c, V log v) fun i =>
        (collection :: collections).mapM
          (Context.evalElements ⟨.reference, limit, eval i⟩ "map") :=
      L.mapM (f := fun form i => Context.evalElements ⟨.reference, limit, eval i⟩ "map" form)
        L.keepsValues fun form hform =>
          L.evalElements (L.later h₁ (h form (List.mem_cons_of_mem _ hform)))
    refine L.bind hcolumns fun log₂ columns _ hc => ?_
    have hresults := L.mapM (P := V)
      (f := fun row i => Context.invoke ⟨.reference, limit, eval i⟩ f row) L.keepsValue
      fun row hrow => L.invoke (forall_mem_rows hc row hrow)
    refine L.bind hresults fun log₃ vs _ hvs => ?_
    exact L.pureValue ((L.closed log₃).values.list.mpr hvs)
  | [], _ | [_], _ => exact L.raise

theorem evalFilter (h : ∀ g ∈ forms, L.Holds log V (eval · g)) :
    L.Holds log V fun i => Context.evalFilter ⟨.reference, limit, eval i⟩ forms := by
  match forms, h with
  | [predicate, collection], h =>
    refine L.bind (L.evalFunction (h predicate (by simp))) fun log₁ p h₁ _ => ?_
    refine L.bind (L.evalElements (L.later h₁ (h collection (by simp)))) fun log₂ vs _ hvs => ?_
    have htest v (hv : V log₂ v) : L.Holds log₂ (fun _ _ => True) fun i =>
        Value.isTruthy <$> Context.invoke ⟨.reference, limit, eval i⟩ p [v] :=
      L.map (L.invoke (List.forall_mem_singleton.mpr hv)) fun _ _ _ _ _ => trivial
    have hkept := L.keepIf (P := V) L.keepsValue hvs fun v hv => htest v (hvs v hv)
    refine L.bind hkept fun log₃ kept _ hk => ?_
    exact L.pureValue ((L.closed log₃).values.list.mpr hk)
  | [], _ | [_], _ | _ :: _ :: _ :: _, _ => exact L.raise

theorem evalReduce (h : ∀ g ∈ forms, L.Holds log V (eval · g)) :
    L.Holds log V fun i => Context.evalReduce ⟨.reference, limit, eval i⟩ forms := by
  match forms, h with
  | [function, collection], h =>
    refine L.bind (L.evalFunction (h function (by simp))) fun log₁ f h₁ _ => ?_
    refine L.bind (L.evalElements (L.later h₁ (h collection (by simp)))) fun log₂ vs _ hvs => ?_
    cases vs with
    | nil => exact L.raise
    | cons v vs =>
      obtain ⟨hv, hvs⟩ := List.forall_mem_cons.mp hvs
      exact L.fold hv hvs
  | [function, seed, collection], h =>
    refine L.bind (L.evalFunction (h function (by simp))) fun log₁ f h₁ _ => ?_
    refine L.bind (L.evalElements (L.later h₁ (h collection (by simp)))) fun log₂ vs h₂ hvs => ?_
    refine L.bind (L.later (h₁.trans h₂) (h seed (by simp))) fun log₃ v h₃ hv => ?_
    exact L.fold hv (L.keepsValues h₃ hvs)
  | [], _ | [_], _ | _ :: _ :: _ :: _ :: _, _ => exact L.raise

theorem evalCase (h : ∀ g ∈ forms, L.Holds log V (eval · g)) :
    L.Holds log V fun i => Context.evalCase ⟨.reference, limit, eval i⟩ forms := by
  match forms, h with
  | subject :: clause :: clauses, h =>
    refine L.bind (h subject (by simp)) fun log₁ v h₁ _ => ?_
    cases hc : chosen? v (clause :: clauses) with
    | none => dsimp only; exact L.raise
    | some form => exact L.later h₁ (h form (List.mem_cons_of_mem _ (mem_of_chosen? hc)))
  | [], _ | [_], _ => exact L.raise

theorem evalTurn (hx : V log (.symbol x)) (hv : V log v)
    (h : ∀ g ∈ body, L.Holds log V (eval · g)) :
    L.Holds log (fun _ _ => True) fun i =>
      Context.evalTurn ⟨.reference, limit, eval i⟩ x body v := by
  refine L.bind (L.bindSymbol hx hv) fun log₁ _ h₁ _ => ?_
  exact L.forM (f := fun form i => discard (eval i form)) fun form hform =>
    L.map (L.later h₁ (h form hform)) fun _ _ _ _ _ => trivial

/-- What is left of a loop when its collection form has been evaluated. -/
theorem evalTurns (hx : V log (.symbol x)) (hv : V log v)
    (h : ∀ g ∈ body, L.Holds log V (eval · g)) :
    L.Holds log V fun i => do
      let vs ← .ofOutcome (v.realize "doseq")
      vs.forM (Context.evalTurn ⟨.reference, limit, eval i⟩ x body)
      return .nil := by
  refine L.bind (L.realize hv "doseq") fun log₁ vs h₁ hvs => ?_
  have hturns := L.forM (f := fun w i => Context.evalTurn ⟨.reference, limit, eval i⟩ x body w)
    fun w hw => L.evalTurn (L.keepsValue h₁ hx) (hvs w hw) fun g hg => L.later h₁ (h g hg)
  exact L.bind hturns fun log₂ _ _ _ =>
    L.pureValue ((L.closed log₂).values.scalar (v := .nil) rfl)

theorem evalDoseq (hforms : ∀ g ∈ forms, F log g)
    (h : ∀ log' g, log <:+ log' → SpecialForm.Enters .doseq forms g → F log' g →
      L.Holds log' V (eval · g)) :
    L.Holds log V fun i => Context.evalDoseq ⟨.reference, limit, eval i⟩ forms := by
  match forms, hforms, h with
  | binding :: body, hforms, h =>
    obtain ⟨hbinding, hbody⟩ := List.forall_mem_cons.mp hforms
    have hturn log' (h' : log <:+ log') g (hg : g ∈ body) : L.Holds log' V (eval · g) :=
      h log' g h' (.form (List.mem_cons_of_mem _ hg)) (L.keepsForm h' (hbody g hg))
    have hb := ((L.closed log).loopBinding (E := ∃ v, V log v ∧ v.Endless) hbinding).with_eq
    refine L.bind (P := fun log' b => loopBinding binding = .ok b ∧ V log' (.symbol b.1) ∧
      F log' b.2) (L.ofOutcome (hb.mono (fun b hb log' h' => ?_) id)) ?_
    · exact ⟨hb.1, L.keepsValue h' hb.2.1, L.keepsForm h' hb.2.2⟩
    · rintro log₁ ⟨x, form⟩ h₁ ⟨heq, hx, hform⟩
      simp only [Context.evalElements, bind_assoc]
      refine L.bind (h log₁ form h₁ (.collection heq) hform) fun log₂ v h₂ hv => ?_
      exact L.evalTurns (L.keepsValue h₂ hx) hv (hturn log₂ (h₁.trans h₂))
  | [], _, _ => exact L.raise

theorem evalAssign (hforms : ∀ g ∈ forms, F log g) (h : ∀ g ∈ forms, L.Holds log V (eval · g)) :
    L.Holds log V fun i => Context.evalAssign ⟨.reference, limit, eval i⟩ forms := by
  match forms, hforms, h with
  | target :: form :: _, hforms, h =>
    have htarget : F log target.payload := (L.closed log).payload (hforms target (by simp))
    dsimp only [Context.evalAssign]
    cases hp : target.payload with
    | symbol x =>
      rw [hp] at htarget
      have hx : V log (.symbol x) := (L.closed log).atom htarget rfl nofun
      refine L.bind (h form (by simp)) fun log₁ v h₁ hv => ?_
      refine L.bind (L.bindSymbol (L.keepsValue h₁ hx) hv) fun log₂ _ h₂ _ => ?_
      exact L.pureValue (L.keepsValue h₂ hv)
    | _ => exact L.raise
  | [], _, _ | [_], _, _ => exact L.raise

/-- What is left of a pipeline when its seed has been evaluated. -/
theorem evalThreadSteps {steps : List Value} (hsteps : ∀ g ∈ steps, F log g) (hv : V log v)
    (h : ∀ log', log <:+ log' → ∀ step ∈ steps, ∀ v g, splice? p step v = some g → F log' g →
      L.Holds log' V (eval · g)) :
    L.Holds log V fun i =>
      steps.foldlM (Context.evalThreadStep ⟨.reference, limit, eval i⟩ p) v := by
  refine L.foldlM (f := fun v step i =>
    Context.evalThreadStep ⟨.reference, limit, eval i⟩ p v step) L.keepsValue hv ?_
  intro log' v h' hv step hstep
  simp only [Context.evalThreadStep]
  cases hg : splice? p step v with
  | some g =>
    have hform : F log' g := (L.closed log').splice (L.keepsForm h' (hsteps step hstep)) hv hg
    exact h log' h' step hstep v g hg hform
  | none => exact L.invoke (List.forall_mem_singleton.mpr hv)

theorem evalThread {s : SpecialForm} (hforms : ∀ g ∈ forms, F log g)
    (h : ∀ log' g, log <:+ log' → s.Enters forms g → F log' g → L.Holds log' V (eval · g)) :
    L.Holds log V fun i => Context.evalThread ⟨.reference, limit, eval i⟩ name p forms := by
  match forms, hforms, h with
  | seed :: steps, hforms, h =>
    obtain ⟨hseed, hsteps⟩ := List.forall_mem_cons.mp hforms
    refine L.bind (h log seed List.suffix_rfl (.form List.mem_cons_self) hseed) ?_
    intro log₁ v h₁ hv
    refine L.evalThreadSteps (fun g hg => L.keepsForm h₁ (hsteps g hg)) hv ?_
    exact fun log₂ h₂ step hstep v g hg => h log₂ g (h₁.trans h₂) (.step hstep hg)
  | [], _, _ => exact L.raise

theorem evalQuote (hforms : ∀ g, forms = [g] → V log g) :
    L.Holds log V fun _ => Context.evalQuote forms := by
  match forms, hforms with
  | [form], hforms => exact L.pureValue (hforms form rfl)
  | [], _ | _ :: _ :: _, _ => exact L.raise

theorem applySpecial (hforms : ∀ g ∈ forms, F log g)
    (hquote : ∀ g, s = .quote → forms = [g] → V log g)
    (h : ∀ log' g, log <:+ log' → s.Enters forms g → F log' g → L.Holds log' V (eval · g)) :
    L.Holds log V fun i => Context.applySpecial ⟨.reference, limit, eval i⟩ s forms := by
  have hmem : ∀ g ∈ forms, L.Holds log V (eval · g) :=
    fun g hg => h log g List.suffix_rfl (.form hg) (hforms g hg)
  cases s with
  | case => exact L.evalCase hmem
  | map => exact L.evalMap hmem
  | filter => exact L.evalFilter hmem
  | reduce => exact L.evalReduce hmem
  | doseq => exact L.evalDoseq hforms h
  | assign => exact L.evalAssign hforms hmem
  | threadFirst | threadLast => exact L.evalThread hforms h
  | quote => exact L.evalQuote fun g => hquote g rfl
  | foreign => exact L.raise

/-- A special form obeys the law when the evaluations it can enter do. -/
theorem callSpecial (hforms : ∀ g ∈ forms, F log g)
    (h : ∀ log' g, log <:+ log' → s.Enters forms g → F log' g → L.Holds log' V (eval · g)) :
    L.Holds log V fun i => Context.callSpecial ⟨.reference, limit, eval i⟩ s forms := by
  refine L.bind (L.enter hforms) fun log₁ _ h₁ hquote => ?_
  exact L.applySpecial (fun g hg => L.keepsForm h₁ (hforms g hg)) hquote
    fun log₂ g h₂ => h log₂ g (h₁.trans h₂)

/-- A loop whose binding is marked obeys the law when the call does up to its collection form. -/
theorem callUnmarked (hforms : ∀ g ∈ forms, F log g)
    (hg : (Event.called (.special s) forms).unmarked? = some g)
    (hopen : L.Holds log V fun i => .record (.called (.special s) forms) >>= fun _ => eval i g)
    (h : ∀ g ∈ forms, L.Holds log V (eval · g)) :
    L.Holds log V fun i => Context.callSpecial ⟨.reference, limit, eval i⟩ s forms := by
  obtain ⟨binding, body, x, rfl, rfl, hb⟩ := Event.exists_of_unmarked? hg
  have hbinding : F log (.resolved binding) := hforms _ List.mem_cons_self
  have hx := (L.closed log).loopBinding (E := True) hbinding
  rw [hb] at hx
  have := L.bind hopen fun log₁ v h₁ hv => L.evalTurns (L.keepsValue h₁ hx.1) hv fun g hg =>
    L.later h₁ (h g (List.mem_cons_of_mem _ hg))
  simpa only [Context.callSpecial, Context.applySpecial, Context.evalDoseq, hb, Action.ofOutcome,
    pure_bind, Context.evalElements, bind_assoc] using this

/-! ## Forms -/

/-- The evaluation of a form obeys the law when that of its items and of its expansion does, and the
special forms its head can be. -/
theorem evalForm (hform : F log form)
    (hitems : ∀ forms, form.items? = some forms → ∀ g ∈ forms, L.Holds log V (eval · g))
    (hexpand : ∀ g, Host.expandInc? form = some g → F log g → L.Holds log V (eval · g))
    (hspecial : ∀ head forms s, form = .list (head :: forms) →
      L.Holds log V fun i => Context.callSpecial ⟨.reference, limit, eval i⟩ s forms) :
    L.Holds log V fun i => Context.evalForm ⟨.reference, limit, eval i⟩ form := by
  have hF := L.closed log
  cases form with
  | resolved v => exact L.pureValue (hF.unmark hform)
  | symbol x => exact L.resolve (hF.atom hform rfl nofun)
  | vector forms =>
    refine L.map (L.evalAll (hitems forms rfl)) fun _ vs hvs log' h => ?_
    exact (L.closed log').values.vector.mpr (L.keepsValues h hvs)
  | list forms =>
    cases forms with
    | nil => exact L.pureValue (hF.values.list.mpr nofun)
    | cons head rest =>
      replace hitems := hitems (head :: rest) rfl
      unfold Context.evalForm Context.evalCall
      cases hg : Host.expandInc? (.list (head :: rest)) with
      | some g => simpa [Host.reference, hg] using hexpand g hg (hF.expansion hform hg)
      | none =>
        simp only [Host.reference, hg]
        have hcall (f : Value) : L.Holds log V fun i =>
            Context.evalAll ⟨.reference, limit, eval i⟩ rest >>=
              Context.invoke ⟨.reference, limit, eval i⟩ f :=
          L.bind (L.evalAll fun g hg => hitems g (List.mem_cons_of_mem _ hg))
            fun _ _ _ hvs => L.invoke hvs
        refine L.bind (hitems head List.mem_cons_self) fun log₁ f h₁ _ => ?_
        cases f with
        | native n =>
          cases n with
          | fn g => exact L.later h₁ (hcall _)
          | special s => exact L.later h₁ (hspecial head rest s rfl)
        | _ => exact L.later h₁ (hcall _)
  | nil | bool | int | big | float | string | keyword | seq | native | type =>
    exact L.pureValue (hF.atom hform rfl nofun)

/-- A law that puts no condition on evaluated forms holds of an evaluation when it holds of those
inside it. -/
theorem evalStep (hevaluated : L.Holds log (fun _ _ => True) fun _ => .record (.evaluated form))
    (h : ∀ log' g, log <:+ log' → F log' g → L.Holds log' V (eval · g)) (hform : F log form) :
    L.Holds log V fun i => .record (.evaluated form) >>= fun _ =>
      Context.evalForm ⟨.reference, limit, eval i⟩ form := by
  refine L.bind hevaluated fun log₁ _ h₁ _ => ?_
  have hform₁ : F log₁ form := L.keepsForm h₁ hform
  refine L.evalForm hform₁ ?_ (fun g _ => h log₁ g h₁) ?_
  · intro forms hforms g hg
    exact h log₁ g h₁ ((L.closed log₁).items hform₁ hforms g hg)
  · rintro head forms s rfl
    have hforms := (List.forall_mem_cons.mp ((L.closed log₁).list.mp hform₁)).2
    exact L.callSpecial hforms fun log₂ g h₂ _ => h log₂ g (h₁.trans h₂)

/-- It holds of evaluation within every budget then. -/
theorem evalWith (hunfinished : ∀ log, L.Holds log V fun _ => throw .unfinished)
    (hevaluated : ∀ log form, F log form →
      L.Holds log (fun _ _ => True) fun _ => .record (.evaluated form))
    (n : Nat) (hform : F log form) : L.Holds log V fun _ => evalWith .reference limit n form := by
  induction n generalizing log form with
  | zero => exact hunfinished log
  | succ n ih => exact L.evalStep (hevaluated log form hform) (fun _ _ _ hg => ih hg) hform

end

end StagedLaw

end Lisplet
