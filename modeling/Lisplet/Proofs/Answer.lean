import Lisplet.Function.Call
import Lisplet.Host

/-!
What a call of a function can do. Its answer depends on the arguments and the next free identity
alone, the scope stays as it is, and a property that passes from a value to its parts and back to
collections of them passes from the arguments to the answer. Main statement:
`Function.exists_answers`.
-/

namespace Lisplet

/-! ## Outcomes -/

namespace Outcome

/-- The value, if there is one, satisfies `P`, and only under `E` is there no end. -/
def Sat (P : α → Prop) (E : Prop) : Outcome α → Prop
  | .ok a => P a
  | .error (.raised _) => True
  | .error .unfinished => E

def error? : Outcome α → Option Error
  | .error (.raised e) => some e
  | _ => none

/-- What a new error leaves in the record. -/
def log (o : Outcome α) : List Event := o.error?.toList.map .raised

@[simp] theorem log_ok (a : α) : log (.ok a) = [] := rfl

theorem sat_true (o : Outcome α) : o.Sat (fun _ => True) True := by
  rcases o with (e | -) | a <;> trivial

theorem Sat.bind {x : Outcome α} {f : α → Outcome β} (hx : x.Sat P E)
    (hf : ∀ a, P a → (f a).Sat Q E) : (x >>= f).Sat Q E := by
  cases x with
  | ok a => exact hf a hx
  | error e => cases e <;> exact hx

theorem Sat.map {x : Outcome α} {f : α → β} (hx : x.Sat P E) (hf : ∀ a, P a → Q (f a)) :
    (f <$> x).Sat Q E := by
  cases x with
  | ok a => exact hf a hx
  | error e => cases e <;> exact hx

theorem Sat.mono {x : Outcome α} (hx : x.Sat P E) (hP : ∀ a, P a → Q a) (hE : E → E') :
    x.Sat Q E' := by
  cases x with
  | ok a => exact hP a hx
  | error e =>
    cases e with
    | raised => trivial
    | unfinished => exact hE hx

theorem Sat.with_eq {x : Outcome α} (hx : x.Sat P E) : x.Sat (fun a => x = .ok a ∧ P a) E := by
  cases x with
  | ok a => exact ⟨rfl, hx⟩
  | error e => cases e <;> exact hx

end Outcome

@[simp] theorem Action.run_ofOutcome (o : Outcome α) (s : State) :
    (Action.ofOutcome o).run s = (o, { s with events := o.log ++ s.events }) := by
  rcases o with (e | -) | a <;> rfl

/-! ## Properties that pass between a value and its parts -/

namespace Value

/-- No walk through the elements comes to an end. -/
def Endless (v : Value) : Prop := ∃ s, v.asSeq? = some s ∧ s.realize? = none

/-- Values in which there is no other value and no name. -/
def isScalar : Value → Bool
  | nil | bool _ | int _ | big _ | float _ | string _ | type _ => true
  | _ => false

end Value

/-- The expansion of a macro call mentions the two names of the macro and what the call does. -/
theorem Host.expansion_of_items {V : Value → Prop} (hlist : ∀ gs, V (.list gs) ↔ ∀ g ∈ gs, V g)
    (hassign : V (.symbol ⟨"set!"⟩)) (hinc : V (.symbol ⟨"inc"⟩)) (hf : V f)
    (h : expandInc? f = some g) : V g := by
  obtain ⟨head, target, rfl, -, rfl⟩ := expandInc?_eq_some.mp h
  have ht : V target := (hlist _).mp hf target (by simp)
  simp [hlist, ht, hassign, hinc]

/-- A property of values that passes from a marked value to its payload, and between a collection
and its elements. It holds of whatever functions make out of nothing: scalars, countdowns, and the
names that a macro expands to. -/
structure Inherited (V : Value → Prop) : Prop where
  scalar : v.isScalar → V v
  unmark : V (.resolved v) → V v
  list : V (.list vs) ↔ ∀ v ∈ vs, V v
  vector : V (.vector vs) ↔ ∀ v ∈ vs, V v
  elements : V (.seq i s) → s.realize? = some vs → ∀ v ∈ vs, V v
  countdown : V (.countdown i n)
  assignName : V (.symbol ⟨"set!"⟩)
  incName : V (.symbol ⟨"inc"⟩)

/-- Such a property that passes to marks as well, so that a marked value shares it with its
payload. -/
structure Hereditary (V : Value → Prop) : Prop extends Inherited V where
  mark : V v → V (.resolved v)

theorem Hereditary.resolved {V : Value → Prop} (hV : Hereditary V) : V (.resolved v) ↔ V v :=
  ⟨hV.unmark, hV.mark⟩

theorem Hereditary.trivial : Hereditary fun _ => True := by
  refine ⟨?_, id⟩
  constructor <;> simp

namespace Inherited
open Value

variable {V : Value → Prop} (hV : Inherited V)
include hV

theorem payload : {v : Value} → V v → V v.payload
  | .resolved w, h => payload (v := w) (hV.unmark h)
  | .nil, h | .bool _, h | .int _, h | .big _, h | .float _, h | .string _, h | .symbol _, h
  | .keyword _, h | .list _, h | .vector _, h | .seq _ _, h | .native _, h | .type _, h => h

theorem asSeq {v : Value} (hv : V v) (hs : v.asSeq? = some s) (hr : s.realize? = some vs) :
    ∀ w ∈ vs, V w := by
  replace hv := hV.payload hv
  rcases asSeq?_eq_some.mp hs with ⟨i, hp⟩ | ⟨xs, rfl, hp⟩
  · rw [hp] at hv
    exact hV.elements hv hr
  · rw [Sequence.realize?_items] at hr
    obtain rfl := Option.some.inj hr
    rcases hp with ⟨-, rfl⟩ | hp | hp
    · exact nofun
    · rw [hp] at hv
      exact hV.list.mp hv
    · rw [hp] at hv
      exact hV.vector.mp hv

theorem realize {v : Value} (hv : V v) : (v.realize name).Sat (∀ w ∈ ·, V w) v.Endless := by
  unfold Value.realize
  cases hs : v.asSeq? with
  | none => trivial
  | some s =>
    dsimp only
    cases hr : s.realize? with
    | none => exact ⟨s, hs, hr⟩
    | some xs => exact hV.asSeq hv hs hr

theorem expansion {f : Value} (hf : V f) (h : Host.expandInc? f = some g) : V g :=
  Host.expansion_of_items (fun _ => hV.list) hV.assignName hV.incName hf h

end Inherited

/-! ## Checks of arguments -/

theorem Function.integers_sat {context : String} {vs : List Value} :
    (integers context vs).Sat (fun _ => True) E := by
  induction vs with
  | nil => trivial
  | cons v vs ih => cases v <;> first | exact ih.map fun _ _ => trivial | trivial

theorem Function.oneInteger_sat {context : String} {args : List Value} :
    (oneInteger context args).Sat (fun _ => True) E := by
  refine integers_sat.bind fun ns _ => ?_
  split <;> trivial

theorem Value.requireType_sat {v : Value} : (v.requireType context).Sat (fun _ => True) E := by
  unfold requireType
  split <;> trivial

theorem Value.requireInt_sat {v : Value} : (v.requireInt context).Sat (fun _ => True) E := by
  unfold requireInt
  split
  · trivial
  · split <;> trivial
  · trivial

theorem Function.rangeBounds_sat : (args : List Value) →
    (rangeBounds args).Sat (fun _ => True) E
  | [_] => Value.requireInt_sat.bind fun _ _ => trivial
  | [_, _] => Value.requireInt_sat.bind fun _ _ => Value.requireInt_sat.bind fun _ _ => trivial
  | [_, _, _] => Value.requireInt_sat.bind fun _ _ => Value.requireInt_sat.bind fun _ _ =>
    Value.requireInt_sat.bind fun _ _ => trivial
  | [] | _ :: _ :: _ :: _ :: _ => trivial

/-! ## Conversions -/

theorem Value.isScalar_of_convertNumber? {v w : Value} (h : v.convertNumber? t = some w) :
    w.isScalar := by
  unfold convertNumber? at h
  split at h <;> simp only [Option.map_eq_some_iff, Option.some.injEq, reduceCtorEq] at h
  · exact h ▸ rfl
  · exact h ▸ rfl
  · obtain ⟨_, _, rfl⟩ := h; rfl
  · exact h ▸ rfl
  · obtain ⟨_, _, rfl⟩ := h; rfl
  · obtain ⟨_, _, rfl⟩ := h; rfl

theorem Inherited.toType {v : Value} (hV : Inherited V) (hv : V v) :
    (v.toType t).Sat V v.Endless := by
  have hp : V v.payload := hV.payload hv
  have hr : (v.payload.realize "to-type").Sat (∀ w ∈ ·, V w) v.payload.Endless := hV.realize hp
  have he : v.payload.Endless → v.Endless := by simp [Value.Endless, Value.asSeq?]
  simp only [Value.toType]
  split
  · exact hp
  · split
    · exact (hr.map fun _ => hV.list.mpr).mono (fun _ => id) he
    · exact (hr.map fun _ => hV.vector.mpr).mono (fun _ => id) he
    · split
      · exact hV.scalar (Value.isScalar_of_convertNumber? ‹_›)
      · trivial

/-! ## Answers of functions -/

/-- An outcome into which nothing goes but the arguments of a call, and which has no end only if one
of them has none. -/
def MadeFrom (args : List Value) (o : Outcome Value) : Prop :=
  ∀ V, Inherited V → (∀ v ∈ args, V v) → o.Sat V (∃ v ∈ args, v.Endless)

theorem MadeFrom.of_scalar (h : ∀ {E}, o.Sat (fun v : Value => v.isScalar) E) : MadeFrom args o :=
  fun _ hV _ => h.mono (fun _ => hV.scalar) id

theorem MadeFrom.of_fail : MadeFrom args (Outcome.fail e) := fun _ _ _ => trivial

theorem MadeFrom.of_mem (h : v ∈ args) : MadeFrom args (.ok v) := fun _ _ hargs => hargs v h

namespace Function
variable {args : List Value}

theorem applyType_sat : (args : List Value) → (applyType args).Sat (fun v => v.isScalar) E
  | [_] => rfl
  | [] | _ :: _ :: _ => trivial

theorem applyImplements_sat : (args : List Value) →
    (applyImplements args).Sat (fun v => v.isScalar) E
  | [v, t] => by
    refine Value.requireType_sat.bind fun target _ => ?_
    rw [Value.implements]
    cases target.deref.asInterface? with
    | some i => rfl
    | none => trivial
  | [] | [_] | _ :: _ :: _ :: _ => trivial

theorem applyToType_madeFrom : (args : List Value) → MadeFrom args (applyToType args)
  | [v, t] => fun V hV hargs => by
    refine Value.requireType_sat.bind fun target _ => ?_
    exact (hV.toType (hargs v (by simp))).mono (fun _ => id) fun h => ⟨v, by simp, h⟩
  | [] | [_] | _ :: _ :: _ :: _ => .of_fail

theorem applyRange_madeFrom : MadeFrom args (applyRange args) := by
  intro V hV _
  refine (rangeBounds_sat args).bind fun bounds _ => ?_
  have hr : (integerRange bounds.1 bounds.2.1 bounds.2.2).Sat (fun _ => True)
      (∃ v ∈ args, v.Endless) := by
    rw [integerRange]
    split
    · trivial
    · trivial
  refine hr.bind fun ns _ => hV.list.mpr fun v hv => ?_
  obtain ⟨n, _, rfl⟩ := List.mem_map.mp hv
  exact hV.scalar rfl

theorem applyMacroexpand_madeFrom : (args : List Value) →
    MadeFrom args (applyMacroexpand Host.expandInc? args)
  | [form] => fun V hV hargs => by
    have hp : V form.payload := hV.payload (hargs form (by simp))
    rw [applyMacroexpand, expandOnce]
    cases he : Host.expandInc? form.payload with
    | some g => exact hV.expansion hp he
    | none => exact hp
  | [] | _ :: _ :: _ => .of_fail

theorem applySub_sat : (applySub args).Sat (fun v => v.isScalar) E := by
  refine integers_sat.bind fun ns _ => ?_
  split <;> trivial

theorem applyIdentity_madeFrom : (args : List Value) → MadeFrom args (applyIdentity args)
  | [_] => .of_mem List.mem_cons_self
  | [] | _ :: _ :: _ => .of_fail

theorem applyRecorder_sat : (applyRecorder failOn args).Sat (fun v => v.isScalar) E := by
  unfold applyRecorder
  split
  · split
    · trivial
    · rfl
  · rfl

/-- Called with `args` when `k` is the next free identity, `f` has the outcome `o` and takes the
identities below `m`. Nothing else changes but the record. -/
def Answers (limit : Option Nat) (f : Function) (args : List Value) (k : Nat) (o : Outcome Value)
    (m : Nat) : Prop :=
  ∀ eval s, s.nextIdentity = k → (Context.apply ⟨.reference, limit, eval⟩ f args).run s =
    (o, ⟨s.scope, m, o.log ++ s.events⟩)

theorem answers_of_eq {f : Function}
    (h : ∀ eval, Context.apply ⟨.reference, limit, eval⟩ f args = .ofOutcome o) :
    Answers limit f args k o k := by
  intro eval s hk
  rw [h, Action.run_ofOutcome, ← hk]

theorem countdown_answers (limit : Option Nat) (k : Nat) :
    ∃ o m, k ≤ m ∧ MadeFrom args o ∧ Answers limit .countdown args k o m := by
  have happly eval : Context.apply ⟨.reference, limit, eval⟩ .countdown args =
    applyCountdown args := rfl
  cases ho : oneInteger "countdown" args with
  | ok n =>
    refine ⟨.ok (.countdown k n), k + 1, by omega, fun V hV _ => hV.countdown, ?_⟩
    intro eval s hk
    simp [happly, applyCountdown, Action.run_bind, Action.run_map, Except.map, ho, ← hk]
  | error e =>
    refine ⟨.error e, k, Nat.le_refl k, fun V hV _ => ?_, ?_⟩
    · have hsat : (oneInteger "countdown" args).Sat (fun _ => True) False := oneInteger_sat
      rw [ho] at hsat
      cases e with
      | raised => trivial
      | unfinished => exact hsat.elim
    · intro eval s hk
      simp only [happly, applyCountdown, Action.run_bind, ho, Action.run_ofOutcome, ← hk]
      cases e <;> rfl

/-- Every call is answered: the outcome depends on the arguments and the next free identity, and
neither on the scope nor on how forms are evaluated. -/
theorem exists_answers (limit : Option Nat) (f : Function) (args : List Value) (k : Nat) :
    ∃ o m, k ≤ m ∧ MadeFrom args o ∧ Answers limit f args k o m := by
  have settled (o : Outcome Value)
      (h : ∀ eval, Context.apply ⟨.reference, limit, eval⟩ f args = .ofOutcome o)
      (ho : MadeFrom args o) : ∃ o m, k ≤ m ∧ MadeFrom args o ∧ Answers limit f args k o m :=
    ⟨o, k, Nat.le_refl k, ho, answers_of_eq h⟩
  cases f with
  | type => exact settled (applyType args) (fun _ => rfl) (.of_scalar (applyType_sat args))
  | implements =>
    exact settled (applyImplements args) (fun _ => rfl) (.of_scalar (applyImplements_sat args))
  | toType => exact settled (applyToType args) (fun _ => rfl) (applyToType_madeFrom args)
  | str => exact settled (applyStr limit args) (fun _ => rfl) (.of_scalar rfl)
  | range => exact settled (applyRange args) (fun _ => rfl) applyRange_madeFrom
  | macroexpand =>
    exact settled (applyMacroexpand Host.expandInc? args) (fun _ => rfl)
      (applyMacroexpand_madeFrom args)
  | throw => exact settled (.fail (thrownBy limit args)) (fun _ => rfl) .of_fail
  | add =>
    exact settled (applyAdd args) (fun _ => rfl) (.of_scalar (integers_sat.bind fun _ _ => rfl))
  | mul =>
    exact settled (applyMul args) (fun _ => rfl) (.of_scalar (integers_sat.bind fun _ _ => rfl))
  | sub => exact settled (applySub args) (fun _ => rfl) (.of_scalar applySub_sat)
  | inc =>
    exact settled (applyInc args) (fun _ => rfl) (.of_scalar (oneInteger_sat.bind fun _ _ => rfl))
  | isEven =>
    exact settled (applyIsEven args) (fun _ => rfl)
      (.of_scalar (oneInteger_sat.bind fun _ _ => rfl))
  | identity => exact settled (applyIdentity args) (fun _ => rfl) (applyIdentity_madeFrom args)
  | alwaysTrue => exact settled (.ok (.bool true)) (fun _ => rfl) (.of_scalar rfl)
  | alwaysFalse => exact settled (.ok (.bool false)) (fun _ => rfl) (.of_scalar rfl)
  | list => exact settled (.ok (.list args)) (fun _ => rfl) fun _ hV => hV.list.mpr
  | countdown => exact countdown_answers limit k
  | recorder _ failOn =>
    exact settled (applyRecorder failOn args) (fun _ => rfl) (.of_scalar applyRecorder_sat)
  | hosted name | foreign name => exact settled (.fail (.noCode name)) (fun _ => rfl) .of_fail

end Function

/-- A call is put on record before anything else happens. -/
theorem Function.Answers.callFunction_run {f : Function} (h : f.Answers limit args k o m)
    (hk : s.nextIdentity = k) :
    (Context.callFunction ⟨.reference, limit, eval⟩ f args).run s =
      (o, ⟨s.scope, m, o.log ++ .called (.fn f) args :: s.events⟩) := by
  rw [Context.callFunction, Action.run_bind, Action.run_record]
  exact h eval _ hk

end Lisplet
