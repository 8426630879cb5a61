import Lisplet.Eval
import Lisplet.Proofs.Answer

/-!
Values without a mark, forms that stand for such values, and functions that make no others of them.
Main statement: every function of the language is of that kind (`Function.keepsUnmarked_reference`).
-/

namespace Lisplet

/-! ## Marked values and constants -/

namespace Value

def isMarked : Value → Bool
  | resolved _ => true
  | _ => false

/-- The value without its outermost mark. -/
def unmark : Value → Value
  | resolved v => v
  | v => v

/-- Whether a form stands for an unmarked value whatever the scope: an atom or the empty list for
itself, and a mark around an unmarked value for that value. -/
def isConstant : Value → Bool
  | symbol _ | vector _ | list (_ :: _) => false
  | resolved v => !v.isMarked
  | _ => true

theorem mark_of_not_isMarked {v : Value} (h : v.isMarked = false) : v.mark = resolved v := by
  cases v <;> first | rfl | cases h

theorem isMarked_payload (v : Value) : v.payload.isMarked = false := by
  cases h : v.payload with
  | resolved w => exact absurd h (payload_ne_resolved w v)
  | _ => rfl

theorem isMarked_of_isScalar {v : Value} (h : v.isScalar) : v.isMarked = false := by
  cases v <;> first | rfl | cases h

theorem isMarked_unmark {v : Value} (h : v.isConstant) : v.unmark.isMarked = false := by
  cases v with
  | resolved v => simpa [isConstant, unmark] using h
  | _ => rfl

theorem isConstant_resolved {v : Value} (h : v.isMarked = false) : (resolved v).isConstant := by
  simp [isConstant, h]

end Value

/-! ## Functions on unmarked values -/

namespace Function

/-- Called with unmarked values, the function returns unmarked ones. -/
def KeepsUnmarked (host : Host) (limit : Option Nat) (f : Function) : Prop :=
  ∀ n args s, (∀ v ∈ args, v.isMarked = false) →
    (((host.context limit n).apply f args).run s).1.Sat (·.isMarked = false) True

theorem applyToType_unmarked : (args : List Value) →
    (applyToType args).Sat (·.isMarked = false) True
  | [v, t] => by
    refine Value.requireType_sat.bind fun target _ => ?_
    simp only [Value.toType]
    split
    · exact v.isMarked_payload
    · split
      · exact (Outcome.sat_true _).map fun _ _ => rfl
      · exact (Outcome.sat_true _).map fun _ _ => rfl
      · split
        · exact Value.isMarked_of_isScalar (Value.isScalar_of_convertNumber? ‹_›)
        · trivial
  | [] | [_] | _ :: _ :: _ :: _ => trivial

theorem applyMacroexpand_unmarked : (args : List Value) →
    (applyMacroexpand Host.expandInc? args).Sat (·.isMarked = false) True
  | [form] => by
    rw [applyMacroexpand, expandOnce]
    cases h : Host.expandInc? form.payload with
    | some g =>
      obtain ⟨head, target, -, -, rfl⟩ := Host.expandInc?_eq_some.mp h
      rfl
    | none => exact form.isMarked_payload
  | [] | _ :: _ :: _ => trivial

theorem applyIdentity_unmarked (hargs : ∀ v ∈ args, v.isMarked = false) :
    (applyIdentity args).Sat (·.isMarked = false) True := by
  match args, hargs with
  | [v], hargs => exact hargs v List.mem_cons_self
  | [], _ | _ :: _ :: _, _ => trivial

theorem applyCountdown_unmarked (args : List Value) (s : State) :
    ((applyCountdown args).run s).1.Sat (·.isMarked = false) True := by
  rw [applyCountdown, Action.run_bind, Action.run_ofOutcome]
  rcases oneInteger "countdown" args with (e | -) | n
  · trivial
  · trivial
  · change (Value.countdown s.nextIdentity n).isMarked = false
    rcases Value.countdown_cases s.nextIdentity n with h | ⟨t, vs, h, -, -⟩
    · exact congrArg Value.isMarked h
    · exact congrArg Value.isMarked h

/-- A function of the language answers with an argument, with the payload of one, or with a new
value. Only the first can have a mark. -/
theorem keepsUnmarked_reference (limit : Option Nat) (f : Function) :
    f.KeepsUnmarked .reference limit := by
  intro n args s hargs
  have settled (o : Outcome Value)
      (h : (Host.reference.context limit n).apply f args = .ofOutcome o)
      (ho : o.Sat (·.isMarked = false) True) :
      (((Host.reference.context limit n).apply f args).run s).1.Sat (·.isMarked = false) True := by
    rw [h, Action.run_ofOutcome]
    exact ho
  have scalar (o : Outcome Value)
      (h : (Host.reference.context limit n).apply f args = .ofOutcome o)
      (ho : o.Sat (fun v => v.isScalar) True) :=
    settled o h (ho.mono (fun _ => Value.isMarked_of_isScalar) id)
  cases f with
  | type => exact scalar (applyType args) rfl (applyType_sat args)
  | implements => exact scalar (applyImplements args) rfl (applyImplements_sat args)
  | toType => exact settled (applyToType args) rfl (applyToType_unmarked args)
  | str => exact scalar (applyStr limit args) rfl rfl
  | range =>
    refine settled (applyRange args) rfl ((rangeBounds_sat args).bind fun bounds _ => ?_)
    exact (Outcome.sat_true _).bind fun _ _ => rfl
  | macroexpand =>
    exact settled (applyMacroexpand Host.expandInc? args) rfl (applyMacroexpand_unmarked args)
  | throw | hosted | foreign => trivial
  | add => exact scalar (applyAdd args) rfl (integers_sat.bind fun _ _ => rfl)
  | mul => exact scalar (applyMul args) rfl (integers_sat.bind fun _ _ => rfl)
  | sub => exact scalar (applySub args) rfl applySub_sat
  | inc => exact scalar (applyInc args) rfl (oneInteger_sat.bind fun _ _ => rfl)
  | isEven => exact scalar (applyIsEven args) rfl (oneInteger_sat.bind fun _ _ => rfl)
  | identity => exact settled (applyIdentity args) rfl (applyIdentity_unmarked hargs)
  | alwaysTrue | alwaysFalse | list => rfl
  | countdown => exact applyCountdown_unmarked args s
  | recorder _ failOn => exact scalar (applyRecorder failOn args) rfl applyRecorder_sat

end Function

end Lisplet
