import Lisplet.Narrow
import Lisplet.Outcome

/-!
Ranges of integers.
-/

namespace Lisplet

/-- Whether `i` lies before `stop` in the direction of `step`. -/
def IsBefore (i stop step : Int64) : Prop :=
  (0 < step.toInt ∧ i.toInt < stop.toInt) ∨ (step.toInt < 0 ∧ stop.toInt < i.toInt)

instance (i stop step : Int64) : Decidable (IsBefore i stop step) :=
  inferInstanceAs (Decidable (_ ∨ _))

/-- The integers `i`, `i + step`, ... before `stop`. They also end where the next one would not fit
64 bits. -/
def steps (i stop step : Int64) : List Int64 :=
  if IsBefore i stop step then
    i :: match _h : addInRange? i step with
      | some j => steps j stop step
      | none => []
  else []
termination_by (if 0 < step.toInt then stop.toInt - i.toInt else i.toInt - stop.toInt).toNat
decreasing_by
  have := toInt_of_narrow? _h
  rename_i hi
  unfold IsBefore at hi
  split <;> omega

/-- The integers from `start` toward `stop`, which is left out. -/
def integerRange (start stop step : Int64) : Outcome (List Int64) :=
  if step = 0 then .fail .zeroStep else .ok (steps start stop step)

end Lisplet
