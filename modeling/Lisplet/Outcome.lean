import Lisplet.Error

/-!
Outcomes of computations that can fail, or that can be asked for more than they can give: all
elements of an endless sequence, or more steps than their budget has.
-/

namespace Lisplet

/-- Why a computation has no result. -/
inductive Stop where
  | raised (e : Error)
  /-- It would have to go on beyond its budget, or for ever. -/
  | unfinished
  deriving DecidableEq

abbrev Outcome := Except Stop

def Outcome.fail (e : Error) : Outcome α := .error (.raised e)

end Lisplet
