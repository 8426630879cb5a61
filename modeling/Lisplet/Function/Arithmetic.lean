import Lisplet.Outcome
import Lisplet.Value.Basic

/-!
Functions on integers. They ask for values that are integers as they stand, and look at the kinds of
all arguments before they count them.
-/

namespace Lisplet.Function

/-- The integers that the arguments of a function are. -/
def integers (name : String) : List Value → Outcome (List Int64)
  | [] => .ok []
  | .int n :: vs => (n :: ·) <$> integers name vs
  | v :: _ => .fail (.typeIn name "int" v.typeName)

/-- The one integer that a function is called with. -/
def oneInteger (name : String) (args : List Value) : Outcome Int64 := do
  match ← integers name args with
  | [n] => return n
  | _ => .fail (.arityExactly name 1 args.length)

def applyAdd (args : List Value) : Outcome Value := do
  return .int ((← integers "+" args).foldl (· + ·) 0)

def applyMul (args : List Value) : Outcome Value := do
  return .int ((← integers "*" args).foldl (· * ·) 1)

/-- The negative of one integer, or the first one less all others. -/
def applySub (args : List Value) : Outcome Value := do
  match ← integers "-" args with
  | [] => .fail (.arityAtLeast "-" 1 0)
  | [n] => return .int (-n)
  | n :: ns => return .int (n - ns.foldl (· + ·) 0)

def applyInc (args : List Value) : Outcome Value := do
  return .int ((← oneInteger "inc" args) + 1)

def applyIsEven (args : List Value) : Outcome Value := do
  return .bool ((← oneInteger "even?" args) % 2 == 0)

end Lisplet.Function
