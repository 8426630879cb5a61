import Lisplet.Value.Text

/-!
Strings built from values.
-/

namespace Lisplet.Value

/-- A text without one pair of double quotes around it, if it has one. -/
def unquoted (s : String) : String :=
  match s.toList with
  | '"' :: cs => if cs.getLast? = some '"' then String.ofList cs.dropLast else s
  | _ => s

/-- What a value adds to a string: a string its contents, any other value its text. -/
def piece (limit : Option Nat) (v : Value) : String :=
  match v.payload with
  | string s => s
  | w => unquoted (render limit w)

/-- The pieces of the values in order. A nil on its own adds nothing. -/
def concat (limit : Option Nat) : List Value → String
  | [] => ""
  | [v] => if v.isNil then "" else piece limit v
  | vs => String.join (vs.map (piece limit))

/-- The string that `concat` builds, as a value. -/
def makeString (limit : Option Nat) (vs : List Value) : Value := string (concat limit vs)

end Lisplet.Value
