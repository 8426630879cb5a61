import Lisplet.Binary64.Wide
import Lisplet.Value.Basic

/-!
Equality of values. It looks through marks at every depth, compares the three kinds of numbers with
each other, lists and vectors by their elements, and host sequences by identity.
-/

namespace Lisplet.Value

mutual

/-- Whether two values are equal. An integer equals the float that it converts to, which has to be
finite; floats among themselves are compared as bits. -/
def beq : Value → Value → Bool
  | nil, w => match w.payload with
    | nil => true
    | _ => false
  | bool a, w => match w.payload with
    | bool b => a == b
    | _ => false
  | int a, w => match w.payload with
    | int b => a == b
    | big b => a.toInt == b
    | float y => Binary64.ofInt a.toInt == y
    | _ => false
  | big a, w => match w.payload with
    | int b => a == b.toInt
    | big b => a == b
    | float y => y.isFinite && Binary64.ofBig a == y
    | _ => false
  | float x, w => match w.payload with
    | int b => x == Binary64.ofInt b.toInt
    | big b => x.isFinite && x == Binary64.ofBig b
    | float y => x == y
    | _ => false
  | string a, w => match w.payload with
    | string b => a == b
    | _ => false
  | symbol a, w => match w.payload with
    | symbol b => a == b
    | _ => false
  | keyword a, w => match w.payload with
    | keyword b => a == b
    | _ => false
  | list as, w => match w.payload with
    | list bs => beqAll as bs
    | _ => false
  | vector as, w => match w.payload with
    | vector bs => beqAll as bs
    | _ => false
  | seq i _, w => match w.payload with
    | seq j _ => i == j
    | _ => false
  | native a, w => match w.payload with
    | native b => a == b
    | _ => false
  | type a, w => match w.payload with
    | type b => a == b
    | _ => false
  | resolved v, w => v.beq w
termination_by structural v => v

/-- Whether two lists have equal elements at equal positions. -/
def beqAll : List Value → List Value → Bool
  | [], [] => true
  | a :: as, b :: bs => a.beq b && beqAll as bs
  | _, _ => false
termination_by structural vs => vs

end

instance : BEq Value := ⟨beq⟩

end Lisplet.Value
