import Lisplet.Binary64.Basic

/-!
The shortest decimal that reads back as a given double. A decimal reads back exactly when it lies in
the interval of reals that round to the number, so the digits are found on the coarsest power of ten
that has a multiple in that interval. The text is positional and never has an exponent.
-/

namespace Lisplet

/-- The number `digits * 10 ^ exponent`. -/
structure Decimal where
  digits : Nat
  exponent : Int
  deriving DecidableEq

namespace Decimal

/-- `n` in decimal, with zeros in front up to `width` digits. -/
def padded (width n : Nat) : String :=
  String.ofList (List.replicate (width - n.repr.length) '0') ++ n.repr

/-- All digits written out around a point, with at least one digit on either side of it. -/
def positional (d : Decimal) : String :=
  if 0 ≤ d.exponent then
    (d.digits * pow10 d.exponent.toNat).repr ++ ".0"
  else
    let places := (-d.exponent).toNat
    (d.digits / pow10 places).repr ++ "." ++ padded places (d.digits % pow10 places)

end Decimal

namespace Binary64

/-! ## The rounding interval

Its ends lie halfway to the neighbouring doubles. They are counted in quarters of `2^-1074`: the
neighbour below a power of two is half as far away as the one above.
-/

def intervalLow (x : Binary64) : Nat :=
  4 * x.magnitude - (if x.fraction = 0 ∧ 1 < x.exponent then 1 else 2) * x.ulp

def intervalHigh (x : Binary64) : Nat := 4 * x.magnitude + 2 * x.ulp

/-- Whether the fraction `t / scale` of quarters rounds to the number. The ends do exactly when the
significand is even. -/
def roundsFrom (x : Binary64) (t scale : Nat) : Bool :=
  if x.significand % 2 = 0 then
    x.intervalLow * scale ≤ t && t ≤ x.intervalHigh * scale
  else
    x.intervalLow * scale < t && t < x.intervalHigh * scale

/-! ## Digits -/

/-- The multiple of `10 ^ e` nearest to the number, as a count of `10 ^ e`, if it reads back; the
upper of two that are equally near. -/
def onGrid? (x : Binary64) (e : Int) : Option Nat :=
  let scale := pow10 (-e).toNat
  let step := pow10 e.toNat * (4 * one)
  let value := 4 * x.magnitude * scale
  let below := value / step
  let above := below + 1
  match x.roundsFrom (below * step) scale, x.roundsFrom (above * step) scale with
  | true, true => some (if above * step - value ≤ value - below * step then above else below)
  | true, false => some below
  | false, true => some above
  | false, false => none

/-- The digits on the coarsest of the grids `10 ^ (k - 325)`, ..., `10 ^ -324` that reads back. -/
def coarsest? (x : Binary64) : Nat → Option Decimal
  | 0 => none
  | k + 1 =>
    match x.onGrid? (k - 324) with
    | some n => some ⟨n, k - 324⟩
    | none => x.coarsest? k

/-- The decimal with the fewest digits that reads back as the absolute value of a finite number
other than zero. No double reaches `10 ^ 309`, and each rounding interval is wider than
`10 ^ -324`, so there is one on the grids from `10 ^ 308` to `10 ^ -324`. -/
def shortest (x : Binary64) : Decimal := (x.coarsest? 633).getD ⟨0, 0⟩

/-- The text of a number: a sign, then the shortest digits, and the names of what is not finite. -/
def text (x : Binary64) : String :=
  if x.isNaN then "##NaN"
  else if x.isFinite then
    (if x.isNegative then "-" else "") ++
      (if x.magnitude = 0 then "0.0" else x.shortest.positional)
  else if x.isNegative then "##-Inf"
  else "##Inf"

end Binary64

end Lisplet
