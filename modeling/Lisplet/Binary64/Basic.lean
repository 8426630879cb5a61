import Lisplet.Powers

/-!
Double precision numbers as 64-bit words. Nothing here computes with machine floats: a finite word
is a sign and a natural number of units of `2^-1074`, so rounding an integer and truncating a
number are integer arithmetic.
-/

namespace Lisplet

/-- A double precision number, kept as its bits. Two numbers are the same when their bits are, so a
NaN is the same as itself and the two zeros differ. -/
structure Binary64 where
  bits : UInt64
  deriving DecidableEq

namespace Binary64

/-! ## Fields -/

/-- The bits read as a natural number. -/
def word (x : Binary64) : Nat := x.bits.toNat

def ofWord (n : Nat) : Binary64 := ⟨UInt64.ofNat n⟩

/-- Whether the sign bit is set; it is for `-0.0`. -/
def isNegative (x : Binary64) : Bool := pow2 63 ≤ x.word

/-- The biased exponent. -/
def exponent (x : Binary64) : Nat := x.word / pow2 52 % 2048

def fraction (x : Binary64) : Nat := x.word % pow2 52

def isFinite (x : Binary64) : Bool := x.exponent != 2047

def isNaN (x : Binary64) : Bool := x.exponent == 2047 && x.fraction != 0

/-! ## Magnitude -/

/-- The number `1.0` in units of `2^-1074`. -/
def one : Nat := pow2 1074

/-- The fraction with the leading bit that normal numbers leave out. -/
def significand (x : Binary64) : Nat :=
  if x.exponent = 0 then x.fraction else pow2 52 + x.fraction

/-- The value of the last bit of the significand, in units of `2^-1074`. -/
def ulp (x : Binary64) : Nat := pow2 (x.exponent - 1)

/-- The absolute value of a finite number, in units of `2^-1074`. -/
def magnitude (x : Binary64) : Nat := x.significand * x.ulp

/-! ## Integers -/

/-- The quotient `a / d` rounded to the nearest integer, a half to the even one. -/
def roundHalfEven (a d : Nat) : Nat :=
  if 2 * (a % d) < d then a / d
  else if d < 2 * (a % d) then a / d + 1
  else a / d + a / d % 2

/-- The word of positive infinity. Words below it are the finite numbers from zero up, in order. -/
def infinityWord : Nat := 2047 * pow2 52

/-- The word of the number nearest to `a`. A significand that rounds up to `2^53` carries into the
exponent, which is the word of the next power of two; beyond the finite range stands infinity. -/
def wordOfNat (a : Nat) : Nat :=
  if a = 0 then 0 else
    let e := a.log2
    let m := if e ≤ 52 then a * pow2 (52 - e) else roundHalfEven a (pow2 (e - 52))
    min ((e + 1022) * pow2 52 + m) infinityWord

/-- The number nearest to an integer, ties to even; an infinity when it is out of range. -/
def ofInt (n : Int) : Binary64 :=
  ofWord ((if n < 0 then pow2 63 else 0) + wordOfNat n.natAbs)

/-- The integer part of a finite number, toward zero. -/
def trunc? (x : Binary64) : Option Int :=
  if x.isFinite then
    let n : Int := (x.magnitude / one : Nat)
    some (if x.isNegative then -n else n)
  else none

end Binary64

end Lisplet
