import Lisplet.Value.Basic

/-!
Host sequences of some common shapes. Each function takes the identity that the new sequence gets.
-/

namespace Lisplet.Value

/-- The integers from `n` down to one. With none of them the value is the empty list. -/
def countdown (identity : Nat) (n : Int64) : Value :=
  if n.toInt < 1 then list []
  else seq identity (.orbit (fun i => int (Int64.ofInt (n.toInt - i))) 0 (some (n.toInt.toNat - 1)))

/-- A countdown has an end, and integers for elements. -/
theorem countdown_cases (identity : Nat) (n : Int64) : countdown identity n = list [] ∨
    ∃ s vs, countdown identity n = seq identity s ∧ s.realize? = some vs ∧
      ∀ v ∈ vs, ∃ k, v = int k := by
  rw [countdown]
  split
  · exact .inl rfl
  · obtain ⟨vs, hvs, hitem⟩ := Sequence.realize?_orbit
      (fun i => int (Int64.ofInt (n.toInt - i))) 0 (n.toInt.toNat - 1)
    refine .inr ⟨_, vs, rfl, hvs, fun v hv => ?_⟩
    obtain ⟨i, rfl⟩ := hitem v hv
    exact ⟨_, rfl⟩

/-- How often `step` can be added to `start` before the sum leaves the range of `int`; there is no
bound when it is zero. -/
def stepsInRange (start step : Int64) : Option Nat :=
  if 0 < step.toInt then
    some ((Int64.maxValue.toInt - start.toInt) / step.toInt).toNat
  else if step.toInt < 0 then
    some ((start.toInt - Int64.minValue.toInt) / -step.toInt).toNat
  else none

/-- The integers `start`, `start + step`, ..., as long as they are in the range of `int`. -/
def counting (identity : Nat) (start step : Int64) : Value :=
  seq identity <| .orbit (fun i => int (Int64.ofInt (start.toInt + i * step.toInt))) 0
    (stepsInRange start step)

/-- The endless sequence `v`, `[v]`, `[[v]]`, .... -/
def nest (identity : Nat) (v : Value) : Value := seq identity (.iterate (fun w => vector [w]) v)

/-- The elements of `v` behind the first `n`, as a sequence of its own; empty when there are not so
many or `v` cannot be walked. Behind no element of a host sequence stands that sequence itself. -/
def behind (identity : Nat) (v : Value) (n : Nat) : Value :=
  match v.asSeq?.bind (Cursor.advance n) with
  | none => seq identity (.items [])
  | some s =>
    match n, v.payload with
    | 0, seq i _ => seq i s
    | _, _ => seq identity s

end Lisplet.Value
