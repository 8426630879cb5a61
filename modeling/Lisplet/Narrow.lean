/-!
Integers of unbounded size narrowed to 64 bits.
-/

namespace Lisplet

/-- The 64-bit integer with the value `n`, when there is one. -/
def narrow? (n : Int) : Option Int64 :=
  if Int64.minValue.toInt ≤ n ∧ n ≤ Int64.maxValue.toInt then some (Int64.ofInt n) else none

theorem toInt_of_narrow? {n : Int} {i : Int64} (h : narrow? n = some i) : i.toInt = n := by
  unfold narrow? at h
  split at h
  case isTrue hn =>
    obtain rfl := Option.some.inj h
    exact Int64.toInt_ofInt_of_le hn.1 (Int.lt_add_one_iff.mpr hn.2)
  case isFalse => cases h

theorem narrow?_toInt (n : Int64) : narrow? n.toInt = some n := by
  have hrange : Int64.minValue.toInt ≤ n.toInt ∧ n.toInt ≤ Int64.maxValue.toInt :=
    ⟨n.minValue_le_toInt, n.toInt_le⟩
  rw [narrow?, if_pos hrange, Int64.ofInt_toInt]

/-- The sum, when it is in range. -/
def addInRange? (a b : Int64) : Option Int64 := narrow? (a.toInt + b.toInt)

end Lisplet
