import Lisplet.Binary64.Basic

/-!
Integers of any size as double precision numbers. An integer is read in limbs of 64 bits from the
top. Rounding sees its leading 64 bits, and of each limb behind them as many low bits as the leading
limb has; bits that it does not see count as zero. Main statement: an integer that has zeros behind
its leading 64 bits is seen in full (`visible_eq_self`), as is any that fits 64 bits.
-/

namespace Lisplet.Binary64

/-- The number of which each of the lowest `limbs` limbs is that of `a` with all but its `width` low
bits cleared. -/
def lowBits (width : Nat) : (limbs : Nat) → Nat → Nat
  | 0, _ => 0
  | k + 1, a => a % pow2 64 % pow2 width + pow2 64 * lowBits width k (a / pow2 64)

/-- The value of the last of the leading 64 bits of `a`; one when there are fewer. -/
def leadingUnit (a : Nat) : Nat := pow2 (a.log2 + 1 - 64)

/-- What rounding sees of `a`. The leading limb has `a.log2 % 64 + 1` bits. -/
def visible (a : Nat) : Nat :=
  a / leadingUnit a * leadingUnit a +
    lowBits (a.log2 % 64 + 1) (a.log2 / 64) (a % leadingUnit a)

/-- What an integer of any size becomes: the number nearest to what is seen of it, ties to even. So
an integer a little above the middle of two numbers can become the lower one. -/
def ofBig (n : Int) : Binary64 := ofInt (n.sign * visible n.natAbs)

@[simp] theorem lowBits_zero (width : Nat) : (limbs : Nat) → lowBits width limbs 0 = 0
  | 0 => rfl
  | k + 1 => by simp [lowBits, lowBits_zero width k]

theorem lowBits_le (width : Nat) (limbs a : Nat) : lowBits width limbs a ≤ a := by
  induction limbs generalizing a with
  | zero => exact Nat.zero_le a
  | succ k ih =>
    calc a % pow2 64 % pow2 width + pow2 64 * lowBits width k (a / pow2 64)
      _ ≤ a % pow2 64 + pow2 64 * (a / pow2 64) :=
        Nat.add_le_add (Nat.mod_le _ _) (Nat.mul_le_mul_left _ (ih _))
      _ = a := Nat.mod_add_div a _

theorem visible_le (a : Nat) : visible a ≤ a := by
  calc visible a
    _ ≤ a / leadingUnit a * leadingUnit a + a % leadingUnit a :=
      Nat.add_le_add_left (lowBits_le ..) _
    _ = a := Nat.div_add_mod' a _

/-- Whatever the leading 64 bits can tell to be at most `a` is at most what is seen of `a`. -/
theorem le_visible (hdvd : leadingUnit a ∣ b) (hb : b ≤ a) : b ≤ visible a := by
  obtain ⟨k, rfl⟩ := hdvd
  have hpos : 0 < leadingUnit a := pow2_pos _
  have hk : k ≤ a / leadingUnit a := by
    rwa [Nat.le_div_iff_mul_le hpos, Nat.mul_comm]
  calc leadingUnit a * k
    _ ≤ leadingUnit a * (a / leadingUnit a) := Nat.mul_le_mul_left _ hk
    _ = a / leadingUnit a * leadingUnit a := Nat.mul_comm ..
    _ ≤ visible a := Nat.le_add_right ..

theorem visible_eq_self {a : Nat} (h : leadingUnit a ∣ a) : visible a = a := by
  simp [visible, Nat.mod_eq_zero_of_dvd h, Nat.div_mul_cancel h]

theorem visible_of_lt {a : Nat} (h : a < pow2 64) : visible a = a := by
  have hlog : a.log2 < 64 := by
    by_cases ha : a = 0
    · simp [ha]
    · exact (Nat.log2_lt ha).mpr h
  refine visible_eq_self ⟨a, ?_⟩
  simp [leadingUnit, pow2, Nat.sub_eq_zero_of_le (Nat.succ_le_of_lt hlog)]

/-- An integer of at most 64 bits becomes the number nearest to it. -/
theorem ofBig_of_natAbs_lt {n : Int} (h : n.natAbs < pow2 64) : ofBig n = ofInt n := by
  rw [ofBig, visible_of_lt h, Int.sign_mul_natAbs]

theorem natAbs_toInt_lt (n : Int64) : n.toInt.natAbs < pow2 64 := by
  have := n.le_toInt
  have := n.toInt_lt
  have h64 : pow2 64 = 18446744073709551616 := rfl
  omega

theorem ofBig_toInt (n : Int64) : ofBig n.toInt = ofInt n.toInt :=
  ofBig_of_natAbs_lt (natAbs_toInt_lt n)

end Lisplet.Binary64
