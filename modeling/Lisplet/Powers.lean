/-!
Powers of the two bases that numbers are written in.
-/

namespace Lisplet

def pow2 (n : Nat) : Nat := Nat.pow 2 n

theorem pow2_pos (n : Nat) : 0 < pow2 n := Nat.two_pow_pos n

theorem pow2_add (m n : Nat) : pow2 (m + n) = pow2 m * pow2 n := Nat.pow_add 2 m n

theorem pow2_succ (n : Nat) : pow2 (n + 1) = 2 * pow2 n := Nat.pow_succ'

theorem pow2_le_pow2 (h : m ≤ n) : pow2 m ≤ pow2 n := Nat.pow_le_pow_right Nat.zero_lt_two h

theorem pow2_dvd_pow2 (h : m ≤ n) : pow2 m ∣ pow2 n := Nat.pow_dvd_pow 2 h

theorem lt_pow2_log2 (a : Nat) : a < pow2 (a.log2 + 1) := Nat.lt_log2_self

theorem pow2_log2_le {a : Nat} (ha : a ≠ 0) : pow2 a.log2 ≤ a := Nat.log2_self_le ha

def pow10 (n : Nat) : Nat := Nat.pow 10 n

end Lisplet
