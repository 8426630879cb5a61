import Lisplet.Proofs.Rounding

/-!
Double precision numbers as rationals, and the integers among them. Main statements: the conversion
to an integer drops the fraction (`trunc?_eq_some_iff`), an integer that rounding keeps comes back
from its double (`trunc?_ofInt`), and a double without a fraction from its integer
(`ofBig_eq_iff`), unless it is the negative zero.
-/

namespace Lisplet.Binary64

variable {x y : Binary64} {a : Nat} {n : Int}

/-- A finite number in units of `2^-1074`, with its sign. -/
def units (x : Binary64) : Int := if x.isNegative then -(x.magnitude : Int) else x.magnitude

/-- The rational that a finite number stands for. Both zeros stand for zero. -/
def toRat (x : Binary64) : Rat := mkRat x.units one

def negativeZero : Binary64 := ofWord (pow2 63)

/-! ## Fields -/

theorem one_pos : 0 < one := pow2_pos 1074

theorem fraction_lt (x : Binary64) : x.fraction < pow2 52 := Nat.mod_lt _ (pow2_pos 52)

theorem significand_lt (x : Binary64) : x.significand < pow2 53 := by
  have hfraction := x.fraction_lt
  have h53 : pow2 53 = 2 * pow2 52 := pow2_succ 52
  unfold significand
  split <;> omega

theorem pow2_le_significand (h : x.exponent ≠ 0) : pow2 52 ≤ x.significand := by
  rw [significand, if_neg h]
  exact Nat.le_add_right ..

theorem magnitude_of_exponent_eq_zero (h : x.exponent = 0) : x.magnitude = x.fraction := by
  rw [magnitude, significand, ulp, h, if_pos rfl]
  exact Nat.mul_one _

theorem word_eq (x : Binary64) : x.word =
    (if x.isNegative then pow2 63 else 0) + (x.exponent * pow2 52 + x.fraction) := by
  have h52 : pow2 52 = 4503599627370496 := rfl
  have h63 : pow2 63 = 9223372036854775808 := rfl
  have hword : x.word < 18446744073709551616 := x.bits.toNat_lt
  simp only [isNegative, exponent, fraction, decide_eq_true_eq, h52, h63]
  split <;> omega

theorem eq_of_word_eq (h : x.word = y.word) : x = y := by
  cases x
  cases y
  exact congrArg mk (UInt64.toNat_inj.mp h)

/-! ## Signs and magnitudes -/

/-- A product with a power of two has that many more bits. -/
theorem log2_mul_pow2 (ha : a ≠ 0) (k : Nat) : (a * pow2 k).log2 = a.log2 + k := by
  have hne : a * pow2 k ≠ 0 := Nat.mul_ne_zero ha (Nat.ne_of_gt (pow2_pos k))
  refine (Nat.log2_eq_iff hne).mpr ⟨?_, ?_⟩
  · calc pow2 (a.log2 + k)
      _ = pow2 a.log2 * pow2 k := pow2_add ..
      _ ≤ a * pow2 k := Nat.mul_le_mul_right _ (pow2_log2_le ha)
  · calc a * pow2 k
      _ < pow2 (a.log2 + 1) * pow2 k := Nat.mul_lt_mul_of_pos_right (lt_pow2_log2 a) (pow2_pos k)
      _ = pow2 (a.log2 + k + 1) := by rw [← pow2_add]; congr 1; omega

theorem log2_significand (h : x.exponent ≠ 0) : x.significand.log2 = 52 := by
  have hle := pow2_le_significand h
  have hpos := pow2_pos 52
  exact (Nat.log2_eq_iff (by omega)).mpr ⟨hle, x.significand_lt⟩

theorem log2_magnitude (h : x.exponent ≠ 0) : x.magnitude.log2 = 52 + (x.exponent - 1) := by
  have hle := pow2_le_significand h
  have hpos := pow2_pos 52
  rw [magnitude, ulp, log2_mul_pow2 (by omega), log2_significand h]

theorem exponent_eq_zero_iff : x.exponent = 0 ↔ x.magnitude < pow2 52 := by
  constructor
  · intro h
    rw [magnitude_of_exponent_eq_zero h]
    exact x.fraction_lt
  · intro h
    refine Decidable.byContradiction fun hne => Nat.not_le.mpr h ?_
    exact Nat.le_trans (pow2_le_significand hne) (Nat.le_mul_of_pos_right _ (pow2_pos _))

/-- The sign and the magnitude tell a number. -/
theorem eq_of_magnitude_eq (hsign : x.isNegative = y.isNegative)
    (h : x.magnitude = y.magnitude) : x = y := by
  have hzero : x.exponent = 0 ↔ y.exponent = 0 := by
    rw [exponent_eq_zero_iff, exponent_eq_zero_iff, h]
  suffices hfields : x.exponent = y.exponent ∧ x.fraction = y.fraction by
    apply eq_of_word_eq
    rw [word_eq, word_eq, hsign, hfields.1, hfields.2]
  by_cases hx : x.exponent = 0
  · have hy : y.exponent = 0 := hzero.mp hx
    rw [magnitude_of_exponent_eq_zero hx, magnitude_of_exponent_eq_zero hy] at h
    exact ⟨hx.trans hy.symm, h⟩
  · have hy : y.exponent ≠ 0 := fun hy => hx (hzero.mpr hy)
    have hexponent : x.exponent = y.exponent := by
      have hlog := log2_magnitude hx
      rw [h, log2_magnitude hy] at hlog
      omega
    have hsignificand : x.significand = y.significand := by
      rw [magnitude, magnitude, ulp, ulp, hexponent] at h
      exact Nat.eq_of_mul_eq_mul_right (pow2_pos _) h
    rw [significand, significand, if_neg hx, if_neg hy] at hsignificand
    exact ⟨hexponent, Nat.add_left_cancel hsignificand⟩

/-! ## Integers that rounding keeps -/

/-- There is a number of magnitude `a`: it is in range, and there are zeros behind its leading 53
bits. -/
structure IsExact (a : Nat) : Prop where
  log2_le : a.log2 ≤ 1023
  dvd : pow2 (a.log2 - 52) ∣ a

theorem isExact_of_le (h : a ≤ pow2 53) : IsExact a := by
  rcases Nat.lt_or_eq_of_le h with hlt | rfl
  · have hlog : a.log2 ≤ 52 := by
      by_cases ha : a = 0
      · simp [ha]
      · exact Nat.le_of_lt_succ ((Nat.log2_lt ha).mpr hlt)
    refine ⟨by omega, ?_⟩
    rw [Nat.sub_eq_zero_of_le hlog]
    exact Nat.one_dvd a
  · exact ⟨by decide, by decide⟩

theorem roundHalfEven_mul {d : Nat} (hd : 0 < d) (k : Nat) : roundHalfEven (d * k) d = k := by
  rw [roundHalfEven, Nat.mul_mod_right, Nat.mul_div_cancel_left k hd, if_pos (by omega)]

/-- Nothing is lost in the significand. -/
theorem IsExact.significandOfNat_mul (h : IsExact a) :
    significandOfNat a * pow2 a.log2 = a * pow2 52 := by
  rw [significandOfNat]
  split
  case isTrue hlog =>
    rw [Nat.mul_assoc, ← pow2_add]
    congr 2
    omega
  case isFalse hlog =>
    obtain ⟨k, hk⟩ := h.dvd
    calc roundHalfEven a (pow2 (a.log2 - 52)) * pow2 a.log2
      _ = k * pow2 a.log2 := by
        congr 1
        conv => lhs; arg 1; rw [hk]
        exact roundHalfEven_mul (pow2_pos _) k
      _ = pow2 (a.log2 - 52) * k * pow2 52 := by
        rw [Nat.mul_comm _ k, Nat.mul_assoc, ← pow2_add]
        congr 2
        omega
      _ = a * pow2 52 := by rw [← hk]

theorem IsExact.pow2_le_significandOfNat (h : IsExact a) (ha : a ≠ 0) :
    pow2 52 ≤ significandOfNat a := by
  refine Nat.le_of_mul_le_mul_right ?_ (pow2_pos a.log2)
  rw [h.significandOfNat_mul, Nat.mul_comm]
  exact Nat.mul_le_mul_right _ (pow2_log2_le ha)

theorem IsExact.significandOfNat_lt (h : IsExact a) : significandOfNat a < pow2 53 := by
  refine Nat.lt_of_mul_lt_mul_right (a := pow2 a.log2) ?_
  calc significandOfNat a * pow2 a.log2
    _ = a * pow2 52 := h.significandOfNat_mul
    _ < pow2 (a.log2 + 1) * pow2 52 := Nat.mul_lt_mul_of_pos_right (lt_pow2_log2 a) (pow2_pos 52)
    _ = pow2 53 * pow2 a.log2 := by
      rw [← pow2_add, ← pow2_add]
      congr 1
      omega

theorem IsExact.lt_infinityWord (h : IsExact a) :
    (a.log2 + 1022) * pow2 52 + significandOfNat a < infinityWord := by
  have hlt := h.significandOfNat_lt
  have h53 : pow2 53 = 2 * pow2 52 := pow2_succ 52
  have hinf : infinityWord = 2047 * pow2 52 := rfl
  have hlog : (a.log2 + 1022) * pow2 52 ≤ 2045 * pow2 52 :=
    Nat.mul_le_mul_right _ (Nat.add_le_add_right h.log2_le _)
  omega

theorem IsExact.wordOfNat_eq (h : IsExact a) (ha : a ≠ 0) :
    wordOfNat a = (a.log2 + 1022) * pow2 52 + significandOfNat a := by
  rw [Binary64.wordOfNat_eq ha]
  exact Nat.min_eq_left (Nat.le_of_lt h.lt_infinityWord)

theorem IsExact.lt_infinityBound (h : IsExact a) : a < infinityBound := by
  rw [← wordOfNat_lt_iff]
  by_cases ha : a = 0
  · subst ha
    decide
  · rw [h.wordOfNat_eq ha]
    exact h.lt_infinityWord

theorem isNegative_ofInt (n : Int) : (ofInt n).isNegative = decide (n < 0) := by
  have hle := wordOfNat_le n.natAbs
  have hinf : infinityWord < pow2 63 := by decide
  rw [isNegative, word_ofInt, decide_eq_decide]
  split <;> omega

/-- The sign does not show in the fraction. -/
theorem fraction_ofInt (n : Int) : (ofInt n).fraction = wordOfNat n.natAbs % pow2 52 := by
  have h63 : pow2 63 = pow2 52 * 2048 := rfl
  rw [fraction, word_ofInt]
  split
  · rw [h63, Nat.mul_add_mod]
  · rw [Nat.zero_add]

theorem magnitude_ofInt (h : IsExact n.natAbs) : (ofInt n).magnitude = n.natAbs * one := by
  by_cases hn : n = 0
  · subst hn
    rw [magnitude_of_exponent_eq_zero (exponent_ofInt 0), Int.natAbs_zero, Nat.zero_mul]
    exact fraction_ofInt 0
  have hne : n.natAbs ≠ 0 := Int.natAbs_ne_zero.mpr hn
  have hle := h.pow2_le_significandOfNat hne
  have hlt := h.significandOfNat_lt
  have h53 : pow2 53 = pow2 52 + pow2 52 := by rw [pow2_succ 52, Nat.two_mul]
  obtain ⟨f, hf⟩ := Nat.exists_eq_add_of_le hle
  have hword : wordOfNat n.natAbs = pow2 52 * (n.natAbs.log2 + 1023) + f := by
    rw [h.wordOfNat_eq hne, hf, Nat.mul_comm (pow2 52), ← Nat.add_assoc, ← Nat.succ_mul]
  have hflt : f < pow2 52 := by omega
  have hexponent : (ofInt n).exponent = n.natAbs.log2 + 1023 := by
    rw [exponent_ofInt, hword, Nat.mul_add_div (pow2_pos 52), Nat.div_eq_of_lt hflt, Nat.add_zero]
  have hfraction : (ofInt n).fraction = f := by
    rw [fraction_ofInt, hword, Nat.mul_add_mod, Nat.mod_eq_of_lt hflt]
  calc (ofInt n).magnitude
    _ = significandOfNat n.natAbs * pow2 (n.natAbs.log2 + 1022) := by
      rw [magnitude, significand, ulp, hexponent, hfraction, if_neg (by omega), hf]
      rfl
    _ = n.natAbs * pow2 52 * pow2 1022 := by rw [pow2_add, ← Nat.mul_assoc, h.significandOfNat_mul]
    _ = n.natAbs * one := by rw [Nat.mul_assoc, ← pow2_add, one]

/-! ## Fractions -/

@[simp] theorem natAbs_units (x : Binary64) : x.units.natAbs = x.magnitude := by
  unfold units
  split
  · exact (Int.natAbs_neg _).trans (Int.natAbs_natCast _)
  · exact Int.natAbs_natCast _

theorem trunc?_eq (x : Binary64) :
    x.trunc? = if x.isFinite then some (x.units.tdiv one) else none := by
  have hdiv : ((x.magnitude / one : Nat) : Int) = (x.magnitude : Int).tdiv one :=
    Int.ofNat_tdiv ..
  unfold trunc? units
  split
  · simp only [hdiv]
    split
    · rw [Int.neg_tdiv]
    · rfl
  · rfl

/-- The denominator makes no difference to the quotient. -/
theorem tdiv_mkRat (m : Int) {d : Nat} (hd : d ≠ 0) :
    (mkRat m d).num.tdiv (mkRat m d).den = m.tdiv d := by
  rcases hq : mkRat m d with ⟨m', d', hd', hcoprime⟩
  obtain ⟨k, hk, rfl, rfl⟩ := Rat.mkRat_num_den hd hq
  have hpos : 0 < (k : Int) := by omega
  rw [Int.natCast_mul, Int.mul_comm m', Int.mul_comm (d' : Int), Int.mul_tdiv_mul_of_pos _ _ hpos]

/-- A finite number is truncated toward zero, and no other is. -/
theorem trunc?_eq_some_iff :
    x.trunc? = some n ↔ x.isFinite ∧ x.toRat.num.tdiv x.toRat.den = n := by
  rw [trunc?_eq, toRat, tdiv_mkRat _ (Nat.ne_of_gt one_pos)]
  split
  case isTrue h => rw [Option.some.injEq, and_iff_right h]
  case isFalse h => exact iff_of_false nofun fun hn => h hn.1

theorem isInt_toRat_iff : x.toRat.isInt ↔ one ∣ x.magnitude := by
  have hone := one_pos
  change (mkRat x.units one).den == 1 ↔ one ∣ x.magnitude
  rw [beq_iff_eq, Rat.den_mkRat, if_neg (Nat.ne_of_gt hone), natAbs_units]
  rw [← Nat.gcd_eq_left_iff_dvd]
  constructor
  · intro h
    have hmul := Nat.div_mul_cancel (Nat.gcd_dvd_left one x.magnitude)
    rwa [h, Nat.one_mul] at hmul
  · intro h
    rw [h, Nat.div_self hone]

/-! ## There and back -/

theorem trunc?_ofInt (h : IsExact n.natAbs) : (ofInt n).trunc? = some n := by
  have hfinite : (ofInt n).isFinite := (isFinite_ofInt_iff n).mpr h.lt_infinityBound
  have hone : (one : Int) ≠ 0 := Int.ofNat_ne_zero.mpr (Nat.ne_of_gt one_pos)
  have hunits : (ofInt n).units = n * one := by
    rw [units, isNegative_ofInt, magnitude_ofInt h, Int.natCast_mul, ← Int.neg_mul]
    simp only [decide_eq_true_eq]
    split
    · congr 1
      omega
    · congr 1
      omega
  rw [trunc?_eq, if_pos hfinite, hunits, Int.mul_tdiv_cancel _ hone]

/-- A finite number without its fraction has no more bits than its significand. -/
theorem isExact_div_one (hx : x.isFinite) : IsExact (x.magnitude / one) := by
  have hmax : x.exponent < 2047 := by
    have hlt : x.exponent < 2048 := Nat.mod_lt _ (by omega)
    have hne : x.exponent ≠ 2047 := bne_iff_ne.mp hx
    omega
  rcases Nat.lt_or_ge (x.exponent - 1) 1074 with hlt | hge
  · refine isExact_of_le (Nat.div_le_of_le_mul ?_)
    rw [Nat.mul_comm]
    exact Nat.mul_le_mul (Nat.le_of_lt x.significand_lt) (pow2_le_pow2 (Nat.le_of_lt hlt))
  · obtain ⟨k, hk⟩ := Nat.exists_eq_add_of_le hge
    have hexponent : x.exponent ≠ 0 := by omega
    have hpos : x.significand ≠ 0 :=
      Nat.ne_of_gt (Nat.lt_of_lt_of_le (pow2_pos 52) (pow2_le_significand hexponent))
    have hdiv : x.magnitude / one = x.significand * pow2 k := by
      rw [magnitude, ulp, hk, Nat.add_comm, pow2_add, ← Nat.mul_assoc, one,
        Nat.mul_div_cancel _ (pow2_pos 1074)]
    have hlog : (x.significand * pow2 k).log2 = 52 + k := by
      rw [log2_mul_pow2 hpos, log2_significand hexponent]
    rw [hdiv]
    refine ⟨by omega, ?_⟩
    rw [hlog, Nat.add_sub_cancel_left]
    exact Nat.dvd_mul_left ..

theorem isExact_of_trunc? (h : x.trunc? = some n) : IsExact n.natAbs := by
  rw [trunc?_eq] at h
  split at h
  case isTrue hfinite =>
    rw [← Option.some.inj h, Int.natAbs_tdiv, natAbs_units, Int.natAbs_natCast]
    exact isExact_div_one hfinite
  case isFalse => cases h

theorem IsExact.ofBig_eq (h : IsExact n.natAbs) : ofBig n = ofInt n := by
  have hvisible : visible n.natAbs = n.natAbs :=
    visible_eq_self (Nat.dvd_trans (pow2_dvd_pow2 (by omega)) h.dvd)
  rw [ofBig, hvisible, Int.sign_mul_natAbs]

theorem magnitude_negativeZero : negativeZero.magnitude = 0 :=
  magnitude_of_exponent_eq_zero (by decide)

/-- The sign of a number without a fraction shows in its integer, zeros aside. -/
theorem isNegative_iff_of_units_eq (h : x.units = n * one) (hx : x ≠ negativeZero) :
    x.isNegative ↔ n < 0 := by
  have hone : 0 < (one : Int) := Int.natCast_pos.mpr one_pos
  have hsign : n < 0 ↔ x.units < 0 := by
    rw [h]
    refine ⟨fun hn => Int.mul_neg_of_neg_of_pos hn hone, fun hn => Int.not_le.mp fun hle => ?_⟩
    exact Int.not_le.mpr hn (Int.mul_nonneg hle (Int.le_of_lt hone))
  rw [hsign, units]
  split
  case isTrue hneg =>
    have hmagnitude : x.magnitude ≠ 0 := fun h0 =>
      hx (eq_of_magnitude_eq (hneg.trans rfl) (h0.trans magnitude_negativeZero.symm))
    exact iff_of_true hneg (by omega)
  case isFalse hneg => exact iff_of_false hneg (by omega)

theorem units_eq_of_isInt (h : x.trunc? = some n) (hint : x.toRat.isInt) : x.units = n * one := by
  have hdvd : (one : Int) ∣ x.units :=
    Int.ofNat_dvd_left.mpr (natAbs_units x ▸ isInt_toRat_iff.mp hint)
  rw [trunc?_eq] at h
  split at h
  case isTrue => rw [← Option.some.inj h, Int.tdiv_mul_cancel hdvd]
  case isFalse => cases h

/-- The numbers that come back from their integers. -/
theorem ofBig_eq_iff (h : x.trunc? = some n) :
    ofBig n = x ↔ x.toRat.isInt ∧ x ≠ negativeZero := by
  have hexact := isExact_of_trunc? h
  rw [hexact.ofBig_eq]
  constructor
  · rintro rfl
    have hmagnitude := magnitude_ofInt hexact
    refine ⟨isInt_toRat_iff.mpr (hmagnitude ▸ Nat.dvd_mul_left ..), fun hzero => ?_⟩
    have hn : n.natAbs * one = 0 := by rw [← hmagnitude, hzero, magnitude_negativeZero]
    have hsign : (ofInt n).isNegative := hzero ▸ rfl
    have hone := one_pos
    rw [isNegative_ofInt, decide_eq_true_iff] at hsign
    rcases Nat.mul_eq_zero.mp hn with h0 | h0 <;> omega
  · rintro ⟨hint, hx⟩
    have hunits := units_eq_of_isInt h hint
    apply eq_of_magnitude_eq
    · rw [isNegative_ofInt, Bool.eq_iff_iff, decide_eq_true_iff,
        isNegative_iff_of_units_eq hunits hx]
    · rw [magnitude_ofInt hexact, ← natAbs_units, hunits, Int.natAbs_mul, Int.natAbs_natCast]

end Lisplet.Binary64
