import Lisplet.Binary64.Wide

/-!
The conversion of integers to double precision numbers. Main statements: an integer becomes a finite
number exactly when it is below `infinityBound` in magnitude (`isFinite_ofInt_iff`), and what is not
seen of an integer of any size makes no difference to that (`isFinite_ofBig_iff`).
-/

namespace Lisplet.Binary64

/-- The least magnitude that becomes an infinity. It lies halfway between the greatest finite number
and the next power of two. -/
def infinityBound : Nat := pow2 1024 - pow2 970

/-- The infinity of a sign. -/
def infinity (negative : Bool) : Binary64 :=
  ofWord ((if negative then pow2 63 else 0) + infinityWord)

/-! ## Rounding -/

theorem roundHalfEven_le (a d : Nat) : roundHalfEven a d ≤ a / d + 1 := by
  unfold roundHalfEven
  split
  · omega
  · split
    · omega
    · have := Nat.mod_lt (a / d) Nat.zero_lt_two
      omega

theorem le_roundHalfEven (a d : Nat) : a / d ≤ roundHalfEven a d := by
  unfold roundHalfEven
  split
  · exact Nat.le_refl _
  · split <;> omega

/-- The last step before an even number, `2 * q`, is divided in the middle: from there on a quotient
rounds up to it. -/
theorem roundHalfEven_lt_iff {a d q : Nat} (hd : 0 < d) (ha : a < 2 * q * (2 * d)) :
    roundHalfEven a (2 * d) < 2 * q ↔ a + d < 2 * q * (2 * d) := by
  have hq : a / (2 * d) < 2 * q := (Nat.div_lt_iff_lt_mul (by omega)).mpr ha
  have hmod : a % (2 * d) < 2 * d := Nat.mod_lt _ (by omega)
  have hdiv : 2 * d * (a / (2 * d)) + a % (2 * d) = a := Nat.div_add_mod a (2 * d)
  by_cases hlast : a / (2 * d) + 1 = 2 * q
  · have hmul : 2 * q * (2 * d) = 2 * d * (a / (2 * d)) + 2 * d := by
      rw [← hlast, Nat.add_mul, Nat.one_mul, Nat.mul_comm]
    have hodd : a / (2 * d) % 2 = 1 := by omega
    rw [roundHalfEven, hodd]
    split
    · omega
    · split <;> omega
  · have hle : roundHalfEven a (2 * d) ≤ a / (2 * d) + 1 := roundHalfEven_le _ _
    have hmul : (a / (2 * d) + 2) * (2 * d) ≤ 2 * q * (2 * d) :=
      Nat.mul_le_mul_right _ (by omega)
    rw [Nat.add_mul, Nat.mul_comm (a / (2 * d))] at hmul
    omega

/-! ## Significands -/

theorem div_pow2_lt (h : a.log2 ≤ 52 + s) : a / pow2 s < pow2 53 := by
  rw [Nat.div_lt_iff_lt_mul (pow2_pos s), ← pow2_add]
  exact Nat.lt_of_lt_of_le (lt_pow2_log2 a) (pow2_le_pow2 (by omega))

theorem mul_pow2_lt (h : a.log2 ≤ 52) : a * pow2 (52 - a.log2) < pow2 53 := by
  calc a * pow2 (52 - a.log2)
    _ < pow2 (a.log2 + 1) * pow2 (52 - a.log2) :=
      Nat.mul_lt_mul_of_pos_right (lt_pow2_log2 a) (pow2_pos _)
    _ = pow2 53 := by rw [← pow2_add]; congr 1; omega

theorem pow2_le_div {a : Nat} (ha : a ≠ 0) (h : a.log2 = 52 + s) : pow2 52 ≤ a / pow2 s := by
  rw [Nat.le_div_iff_mul_le (pow2_pos s), ← pow2_add, ← h]
  exact pow2_log2_le ha

/-- The significand, the leading bit included, of the number nearest to `a`. -/
def significandOfNat (a : Nat) : Nat :=
  if a.log2 ≤ 52 then a * pow2 (52 - a.log2) else roundHalfEven a (pow2 (a.log2 - 52))

theorem significandOfNat_le (a : Nat) : significandOfNat a ≤ pow2 53 := by
  rw [significandOfNat]
  split
  case isTrue h => exact Nat.le_of_lt (mul_pow2_lt h)
  case isFalse h => exact Nat.le_trans (roundHalfEven_le ..) (div_pow2_lt (by omega))

/-! ## Words -/

theorem infinityBound_eq : infinityBound + pow2 970 = pow2 54 * pow2 970 := by
  have h : pow2 54 * pow2 970 = pow2 1024 := by rw [← pow2_add]
  have hle : pow2 970 ≤ pow2 1024 := pow2_le_pow2 (by omega)
  rw [infinityBound]
  omega

theorem infinityBound_pos : 0 < infinityBound := by
  have hlt : pow2 970 < pow2 971 := by
    have := pow2_pos 970
    rw [pow2_succ 970]
    omega
  exact Nat.sub_pos_of_lt (Nat.lt_of_lt_of_le hlt (pow2_le_pow2 (by omega)))

theorem lt_infinityBound_of_log2_lt {a : Nat} (h : a.log2 < 1023) : a < infinityBound := by
  have hbound := infinityBound_eq
  have h53 : pow2 1023 = pow2 53 * pow2 970 := by rw [← pow2_add]
  have h54 : pow2 54 = 2 * pow2 53 := pow2_succ 53
  have hpos : pow2 970 ≤ pow2 53 * pow2 970 := Nat.le_mul_of_pos_left _ (pow2_pos 53)
  have ha : a < pow2 1023 := Nat.lt_of_lt_of_le (lt_pow2_log2 a) (pow2_le_pow2 h)
  rw [h54, Nat.mul_assoc] at hbound
  omega

theorem infinityBound_le_pow2 (h : 1023 < n) : infinityBound ≤ pow2 n :=
  Nat.le_trans (Nat.sub_le _ _) (pow2_le_pow2 h)

/-- With the greatest exponent of finite numbers rounding decides: from the bound on it reaches the
next power of two. -/
theorem significandOfNat_lt_iff {a : Nat} (hlog : a.log2 = 1023) :
    significandOfNat a < pow2 53 ↔ a < infinityBound := by
  have hbound := infinityBound_eq
  have h53 : pow2 53 = 2 * pow2 52 := pow2_succ 52
  have h971 : pow2 971 = 2 * pow2 970 := pow2_succ 970
  have h54 : pow2 54 * pow2 970 = 2 * pow2 52 * (2 * pow2 970) := by
    rw [← h53, ← h971, ← pow2_add, ← pow2_add]
  have ha : a < 2 * pow2 52 * (2 * pow2 970) := by
    calc a
      _ < pow2 (a.log2 + 1) := lt_pow2_log2 a
      _ = 2 * pow2 52 * (2 * pow2 970) := by rw [hlog, ← h54, ← pow2_add]
  rw [significandOfNat, hlog, if_neg (by omega), show 1023 - 52 = 971 from rfl, h53, h971,
    roundHalfEven_lt_iff (pow2_pos 970) ha, ← h54]
  omega

theorem wordOfNat_eq {a : Nat} (ha : a ≠ 0) :
    wordOfNat a = min ((a.log2 + 1022) * pow2 52 + significandOfNat a) infinityWord := by
  rw [wordOfNat, if_neg ha]
  rfl

/-- Exactly the numbers below the bound become finite. -/
theorem wordOfNat_lt_iff (a : Nat) : wordOfNat a < infinityWord ↔ a < infinityBound := by
  have h53 : pow2 53 = 2 * pow2 52 := pow2_succ 52
  have hinf : infinityWord = 2047 * pow2 52 := rfl
  by_cases ha : a = 0
  · subst ha
    exact iff_of_true (by decide) (lt_infinityBound_of_log2_lt (by simp))
  have hmin (x : Nat) : min x infinityWord < infinityWord ↔ x < infinityWord := by omega
  rw [wordOfNat_eq ha, hmin]
  rcases Nat.lt_trichotomy a.log2 1023 with hlog | hlog | hlog
  · refine iff_of_true ?_ (lt_infinityBound_of_log2_lt hlog)
    have hpos := pow2_pos 52
    have hm := significandOfNat_le a
    have he : (a.log2 + 1022) * pow2 52 ≤ 2044 * pow2 52 := Nat.mul_le_mul_right _ (by omega)
    omega
  · rw [← significandOfNat_lt_iff hlog, hlog]
    omega
  · have hle : infinityBound ≤ a := Nat.le_trans (infinityBound_le_pow2 hlog) (pow2_log2_le ha)
    refine iff_of_false ?_ (Nat.not_lt.mpr hle)
    have hm : pow2 52 ≤ significandOfNat a := by
      rw [significandOfNat, if_neg (by omega)]
      exact Nat.le_trans (pow2_le_div ha (by omega)) (le_roundHalfEven ..)
    have he : 2046 * pow2 52 ≤ (a.log2 + 1022) * pow2 52 := Nat.mul_le_mul_right _ (by omega)
    omega

theorem wordOfNat_le (a : Nat) : wordOfNat a ≤ infinityWord := by
  unfold wordOfNat
  split
  · exact Nat.zero_le _
  · exact Nat.min_le_right ..

theorem word_ofInt (n : Int) :
    (ofInt n).word = (if n < 0 then pow2 63 else 0) + wordOfNat n.natAbs := by
  have hle := wordOfNat_le n.natAbs
  have hinf : infinityWord < pow2 63 := by decide
  have h64 : pow2 64 = 2 * pow2 63 := rfl
  refine Nat.mod_eq_of_lt (b := pow2 64) ?_
  split <;> omega

/-- The sign does not show in the exponent. -/
theorem exponent_ofInt (n : Int) : (ofInt n).exponent = wordOfNat n.natAbs / pow2 52 := by
  have hle := wordOfNat_le n.natAbs
  have hinf : infinityWord < 2048 * pow2 52 := by decide
  have hdiv : wordOfNat n.natAbs / pow2 52 < 2048 :=
    (Nat.div_lt_iff_lt_mul (pow2_pos 52)).mpr (Nat.lt_of_le_of_lt hle hinf)
  have h63 : pow2 63 = pow2 52 * 2048 := rfl
  rw [exponent, word_ofInt]
  split
  · rw [h63, Nat.mul_add_div (pow2_pos 52), Nat.add_mod_left, Nat.mod_eq_of_lt hdiv]
  · rw [Nat.zero_add, Nat.mod_eq_of_lt hdiv]

theorem isFinite_ofInt_iff (n : Int) : (ofInt n).isFinite ↔ n.natAbs < infinityBound := by
  have hle : wordOfNat n.natAbs / pow2 52 ≤ 2047 :=
    Nat.div_le_of_le_mul (Nat.mul_comm .. ▸ wordOfNat_le n.natAbs)
  rw [← wordOfNat_lt_iff, isFinite, exponent_ofInt, infinityWord,
    ← Nat.div_lt_iff_lt_mul (pow2_pos 52), bne_iff_ne]
  omega

/-! ## Integers -/

/-- An integer of at most 64 bits is in range. -/
theorem isFinite_ofInt_of_natAbs_lt {n : Int} (h : n.natAbs < pow2 64) : (ofInt n).isFinite := by
  refine (isFinite_ofInt_iff n).mpr (lt_infinityBound_of_log2_lt ?_)
  by_cases hn : n.natAbs = 0
  · simp [hn]
  · exact Nat.lt_trans ((Nat.log2_lt hn).mpr h) (by omega)

theorem natAbs_sign_mul_visible (n : Int) :
    (n.sign * visible n.natAbs).natAbs = visible n.natAbs := by
  by_cases hn : n = 0
  · subst hn
    rfl
  · rw [Int.natAbs_mul, Int.natAbs_sign_of_ne_zero hn, Int.natAbs_natCast, Nat.one_mul]

theorem infinityBound_le_visible {a : Nat} (h : infinityBound ≤ a) : infinityBound ≤ visible a := by
  rcases Nat.lt_trichotomy a.log2 1023 with hlog | hlog | hlog
  · exact absurd (lt_infinityBound_of_log2_lt hlog) (Nat.not_lt.mpr h)
  · refine le_visible ?_ h
    rw [leadingUnit, hlog]
    exact Nat.dvd_sub (pow2_dvd_pow2 (by omega)) (pow2_dvd_pow2 (by omega))
  · have ha : a ≠ 0 := by
      rintro rfl
      simp at hlog
    have hpower : pow2 a.log2 ≤ visible a :=
      le_visible (pow2_dvd_pow2 (by omega)) (pow2_log2_le ha)
    exact Nat.le_trans (infinityBound_le_pow2 hlog) hpower

/-- What is not seen of an integer makes no difference to whether it is in range. -/
theorem isFinite_ofBig_iff (n : Int) : (ofBig n).isFinite ↔ n.natAbs < infinityBound := by
  rw [ofBig, isFinite_ofInt_iff, natAbs_sign_mul_visible]
  refine ⟨fun h => ?_, Nat.lt_of_le_of_lt (visible_le _)⟩
  exact Nat.lt_of_not_le fun hle => Nat.not_le.mpr h (infinityBound_le_visible hle)

/-- Whatever is out of range becomes the infinity of its sign. -/
theorem ofBig_eq_infinity {n : Int} (h : infinityBound ≤ n.natAbs) :
    ofBig n = infinity (n < 0) := by
  have hbound : infinityBound ≤ visible n.natAbs := infinityBound_le_visible h
  have hpos : 0 < visible n.natAbs := Nat.lt_of_lt_of_le infinityBound_pos hbound
  have hword : wordOfNat (visible n.natAbs) = infinityWord :=
    Nat.le_antisymm (wordOfNat_le _) (Nat.le_of_not_lt fun hlt =>
      Nat.not_lt.mpr hbound ((wordOfNat_lt_iff _).mp hlt))
  have hsign : n.sign * visible n.natAbs < 0 ↔ n < 0 := by
    rcases Int.lt_trichotomy n 0 with hn | rfl | hn
    · rw [Int.sign_eq_neg_one_of_neg hn]
      omega
    · rw [Int.sign_zero, Int.zero_mul]
    · rw [Int.sign_eq_one_of_pos hn]
      omega
  rw [ofBig, ofInt, natAbs_sign_mul_visible, hword, infinity]
  simp only [hsign, decide_eq_true_eq]

end Lisplet.Binary64
