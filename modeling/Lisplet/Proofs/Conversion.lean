import Lisplet.Proofs.Equality
import Lisplet.Proofs.WholeNumber
import Lisplet.Value.Convert

/-!
Conversions between the three kinds of numbers. What an integer converts to depends on its value
alone, not on the size in which it is kept; only an integer out of the range of floats converts to
something that it is not equal to. Main statements: `converted_integer_equal_iff`, and
`number_conversions_commute` for conversions one after the other.
-/

namespace Lisplet

namespace Value

/-- What an integer converts to. -/
def convertInteger? (n : Int) : Ty → Option Value
  | .int => (narrow? n).map int
  | .bigInt => some (big n)
  | .float => some (float (.ofBig n))
  | _ => none

theorem toType_eq_convertInteger? {v : Value} (hv : v.payload.integer? = some n)
    (ht : Interface.number.isSatisfiedBy (Ty.deref t)) : v.toType t =
      match convertInteger? n t.deref with
      | some r => .ok r
      | none => .fail (.cannotConvert v.ty t.deref) := by
  have hseq : v.asSeq? = none := by
    rw [asSeq?]
    rcases integer?_eq_some.mp hv with ⟨m, hp, -⟩ | hp <;> rw [hp]
  rw [toType_of_asSeq?_eq_none hseq, ← ty_payload]
  generalize t.deref = u at ht ⊢
  rcases integer?_eq_some.mp hv with ⟨m, hp, rfl⟩ | hp
  · rw [hp]
    cases u with
    | int =>
      rw [convertInteger?, narrow?_toInt]
      rfl
    | bigInt => rfl
    | float =>
      rw [convertInteger?, Binary64.ofBig_toInt]
      rfl
    | _ => cases ht
  · rw [hp]
    cases u with
    | int | bigInt | float => rfl
    | _ => cases ht

theorem convertInteger?_isSome (ht : Interface.number.isSatisfiedBy t) :
    (convertInteger? n t).isSome ↔
      (t = .int → Int64.minValue.toInt ≤ n ∧ n ≤ Int64.maxValue.toInt) := by
  cases t with
  | int =>
    rw [convertInteger?, Option.isSome_map, narrow?, forall_prop_of_true rfl]
    split
    case isTrue h => exact iff_of_true rfl h
    case isFalse h => exact iff_of_false Bool.false_ne_true h
  | bigInt | float =>
    refine iff_of_true rfl fun hint => ?_
    cases hint
  | _ => cases ht

theorem float_ofBig_beq {v : Value} (hv : v.payload.integer? = some n) :
    (float (.ofBig n)).beq v ↔ n.natAbs < Binary64.infinityBound := by
  rw [float_beq, hv, ← Binary64.isFinite_ofBig_iff]
  refine ⟨?_, fun hfinite => .inr ⟨n, rfl, Binary64.ofInteger?_eq_some.mpr ⟨hfinite, rfl⟩⟩⟩
  rintro (hpayload | ⟨_, heq, hn⟩)
  · rw [hpayload] at hv
    cases hv
  · obtain rfl := Option.some.inj heq
    exact (Binary64.ofInteger?_eq_some.mp hn).1

/-- The result is an integer of the same value, or the float that rounding takes it to. -/
theorem convertInteger?_eq_some (h : convertInteger? n t = some r) :
    t ≠ .float ∧ r.integer? = some n ∨ t = .float ∧ r = float (.ofBig n) := by
  cases t with
  | int =>
    obtain ⟨i, hi, rfl⟩ := Option.map_eq_some_iff.mp h
    exact .inl ⟨nofun, congrArg some (toInt_of_narrow? hi)⟩
  | bigInt => exact .inl ⟨nofun, congrArg integer? (Option.some.inj h).symm⟩
  | float => exact .inr ⟨rfl, (Option.some.inj h).symm⟩
  | _ => cases h

end Value

/-- An integer converts to every kind of number but to an integer of 64 bits that it does not fit.
The result is equal to it, unless it is out of the range of floats: then the result is the infinity
of its sign, which no integer is equal to. -/
theorem converted_integer_equal_iff {v : Value} {n : Int} {t : Ty}
    (hv : v.payload.integer? = some n) (ht : Interface.number.isSatisfiedBy t.deref) :
    ((∃ r, v.toType t = .ok r) ↔
      (t.deref = .int → Int64.minValue.toInt ≤ n ∧ n ≤ Int64.maxValue.toInt)) ∧
    ∀ r, v.toType t = .ok r →
      (r == v ↔ (t.deref = .float → n.natAbs < Binary64.infinityBound)) ∧
      (¬r == v → r = .float (.infinity (n < 0))) := by
  rw [← Value.convertInteger?_isSome ht, Value.toType_eq_convertInteger? hv ht]
  cases hconvert : Value.convertInteger? n t.deref with
  | none => exact ⟨iff_of_false nofun nofun, nofun⟩
  | some r =>
    refine ⟨iff_of_true ⟨r, rfl⟩ rfl, ?_⟩
    rintro _ ⟨⟩
    change (r.beq v ↔ _) ∧ (¬r.beq v → _)
    rcases Value.convertInteger?_eq_some hconvert with ⟨htype, hr⟩ | ⟨htype, rfl⟩
    · have hequal : r.beq v := (Value.integer_beq hr).mpr (.inl hv)
      exact ⟨iff_of_true hequal fun hfloat => absurd hfloat htype, absurd hequal⟩
    · rw [Value.float_ofBig_beq hv, forall_prop_of_true htype]
      exact ⟨Iff.rfl, fun hne => by rw [Binary64.ofBig_eq_infinity (Nat.le_of_not_lt hne)]⟩

theorem converted_integer_equal_iff_rounded :
    let v : Value := .resolved (.big 9007199254740993)
    let r : Value := .float (.ofBig 9007199254740993)
    (v.payload.integer? = some 9007199254740993 ∧
      Interface.number.isSatisfiedBy (Ty.deref .float)) ∧ v.toType .float = .ok r ∧ r == v := by
  intro v r
  have hv : v.payload.integer? = some 9007199254740993 := rfl
  have ht : Interface.number.isSatisfiedBy (Ty.deref .float) := rfl
  have hresult : v.toType .float = .ok r := rfl
  have hequal := ((converted_integer_equal_iff hv ht).2 r hresult).1
  exact ⟨⟨hv, ht⟩, hresult, hequal.mpr fun _ => by decide +kernel⟩

/-- An integer of 401 digits converts to a float that it is not equal to. -/
theorem infinity_from_integer :
    (Value.big (pow10 400)).toType .float = .ok (.float (.ofBig (pow10 400))) ∧
      Binary64.ofBig (pow10 400) = .infinity false ∧
      ¬Value.float (.infinity false) == Value.big (pow10 400) :=
  ⟨rfl, by decide +kernel, by decide +kernel⟩

/-! ## One conversion after the other -/

namespace Value

/-- Converts a value to one type and the result to another. -/
def convertVia (v : Value) (via target : Ty) : Outcome Value := do (← v.toType via).toType target

theorem convertVia_eq_ok {v : Value} :
    v.convertVia via target = .ok r ↔ ∃ w, v.toType via = .ok w ∧ w.toType target = .ok r := by
  rw [convertVia]
  cases v.toType via with
  | ok w => simp [bind, Except.bind]
  | error e => simp [bind, Except.bind]

theorem toType_float_int_eq_ok {x : Binary64} :
    (float x).toType .int = .ok r ↔ (x.trunc?.bind narrow?).map int = some r :=
  toType_eq_ok_iff_convertNumber? rfl nofun

theorem toType_float_bigInt_eq_ok {x : Binary64} :
    (float x).toType .bigInt = .ok r ↔ x.trunc?.map big = some r :=
  toType_eq_ok_iff_convertNumber? rfl nofun

theorem toType_big_int_eq_ok : (big n).toType .int = .ok r ↔ (narrow? n).map int = some r :=
  toType_eq_ok_iff_convertNumber? rfl nofun

/-- The way over integers of any size leads a float to the same integer of 64 bits. -/
theorem convertVia_bigInt_int {x : Binary64} :
    (float x).convertVia .bigInt .int = .ok r ↔ (float x).toType .int = .ok r := by
  rw [convertVia_eq_ok, toType_float_int_eq_ok]
  cases hx : x.trunc? with
  | none => simp [toType_float_bigInt_eq_ok, hx]
  | some n => simp [toType_float_bigInt_eq_ok, hx, toType_big_int_eq_ok]

theorem toType_big_float (n : Int) : (big n).toType .float = .ok (float (.ofBig n)) := rfl

theorem toType_int_float (n : Int64) : (int n).toType .float = .ok (float (.ofInt n.toInt)) := rfl

theorem toType_int_bigInt (n : Int64) : (int n).toType .bigInt = .ok (big n.toInt) := rfl

/-- An integer is narrowed exactly when it fits. -/
theorem exists_toType_big_int : (∃ r, (big n).toType .int = .ok r) ↔
    Int64.minValue.toInt ≤ n ∧ n ≤ Int64.maxValue.toInt := by
  simp only [toType_big_int_eq_ok]
  rw [← Option.isSome_iff_exists]
  exact (convertInteger?_isSome rfl).trans (forall_prop_of_true rfl)

/-- What has been narrowed comes back. -/
theorem toType_bigInt_of_narrowed (h : (big n).toType .int = .ok r) :
    r.toType .bigInt = .ok (big n) := by
  obtain ⟨m, hm, rfl⟩ := Option.map_eq_some_iff.mp (toType_big_int_eq_ok.mp h)
  rw [toType_int_bigInt, toInt_of_narrow? hm]

/-- The floats that come back from their integers. -/
theorem convertVia_bigInt_float {x : Binary64} :
    (float x).convertVia .bigInt .float = .ok (float x) ↔
      x.isFinite ∧ x.toRat.isInt ∧ x ≠ .negativeZero := by
  rw [convertVia_eq_ok]
  cases hx : x.trunc? with
  | none =>
    have hfinite : ¬x.isFinite := by
      intro h
      rw [Binary64.trunc?_eq, if_pos h] at hx
      cases hx
    refine iff_of_false ?_ fun h => hfinite h.1
    rintro ⟨w, hw, -⟩
    rw [toType_float_bigInt_eq_ok, hx] at hw
    cases hw
  | some n =>
    have hfinite : x.isFinite := (Binary64.trunc?_eq_some_iff.mp hx).1
    have hbig : (float x).toType .bigInt = .ok (big n) :=
      toType_float_bigInt_eq_ok.mpr (congrArg (Option.map big) hx)
    have hback : (big n).toType .float = .ok (float x) ↔ Binary64.ofBig n = x := by
      rw [toType_big_float]
      simp
    rw [hbig, and_iff_right hfinite, ← Binary64.ofBig_eq_iff hx, ← hback]
    exact ⟨fun ⟨w, hw, h⟩ => Except.ok.inj hw ▸ h, fun h => ⟨big n, rfl, h⟩⟩

/-- Integers between the powers of two come back from their floats. -/
theorem convertVia_float_int {n : Int64} (h : n.toInt.natAbs ≤ pow2 53) :
    (int n).convertVia .float .int = .ok (int n) := by
  refine convertVia_eq_ok.mpr ⟨_, toType_int_float n, toType_float_int_eq_ok.mpr ?_⟩
  rw [Binary64.trunc?_ofInt (Binary64.isExact_of_le h), Option.bind_some, narrow?_toInt]
  rfl

end Value

/-- The conversions between kinds of numbers agree along every way. A float becomes the integer that
is left of it without its fraction, in one step or over integers of any size. An integer becomes the
same float in either size, and goes from one size to the other and back unchanged. Floats without a
fraction come back from their integers, except for the negative zero, and so do integers up to
`2^53` from their floats. -/
theorem number_conversions_commute :
    (∀ (x : Binary64) (n : Int), (Value.float x).toType .bigInt = .ok (.big n) ↔
      x.isFinite ∧ x.toRat.num.tdiv x.toRat.den = n) ∧
    (∀ (x : Binary64) (n : Int64), (Value.float x).toType .int = .ok (.int n) ↔
      (Value.float x).convertVia .bigInt .int = .ok (.int n)) ∧
    (∀ n : Int64, ∃ y, (Value.int n).toType .float = .ok (.float y) ∧
      (Value.int n).convertVia .bigInt .float = .ok (.float y)) ∧
    (∀ n : Int64, (Value.int n).convertVia .bigInt .int = .ok (.int n)) ∧
    (∀ n : Int, (∃ r, (Value.big n).toType .int = .ok r) ↔
      Int64.minValue.toInt ≤ n ∧ n ≤ Int64.maxValue.toInt) ∧
    (∀ (n : Int) (r : Value), (Value.big n).toType .int = .ok r →
      r.toType .bigInt = .ok (.big n)) ∧
    (∀ x : Binary64, (Value.float x).convertVia .bigInt .float = .ok (.float x) ↔
      x.isFinite ∧ x.toRat.isInt ∧ x ≠ .negativeZero) ∧
    ∀ n : Int64, n.toInt.natAbs ≤ pow2 53 →
      (Value.int n).convertVia .float .int = .ok (.int n) := by
  refine ⟨fun x n => ?_, fun x n => Value.convertVia_bigInt_int.symm, fun n => ?_, fun n => ?_,
    fun n => Value.exists_toType_big_int, fun n r => Value.toType_bigInt_of_narrowed,
    fun x => Value.convertVia_bigInt_float, fun n => Value.convertVia_float_int⟩
  · rw [Value.toType_float_bigInt_eq_ok, ← Binary64.trunc?_eq_some_iff]
    simp
  · refine ⟨_, Value.toType_int_float n, ?_⟩
    rw [← Binary64.ofBig_toInt]
    exact Value.convertVia_eq_ok.mpr ⟨_, Value.toType_int_bigInt n, Value.toType_big_float _⟩
  · refine Value.convertVia_eq_ok.mpr
      ⟨_, Value.toType_int_bigInt n, Value.toType_big_int_eq_ok.mpr ?_⟩
    rw [narrow?_toInt]
    rfl

/-- The least 64-bit integer is a power of two, so its float converts to it and it comes back from
both other kinds. An integer that has come back from a float is `-2^53`. -/
theorem number_conversions_commute_least :
    let least : Int := -9223372036854775808
    let x : Binary64 := ⟨0xC3E0000000000000⟩
    let n : Int64 := -9007199254740992
    ((Value.big least).toType .int = .ok (.int Int64.minValue) ∧ n.toInt.natAbs ≤ pow2 53) ∧
      (Value.float x).toType .int = .ok (.int Int64.minValue) ∧
      (Value.float x).convertVia .bigInt .int = .ok (.int Int64.minValue) ∧
      (Value.int Int64.minValue).toType .bigInt = .ok (.big least) ∧
      (Value.int n).convertVia .float .int = .ok (.int n) := by
  intro least x n
  obtain ⟨hfloat, hway, -, -, -, hback, -, hround⟩ := number_conversions_commute
  have hbig : (Value.float x).toType .bigInt = .ok (.big least) :=
    (hfloat x least).mpr (by decide +kernel)
  have hleast : (Value.big least).toType .int = .ok (.int Int64.minValue) := rfl
  have hvia : (Value.float x).convertVia .bigInt .int = .ok (.int Int64.minValue) :=
    Value.convertVia_eq_ok.mpr ⟨_, hbig, hleast⟩
  have hn : n.toInt.natAbs ≤ pow2 53 := by decide
  exact ⟨⟨hleast, hn⟩, (hway x _).mpr hvia, hvia, hback least _ hleast, hround n hn⟩

end Lisplet
