import Mathlib.Data.Rat.Floor
import Lisplet.Function.Builtin
import Lisplet.Proofs.Equality

/-!
Ranges as arithmetic progressions. A range is computed in 64 bits, and it has the elements that it
would have in integers of any size, because a sum that does not fit lies behind the end. Main
statement: `range_is_exact_progression`.
-/

namespace Lisplet

/-! ## Progressions -/

/-- Whether `i` lies strictly before `stop` in the direction of `step`, in integers of any size. -/
def Precedes (i stop step : Int) : Prop := (0 < step ∧ i < stop) ∨ (step < 0 ∧ stop < i)

instance (i stop step : Int) : Decidable (Precedes i stop step) :=
  inferInstanceAs (Decidable (_ ∨ _))

/-- What is behind an integer that is not before the end is not before it either. -/
theorem Precedes.of_add_mul {k : Nat} (h : Precedes (i + k * step) stop step) :
    Precedes i stop step := by
  rcases h with ⟨hstep, h⟩ | ⟨hstep, h⟩
  · have hk : 0 ≤ k * step := Int.mul_nonneg (Int.natCast_nonneg k) (Int.le_of_lt hstep)
    exact .inl ⟨hstep, by omega⟩
  · have hk : k * step ≤ 0 :=
      Int.mul_nonpos_of_nonneg_of_nonpos (Int.natCast_nonneg k) (Int.le_of_lt hstep)
    exact .inr ⟨hstep, by omega⟩

theorem precedes_iff_lt_ceil {step : Int} (hstep : step ≠ 0) (start stop : Int) (k : Nat) :
    Precedes (start + k * step) stop step ↔
      k < ⌈((stop - start : Int) : ℚ) / (step : ℚ)⌉.toNat := by
  rw [Int.lt_toNat, Int.lt_ceil]
  rcases Int.lt_or_gt_of_ne hstep with hneg | hpos
  · have hneg' : (step : ℚ) < 0 := Int.cast_lt_zero.mpr hneg
    rw [lt_div_iff_of_neg hneg', Int.cast_natCast, Precedes]
    norm_cast
    omega
  · have hpos' : (0 : ℚ) < step := Int.cast_pos.mpr hpos
    rw [lt_div_iff₀ hpos', Int.cast_natCast, Precedes]
    norm_cast
    omega

/-- The list `xs` has the integers `start`, `start + step`, `start + 2 * step`, ... that lie before
`stop`, all of them, in this order and each once. -/
structure IsProgression (start stop step : Int64) (xs : List Int64) : Prop where
  /-- There is an element at a place just when the integer that belongs there lies before the
  end. -/
  lt_length_iff (k : Nat) :
    k < xs.length ↔ Precedes (start.toInt + k * step.toInt) stop.toInt step.toInt
  getElem (k : Nat) (h : k < xs.length) : xs[k].toInt = start.toInt + k * step.toInt
  length_eq : xs.length = ⌈((stop.toInt - start.toInt : Int) : ℚ) / (step.toInt : ℚ)⌉.toNat
  nodup : xs.Nodup

/-! ## Ranges -/

theorem narrow?_eq_none {n : Int} (h : narrow? n = none) :
    n < Int64.minValue.toInt ∨ Int64.maxValue.toInt < n := by
  unfold narrow? at h
  split at h
  case isTrue => cases h
  case isFalse hn => omega

theorem isBefore_iff_precedes {i stop step : Int64} :
    IsBefore i stop step ↔ Precedes i.toInt stop.toInt step.toInt := Iff.rfl

/-- Where a range ends because the next integer does not fit, that one is not before the end. -/
theorem not_precedes_of_addInRange?_eq_none {i step : Int64} (h : addInRange? i step = none)
    (stop : Int64) : ¬Precedes (i.toInt + step.toInt) stop.toInt step.toInt := by
  have hleast := stop.minValue_le_toInt
  have hgreatest := stop.toInt_le
  have hleast' := i.minValue_le_toInt
  have hgreatest' := i.toInt_le
  rcases narrow?_eq_none h with h | h
  · rintro (⟨hstep, hlt⟩ | ⟨hstep, hlt⟩) <;> omega
  · rintro (⟨hstep, hlt⟩ | ⟨hstep, hlt⟩) <;> omega

theorem add_succ_mul (i step : Int) (k : Nat) :
    i + (k + 1 : Nat) * step = i + step + k * step := by
  rw [Int.natCast_succ, Int.add_mul, Int.one_mul]
  omega

theorem steps_of_not_isBefore (h : ¬IsBefore i stop step) : steps i stop step = [] := by
  rw [steps, if_neg h]

theorem steps_of_isBefore (h : IsBefore i stop step) :
    steps i stop step = i :: (addInRange? i step).elim [] (steps · stop step) := by
  rw [steps, if_pos h]
  cases addInRange? i step <;> rfl

/-- The induction is on the range: behind its first element there is the range from the sum on, or
nothing when the sum does not fit. -/
theorem getElem?_steps (start stop step : Int64) (k : Nat) :
    (steps start stop step)[k]?.map Int64.toInt =
      if Precedes (start.toInt + k * step.toInt) stop.toInt step.toInt then
        some (start.toInt + k * step.toInt)
      else none := by
  induction start using steps.induct stop step generalizing k with
  | case1 i hi ih =>
    rw [steps_of_isBefore hi]
    cases k with
    | zero =>
      have hzero : i.toInt + (0 : Nat) * step.toInt = i.toInt := by simp
      rw [hzero, if_pos (isBefore_iff_precedes.mp hi)]
      rfl
    | succ k =>
      rw [List.getElem?_cons_succ, add_succ_mul]
      cases hj : addInRange? i step with
      | some j =>
        rw [← toInt_of_narrow? hj]
        exact ih j hj k
      | none =>
        have hnot : ¬Precedes (i.toInt + step.toInt + k * step.toInt) stop.toInt step.toInt :=
          fun h => not_precedes_of_addInRange?_eq_none hj stop h.of_add_mul
        rw [if_neg hnot]
        rfl
  | case2 i hi =>
    have hnot : ¬Precedes (i.toInt + k * step.toInt) stop.toInt step.toInt :=
      fun h => hi (isBefore_iff_precedes.mpr h.of_add_mul)
    rw [steps_of_not_isBefore hi, if_neg hnot]
    rfl

theorem isProgression_steps {step : Int64} (hstep : step ≠ 0) (start stop : Int64) :
    IsProgression start stop step (steps start stop step) := by
  have hget := getElem?_steps start stop step
  have hstep' : step.toInt ≠ 0 := fun h => hstep (Int64.toInt_inj.mp h)
  have hlength (k : Nat) : k < (steps start stop step).length ↔
      Precedes (start.toInt + k * step.toInt) stop.toInt step.toInt := by
    have hk := congrArg Option.isSome (hget k)
    rw [Option.isSome_map] at hk
    split at hk
    case isTrue h => exact iff_of_true (by simpa using hk) h
    case isFalse h => exact iff_of_false (by simpa using hk) h
  have helem (k : Nat) (h : k < (steps start stop step).length) :
      (steps start stop step)[k].toInt = start.toInt + k * step.toInt := by
    have hk := hget k
    rw [if_pos ((hlength k).mp h), List.getElem?_eq_getElem h] at hk
    exact Option.some.inj hk
  refine ⟨hlength, helem, ?_, ?_⟩
  · exact eq_of_forall_lt_iff fun k => (hlength k).trans (precedes_iff_lt_ceil hstep' ..)
  · refine List.pairwise_iff_getElem.mpr fun i j hi hj hij heq => ?_
    have hmul : i * step.toInt = j * step.toInt := by
      rw [← Int.add_right_inj start.toInt, ← helem i hi, ← helem j hj, heq]
    exact Nat.ne_of_lt hij (Int.natCast_inj.mp (Int.eq_of_mul_eq_mul_right hstep' hmul))

/-! ## Arguments -/

namespace Value

/-- The 64-bit integer that a value is, of either size and marked or not. -/
def IsInt64 (v : Value) (n : Int64) : Prop := v.payload.integer? = some n.toInt

/-- What is wrong with a value that is no 64-bit integer. -/
def int64Error (context : String) (v : Value) : Error :=
  match v.payload.integer? with
  | some n => .integerOutOfRange context n
  | none => .typeIn context "int" v.typeName

theorem requireInt_of_isInt64 {v : Value} (h : v.IsInt64 n) (context : String) :
    v.requireInt context = .ok n := by
  rw [requireInt]
  rcases integer?_eq_some.mp h with ⟨m, hp, hm⟩ | hp
  · rw [hp, Int64.toInt_inj.mp hm]
  · simp only [hp, narrow?_toInt]

theorem requireInt_of_not_isInt64 {v : Value} (h : ∀ n, ¬v.IsInt64 n) (context : String) :
    v.requireInt context = .fail (v.int64Error context) := by
  rw [requireInt, int64Error, ← typeName_payload]
  cases hp : v.payload with
  | int n => exact absurd (congrArg integer? hp) (h n)
  | big n =>
    cases hn : narrow? n with
    | some i =>
      refine absurd ((congrArg integer? hp).trans ?_) (h i)
      rw [toInt_of_narrow? hn]
      rfl
    | none => simp only [hn, integer?]
  | _ => rfl

end Value

namespace Outcome

theorem mapM_eq_ok {f : α → Outcome β} (h : List.Forall₂ (fun a b => f a = .ok b) as bs) :
    as.mapM f = .ok bs := by
  induction h with
  | nil => rfl
  | cons hab _ ih =>
    rw [List.mapM_cons, hab, ih]
    rfl

/-- The first failure of a row of checks is the failure of the row. -/
theorem mapM_eq_error {f : α → Outcome β} {us : List α} (hus : ∀ u ∈ us, ∃ b, f u = .ok b)
    (hv : f v = .error e) (ws : List α) : (us ++ v :: ws).mapM f = .error e := by
  induction us with
  | nil =>
    rw [List.nil_append, List.mapM_cons, hv]
    rfl
  | cons u us ih =>
    obtain ⟨b, hb⟩ := hus u List.mem_cons_self
    rw [List.cons_append, List.mapM_cons, hb, ih fun u hu => hus u (List.mem_cons_of_mem _ hu)]
    rfl

end Outcome

namespace Function

/-- A range whose start is zero and whose step is one where they are not given. -/
def rangeWithDefaults : List Int64 → Outcome (List Int64)
  | [stop] => integerRange 0 stop 1
  | [start, stop] => integerRange start stop 1
  | [start, stop, step] => integerRange start stop step
  | ns => .fail (.arityRange "range" 1 3 ns.length)

/-- The arguments are looked at from the left, and all of them before the step is. -/
theorem applyRange_eq_mapM (hne : args ≠ []) (hlength : args.length ≤ 3) :
    applyRange args = do
      let ns ← args.mapM (·.requireInt "range")
      return .list ((← rangeWithDefaults ns).map .int) := by
  rcases args with _ | ⟨a, _ | ⟨b, _ | ⟨c, _ | ⟨d, args⟩⟩⟩⟩
  · exact absurd rfl hne
  · simp [applyRange, rangeBounds, rangeWithDefaults]
  · simp [applyRange, rangeBounds, rangeWithDefaults]
  · simp [applyRange, rangeBounds, rangeWithDefaults]
  · simp only [List.length_cons] at hlength
    omega

theorem applyRange_of_isInt64 (hne : args ≠ []) (hlength : args.length ≤ 3)
    (hargs : List.Forall₂ Value.IsInt64 args ns) :
    applyRange args = (fun xs => .list (xs.map .int)) <$> rangeWithDefaults ns := by
  have hns : args.mapM (·.requireInt "range") = .ok ns :=
    Outcome.mapM_eq_ok (hargs.imp fun _ _ h => Value.requireInt_of_isInt64 h "range")
  rw [applyRange_eq_mapM hne hlength, hns]
  rfl

theorem applyRange_of_not_isInt64 (hlength : (us ++ v :: ws).length ≤ 3)
    (hus : ∀ u ∈ us, ∃ n, Value.IsInt64 u n) (hv : ∀ n, ¬v.IsInt64 n) :
    applyRange (us ++ v :: ws) = .fail (v.int64Error "range") := by
  have hus' u (hu : u ∈ us) : ∃ n, u.requireInt "range" = .ok n := by
    obtain ⟨n, hn⟩ := hus u hu
    exact ⟨n, Value.requireInt_of_isInt64 hn "range"⟩
  rw [applyRange_eq_mapM (by simp) hlength,
    Outcome.mapM_eq_error hus' (Value.requireInt_of_not_isInt64 hv "range") ws]
  rfl

end Function

/-- A range has the integers from its start on that lie before its end, as they are in integers of
any size, and it fails only when its step is zero. As a function it takes one to three integers of
either size, and fails on the first argument that is not one of 64 bits. -/
theorem range_is_exact_progression :
    (∀ start stop step : Int64, step ≠ 0 →
      ∃ xs, integerRange start stop step = .ok xs ∧ IsProgression start stop step xs) ∧
    (∀ start stop, integerRange start stop 0 = .fail .zeroStep) ∧
    (∀ args ns, args ≠ [] → args.length ≤ 3 → List.Forall₂ Value.IsInt64 args ns →
      Function.applyRange args =
        (fun xs => .list (xs.map .int)) <$> Function.rangeWithDefaults ns) ∧
    ∀ us v ws, (us ++ v :: ws).length ≤ 3 → (∀ u ∈ us, ∃ n, Value.IsInt64 u n) →
      (∀ n, ¬v.IsInt64 n) → Function.applyRange (us ++ v :: ws) = .fail (v.int64Error "range") := by
  refine ⟨?_, ?_, ?_, ?_⟩
  · exact fun start stop step hstep => ⟨_, if_neg hstep, isProgression_steps hstep start stop⟩
  · exact fun start stop => if_pos rfl
  · exact fun args ns => Function.applyRange_of_isInt64
  · exact fun us v ws => Function.applyRange_of_not_isInt64

/-- From the least integer to the greatest one, by the greatest one: the fourth element would not
fit. A marked integer of the larger kind is the start, and the one that does not fit is reported
before the string behind it. -/
theorem range_is_exact_progression_at_edges :
    let least := Int64.minValue
    let greatest := Int64.maxValue
    let args : List Value := [.resolved (.big least.toInt), .int greatest, .big greatest.toInt]
    let tooLarge : Value := .big (greatest.toInt + 1)
    (greatest ≠ 0 ∧ integerRange least greatest greatest = .ok [least, -1, greatest - 1] ∧
        addInRange? (greatest - 1) greatest = none) ∧
      (List.Forall₂ Value.IsInt64 args [least, greatest, greatest] ∧
        Function.applyRange args =
          .ok (.list [.int least, .int (-1), .int (greatest - 1)])) ∧
      Function.applyRange [.int 0, tooLarge, .string "one"] =
        .fail (.integerOutOfRange "range" 9223372036854775808) := by
  intro least greatest args tooLarge
  obtain ⟨hrange, -, hfit, hnot⟩ := range_is_exact_progression
  have hstep : greatest ≠ 0 := by decide
  have helements : integerRange least greatest greatest = .ok [least, -1, greatest - 1] := by
    obtain ⟨xs, hxs, hprogression⟩ := hrange least greatest greatest hstep
    have hlength : xs.length = 3 := by
      have htwo : 2 < xs.length := (hprogression.lt_length_iff 2).mpr (by decide)
      have hthree : ¬3 < xs.length := mt (hprogression.lt_length_iff 3).mp (by decide)
      omega
    obtain ⟨a, b, c, rfl⟩ := List.length_eq_three.mp hlength
    have ha : a = least :=
      Int64.toInt_inj.mp ((hprogression.getElem 0 (by simp)).trans (by decide))
    have hb : b = -1 :=
      Int64.toInt_inj.mp ((hprogression.getElem 1 (by simp)).trans (by decide))
    have hc : c = greatest - 1 :=
      Int64.toInt_inj.mp ((hprogression.getElem 2 (by simp)).trans (by decide))
    rw [hxs, ha, hb, hc]
  have hargs : List.Forall₂ Value.IsInt64 args [least, greatest, greatest] :=
    .cons rfl (.cons rfl (.cons rfl .nil))
  refine ⟨⟨hstep, helements, by decide⟩, ⟨hargs, ?_⟩, ?_⟩
  · rw [hfit args _ (List.cons_ne_nil _ _) (by decide) hargs, Function.rangeWithDefaults,
      helements]
    rfl
  · refine hnot [.int 0] tooLarge [.string "one"] (by decide) ?_ fun n hn => ?_
    · exact List.forall_mem_singleton.mpr ⟨0, rfl⟩
    · have hfits : n.toInt = greatest.toInt + 1 := (Option.some.inj hn).symm
      have hle : n.toInt ≤ greatest.toInt := n.toInt_le
      omega

end Lisplet
