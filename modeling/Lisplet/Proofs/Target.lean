import Lisplet.Proofs.Answer
import Lisplet.Proofs.Conversion

/-!
Conversions and the types they lead to. A value becomes one of the type that is asked for in one of
four ways (`Converts`), and what it becomes converts to itself. Main statement:
`conversion_reaches_target`.
-/

namespace Lisplet

namespace Value

/-- The ways in which a value becomes one of a type, which is no reference. -/
inductive Converts (v : Value) : Ty → Value → Prop
  /-- It can stand for the type once it is without its marks. -/
  | same : v.ty.isAssignableTo t → Converts v t v.payload
  | list : v.realize "to-type" = .ok vs → Converts v .list (list vs)
  | vector : v.realize "to-type" = .ok vs → Converts v .vector (vector vs)
  | number : v.payload.convertNumber? t = some r → Converts v t r

/-- What can be walked to its end has the same elements for every operation. -/
theorem exists_realize {v : Value} (hs : v.asSeq? = some s) (hv : ¬v.Endless) :
    ∃ vs, ∀ name, v.realize name = .ok vs := by
  cases hvs : s.realize? with
  | none => exact absurd ⟨s, hs, hvs⟩ hv
  | some vs => exact ⟨vs, fun name => by simp only [realize, hs, hvs]⟩

/-- A value is converted in one of these ways, or the conversion fails and names both types. -/
theorem toType_cases {v : Value} (hv : ¬v.Endless) (t : Ty) :
    (∃ r, v.toType t = .ok r ∧ v.Converts t.deref r) ∨
      v.toType t = .fail (.cannotConvert v.ty t.deref) := by
  cases hs : v.asSeq? with
  | none =>
    by_cases h : v.ty.isAssignableTo t.deref
    · exact .inl ⟨v.payload, by rw [toType_of_asSeq?_eq_none hs, if_pos h], .same h⟩
    · rw [toType_of_asSeq?_eq_none hs, if_neg h]
      cases hr : v.payload.convertNumber? t.deref with
      | some r => exact .inl ⟨r, rfl, .number hr⟩
      | none => exact .inr rfl
  | some s =>
    obtain ⟨vs, hvs⟩ := exists_realize hs hv
    by_cases h : v.ty.isAssignableTo t.deref
    · exact .inl ⟨v.payload, by rw [toType_of_asSeq?_eq_some hs, if_pos h], .same h⟩
    · rw [toType_of_asSeq?_eq_some hs, if_neg h, hvs]
      cases t.deref with
      | list => exact .inl ⟨.list vs, rfl, .list (hvs _)⟩
      | vector => exact .inl ⟨.vector vs, rfl, .vector (hvs _)⟩
      | _ => exact .inr rfl

/-! ## What values become -/

theorem ty_of_convertNumber? {v : Value} (h : v.convertNumber? t = some r) :
    r.ty = t ∧ ∀ w, r ≠ resolved w := by
  unfold convertNumber? at h
  split at h
  case h_1 | h_2 | h_4 =>
    cases h
    exact ⟨rfl, nofun⟩
  case h_3 | h_5 | h_6 =>
    obtain ⟨_, -, rfl⟩ := Option.map_eq_some_iff.mp h
    exact ⟨rfl, nofun⟩
  case h_7 => cases h

/-- A value can stand for its own type. -/
theorem isAssignableTo_ty : (v : Value) → v.ty.isAssignableTo v.ty
  | resolved v => isAssignableTo_ty v
  | nil | bool _ | int _ | big _ | float _ | string _ | symbol _ | keyword _ | list _ | vector _
  | seq _ _ | native (.fn _) | native (.special _) | type _ => rfl

/-- No value is a reference. -/
theorem not_isAssignableTo_ref (u : Ty) : (v : Value) → ¬v.ty.isAssignableTo (.ref u)
  | resolved v => not_isAssignableTo_ref u v
  | nil | bool _ | int _ | big _ | float _ | string _ | symbol _ | keyword _ | list _ | vector _
  | seq _ _ | native (.fn _) | native (.special _) | type _ => nofun

theorem Converts.ne_resolved {v : Value} (h : v.Converts t r) (w : Value) : r ≠ resolved w := by
  cases h with
  | same => exact payload_ne_resolved w v
  | list | vector => exact nofun
  | number h => exact (ty_of_convertNumber? h).2 w

theorem Converts.isAssignableTo {v : Value} (h : v.Converts t r) : r.ty.isAssignableTo t := by
  cases h with
  | same h => rwa [ty_payload]
  | list | vector => rfl
  | number h =>
    obtain ⟨rfl, -⟩ := ty_of_convertNumber? h
    exact isAssignableTo_ty r

theorem toType_of_isAssignableTo {v : Value} (h : v.ty.isAssignableTo t.deref) :
    v.toType t = .ok v.payload := by
  rw [toType]
  exact if_pos ((ty_payload v).symm ▸ h)

/-- What has been converted stays as it is. -/
theorem Converts.toType_eq {v : Value} (h : v.Converts t.deref r) : r.toType t = .ok r := by
  have hpayload : r.payload = r := by
    cases r with
    | resolved w => exact absurd rfl (h.ne_resolved w)
    | _ => rfl
  rw [toType_of_isAssignableTo h.isAssignableTo, hpayload]

/-- What can be walked keeps its elements when it becomes a list or a vector. -/
theorem toType_elements {v : Value} (hvs : v.realize name = .ok vs)
    (ht : t.deref = .list ∨ t.deref = .vector) :
    ∃ r, v.toType t = .ok r ∧ r.realize name = .ok vs := by
  obtain ⟨s, hs, hr⟩ := realize_eq_ok.mp hvs
  have hvs' : v.realize "to-type" = .ok vs := realize_eq_ok.mpr ⟨s, hs, hr⟩
  by_cases h : v.ty.isAssignableTo t.deref
  · exact ⟨v.payload, toType_of_isAssignableTo h, (realize_payload name v).trans hvs⟩
  · rw [toType_of_asSeq?_eq_some hs, if_neg h, hvs']
    rcases ht with ht | ht
    · exact ⟨list vs, by rw [ht]; rfl, realize_items rfl name⟩
    · exact ⟨vector vs, by rw [ht]; rfl, realize_items rfl name⟩

end Value

/-- A conversion leads to the type that is asked for, one reference followed, and what it leads to
is unmarked and converts to itself. A value that can stand for the type stays as it is without its
marks. What can be walked becomes a list or a vector of the same elements, so a list that becomes a
vector comes back as it was. A conversion that fails names the types it would have led from and to,
and to a reference there is none. -/
theorem conversion_reaches_target {v : Value} (hv : ¬v.Endless) (t : Ty) :
    (∀ r, v.toType t = .ok r →
      (∀ w, r ≠ .resolved w) ∧ r.ty.isAssignableTo t.deref ∧ r.toType t = .ok r) ∧
    (v.ty.isAssignableTo t.deref → v.toType t = .ok v.payload) ∧
    (∀ name vs, v.realize name = .ok vs → t.deref = .list ∨ t.deref = .vector →
      ∃ r, v.toType t = .ok r ∧ r.realize name = .ok vs) ∧
    (∀ vs u, v.payload = .list vs → t.deref = .vector → u.deref = .list →
      v.convertVia t u = .ok (.list vs)) ∧
    (∀ e, v.toType t = .error e → e = .raised (.cannotConvert v.ty t.deref)) ∧
    ∀ u, t.deref = .ref u → v.toType t = .fail (.cannotConvert v.ty (.ref u)) := by
  refine ⟨fun r hr => ?_, Value.toType_of_isAssignableTo, fun _ _ => Value.toType_elements,
    fun vs u hp ht hu => ?_, fun e he => ?_, fun u ht => ?_⟩
  · rcases Value.toType_cases hv t with ⟨r', hr', hconverts⟩ | hfail
    · obtain rfl := Except.ok.inj (hr'.symm.trans hr)
      exact ⟨hconverts.ne_resolved, hconverts.isAssignableTo, hconverts.toType_eq⟩
    · cases hfail.symm.trans hr
  · have hvector : v.toType t = .ok (.vector vs) := by
      rw [← Value.toType_payload, hp, Value.toType_items rfl, ht]
      rfl
    have hlist : (Value.vector vs).toType u = .ok (.list vs) := by
      rw [Value.toType_items rfl, hu]
      rfl
    exact Value.convertVia_eq_ok.mpr ⟨_, hvector, hlist⟩
  · rcases Value.toType_cases hv t with ⟨r, hr, -⟩ | hfail
    · cases hr.symm.trans he
    · exact (Except.error.inj (hfail.symm.trans he)).symm
  · rcases Value.toType_cases hv t with ⟨r, -, hconverts⟩ | hfail
    · exact absurd (ht ▸ hconverts.isAssignableTo) (Value.not_isAssignableTo_ref u r)
    · rwa [ht] at hfail

/-- A marked sequence behind a reference to the type of lists. -/
theorem conversion_reaches_target_list :
    let vs : List Value := [.int 1, .resolved .nil]
    let v : Value := .resolved (.seq 0 (.items vs))
    let t : Ty := .ref .list
    ¬v.Endless ∧ v.toType t = .ok (.list vs) ∧ (Value.list vs).ty.isAssignableTo .list ∧
      (Value.list vs).toType t = .ok (.list vs) ∧
      v.toType (.ref t) = .fail (.cannotConvert .seq t) := by
  intro vs v t
  have hv : ¬v.Endless := by
    rintro ⟨s, hs, hr⟩
    cases hs
    rw [Sequence.realize?_items] at hr
    cases hr
  have hlist : v.toType t = .ok (.list vs) := rfl
  obtain ⟨-, htype, hagain⟩ := (conversion_reaches_target hv t).1 _ hlist
  obtain ⟨-, -, -, -, -, href⟩ := conversion_reaches_target hv (.ref t)
  exact ⟨hv, hlist, htype, hagain, href .list rfl⟩

end Lisplet
