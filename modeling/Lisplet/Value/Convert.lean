import Lisplet.Binary64.Wide
import Lisplet.Narrow
import Lisplet.Value.Realize

/-!
Types of values and conversions between types. A reference is followed one level, and no value is
looked at beyond its kind.
-/

namespace Lisplet.Value

/-- Whether a value has a capability. A type that is no interface is refused. -/
def implements (v : Value) (target : Ty) : Outcome Bool :=
  match target.deref.asInterface? with
  | some i => .ok (i.isSatisfiedBy v.ty)
  | none => .fail (.notInterface target.deref)

/-- Conversions between different kinds of numbers. A float loses its fraction, and has no integer
when it is not finite. No number converts to an `int` out of range; a float out of range is an
infinity. -/
def convertNumber? : Value → Ty → Option Value
  | int n, .bigInt => some (big n.toInt)
  | int n, .float => some (float (.ofInt n.toInt))
  | big n, .int => (narrow? n).map int
  | big n, .float => some (float (.ofBig n))
  | float x, .int => (x.trunc?.bind narrow?).map int
  | float x, .bigInt => x.trunc?.map big
  | _, _ => none

/-- Converts a value to a type. What can already stand for the type stays as it is, without its
marks; all that can be walked becomes a list or a vector of its elements. -/
def toType (v : Value) (target : Ty) : Outcome Value :=
  let v := v.payload
  let target := target.deref
  if v.ty.isAssignableTo target then .ok v
  else
    match target, v.asSeq? with
    | .list, some _ => list <$> v.realize "to-type"
    | .vector, some _ => vector <$> v.realize "to-type"
    | _, _ =>
      match convertNumber? v target with
      | some w => .ok w
      | none => .fail (.cannotConvert v.ty target)

@[simp] theorem toType_payload (v : Value) (t : Ty) : v.payload.toType t = v.toType t := by
  rw [toType, toType, payload_payload]

/-- What cannot be walked converts as a number, if at all. -/
theorem toType_of_asSeq?_eq_none {v : Value} (h : v.asSeq? = none) (t : Ty) : v.toType t =
    if v.ty.isAssignableTo t.deref then .ok v.payload
    else match v.payload.convertNumber? t.deref with
      | some w => .ok w
      | none => .fail (.cannotConvert v.ty t.deref) := by
  have hs : v.payload.asSeq? = none := by rwa [asSeq?, payload_payload]
  simp only [toType, ty_payload, hs]
  cases t.deref <;> rfl

/-- What can be walked becomes a list or a vector, if it has to become anything else. -/
theorem toType_of_asSeq?_eq_some {v : Value} (h : v.asSeq? = some s) (t : Ty) : v.toType t =
    if v.ty.isAssignableTo t.deref then .ok v.payload
    else match t.deref with
      | .list => list <$> v.realize "to-type"
      | .vector => vector <$> v.realize "to-type"
      | target => .fail (.cannotConvert v.ty target) := by
  have hs : v.payload.asSeq? = some s := by rwa [asSeq?, payload_payload]
  have hnumber (u : Ty) : v.payload.convertNumber? u = none := by
    rcases asSeq?_eq_some.mp h with ⟨i, hp⟩ | ⟨xs, -, ⟨hp, -⟩ | hp | hp⟩ <;> rw [hp] <;> rfl
  simp only [toType, ty_payload, realize_payload, hs, hnumber]
  cases t.deref <;> rfl

/-- What cannot be walked and cannot stand for the type as it is converts exactly as a number. -/
theorem toType_eq_ok_iff_convertNumber? {v : Value} (hseq : v.asSeq? = none)
    (ht : ¬v.ty.isAssignableTo t.deref) :
    v.toType t = .ok r ↔ v.payload.convertNumber? t.deref = some r := by
  rw [toType_of_asSeq?_eq_none hseq, if_neg ht]
  cases v.payload.convertNumber? t.deref with
  | none => exact iff_of_false nofun nofun
  | some w => simp

/-- A list or a vector stays as it is where that will do, and becomes the other one of the two. -/
theorem toType_items {v : Value} (h : v.items? = some vs) (t : Ty) : v.toType t =
    if v.ty.isAssignableTo t.deref then .ok v
    else match t.deref with
      | .list => .ok (list vs)
      | .vector => .ok (vector vs)
      | target => .fail (.cannotConvert v.ty target) := by
  have hr := realize_items h "to-type"
  rcases items?_eq_some.mp h with rfl | rfl
  · simp only [toType, payload, asSeq?, ty, hr]
    cases t.deref <;> rfl
  · simp only [toType, payload, asSeq?, ty, hr]
    cases t.deref <;> rfl

/-- The type that a value is. -/
def requireType (context : String) (v : Value) : Outcome Ty :=
  match v.payload with
  | type t => .ok t
  | w => .fail (.typeIn context "type" w.typeName)

/-- The 64-bit integer that a value is. -/
def requireInt (context : String) (v : Value) : Outcome Int64 :=
  match v.payload with
  | int n => .ok n
  | big n =>
    match narrow? n with
    | some i => .ok i
    | none => .fail (.integerOutOfRange context n)
  | w => .fail (.typeIn context "int" w.typeName)

end Lisplet.Value
