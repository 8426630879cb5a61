import Lisplet.Outcome
import Lisplet.Value.Basic

/-!
All elements of a value that can be walked.
-/

namespace Lisplet.Value

/-- The elements of a value in order. The error names the operation that asks for them. -/
def realize (context : String) (v : Value) : Outcome (List Value) :=
  match v.asSeq? with
  | none => .fail (.typeIn context "seqable" v.typeName)
  | some s =>
    match s.realize? with
    | some xs => .ok xs
    | none => .error .unfinished

theorem realize_eq_ok {v : Value} :
    v.realize context = .ok vs ↔ ∃ s, v.asSeq? = some s ∧ s.realize? = some vs := by
  unfold realize
  cases v.asSeq? with
  | none => exact iff_of_false nofun nofun
  | some s =>
    cases hs : s.realize? with
    | none => simp [hs]
    | some xs => simp [hs]

@[simp] theorem realize_payload (context : String) (v : Value) :
    v.payload.realize context = v.realize context := by
  rw [realize, realize, asSeq?, asSeq?, payload_payload, typeName_payload]

theorem realize_items {v : Value} (h : v.items? = some vs) (context : String) :
    v.realize context = .ok vs := by
  rcases items?_eq_some.mp h with rfl | rfl <;> simp [realize, asSeq?, payload]

end Lisplet.Value
