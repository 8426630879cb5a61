import Lisplet.Binary64.Basic
import Lisplet.Native
import Lisplet.Sequence.Basic
import Lisplet.Ty

/-!
Values, which are also the forms of the language: a list is a call, a symbol a name, a vector holds
forms, and all else stands for itself. A marked value (`resolved`) has been evaluated already. It
stands in a form for its payload, and most questions about a value look through the mark.
-/

namespace Lisplet

inductive Value where
  | nil
  | bool (b : Bool)
  | int (n : Int64)
  | big (n : Int)
  | float (x : Binary64)
  | string (s : String)
  | symbol (s : Symbol)
  | keyword (s : Symbol)
  | list (items : List Value)
  | vector (items : List Value)
  /-- A sequence a host has made, told apart from others by its identity. -/
  | seq (identity : Nat) (elements : Sequence Value)
  | native (n : Native)
  | type (t : Ty)
  | resolved (v : Value)

namespace Value

/-! ## Marks -/

/-- The value without its marks. -/
def payload : Value → Value
  | resolved v => v.payload
  | v => v

/-- The value with a mark; one that has a mark stays as it is. -/
def mark : Value → Value
  | resolved v => resolved v
  | v => resolved v

@[simp] theorem payload_resolved (v : Value) : (resolved v).payload = v.payload := rfl

@[simp] theorem payload_mark (v : Value) : v.mark.payload = v.payload := by cases v <;> rfl

theorem payload_ne_resolved (w : Value) : (v : Value) → v.payload ≠ resolved w
  | resolved v => payload_ne_resolved w v
  | nil | bool _ | int _ | big _ | float _ | string _ | symbol _ | keyword _ | list _ | vector _
  | seq _ _ | native _ | type _ => nofun

@[simp] theorem payload_payload : (v : Value) → v.payload.payload = v.payload
  | resolved v => payload_payload v
  | nil | bool _ | int _ | big _ | float _ | string _ | symbol _ | keyword _ | list _ | vector _
  | seq _ _ | native _ | type _ => rfl

theorem exists_mark_eq (v : Value) : ∃ w, v.mark = resolved w := by
  cases v <;> exact ⟨_, rfl⟩

/-! ## Questions that look through marks -/

/-- The name of the kind of a value, as errors give it. -/
def typeName : Value → String
  | nil => "nil"
  | bool _ => "bool"
  | int _ => "int"
  | big _ => "bigint"
  | float _ => "float"
  | string _ => "string"
  | symbol _ => "symbol"
  | keyword _ => "keyword"
  | list _ => "list"
  | vector _ => "vector"
  | seq _ _ => "seq"
  | native (.special _) => "special-form"
  | native (.fn _) => "fn"
  | type _ => "type"
  | resolved v => v.typeName

/-- The concrete type of a value. -/
def ty : Value → Ty
  | nil => .nil
  | bool _ => .bool
  | int _ => .int
  | big _ => .bigInt
  | float _ => .float
  | string _ => .string
  | symbol _ => .symbol
  | keyword _ => .keyword
  | list _ => .list
  | vector _ => .vector
  | seq _ _ => .seq
  | native (.special _) => .specialForm
  | native (.fn _) => .fn
  | type _ => .type
  | resolved v => v.ty

@[simp] theorem typeName_payload : (v : Value) → v.payload.typeName = v.typeName
  | resolved v => typeName_payload v
  | nil | bool _ | int _ | big _ | float _ | string _ | symbol _ | keyword _ | list _ | vector _
  | seq _ _ | native _ | type _ => rfl

@[simp] theorem ty_payload : (v : Value) → v.payload.ty = v.ty
  | resolved v => ty_payload v
  | nil | bool _ | int _ | big _ | float _ | string _ | symbol _ | keyword _ | list _ | vector _
  | seq _ _ | native _ | type _ => rfl

def isNil (v : Value) : Bool :=
  match v.payload with
  | nil => true
  | _ => false

/-- Everything but nil and false is true. -/
def isTruthy (v : Value) : Bool :=
  match v.payload with
  | nil => false
  | bool b => b
  | _ => true

/-- The elements of a value that can be walked; nil is the empty sequence. -/
def asSeq? (v : Value) : Option (Sequence Value) :=
  match v.payload with
  | nil => some (.items [])
  | list xs => some (.items xs)
  | vector xs => some (.items xs)
  | seq _ s => some s
  | _ => none

/-- Sequences come from host sequences, and from nil, lists and vectors with all elements there. -/
theorem asSeq?_eq_some {v : Value} : v.asSeq? = some s ↔ (∃ i, v.payload = seq i s) ∨
    ∃ xs, s = .items xs ∧
      (v.payload = nil ∧ xs = [] ∨ v.payload = list xs ∨ v.payload = vector xs) := by
  rw [asSeq?]
  generalize v.payload = w
  cases w <;> simp [eq_comm]

/-- The function a value is. A special form is none: it takes forms, and would evaluate the values
it is called with a second time. -/
def asFunction? (v : Value) : Option Function :=
  match v.payload with
  | native (.fn f) => some f
  | _ => none

def isInvokable (v : Value) : Bool := v.asFunction?.isSome

/-! ## Questions about the value as it stands -/

/-- The symbol a value is; a marked one is none. -/
def asSymbol? : Value → Option Symbol
  | symbol s => some s
  | _ => none

/-- The items of a list or a vector. -/
def items? : Value → Option (List Value)
  | list xs | vector xs => some xs
  | _ => none

theorem items?_eq_some {v : Value} : v.items? = some xs ↔ v = list xs ∨ v = vector xs := by
  cases v <;> simp [items?]

/-- How the object inside a symbol, a keyword or a host sequence is shown on inspection. -/
def inspectObject? : Value → Option String
  | symbol s => some s.inspect
  | keyword s => some s.inspect
  | seq _ _ => some "#<seq>"
  | _ => none

end Value

end Lisplet
