import Lisplet.Context
import Lisplet.Value.Equality

/-!
The hosts of the language, and the names that are bound when they start.
-/

namespace Lisplet

/-! ## Tables of names -/

def Native.binding (n : Native) : String × Value := (n.name, .native n)

/-- The built-in operations by their names, in the order of the names. -/
def builtinBindings : List (String × Value) :=
  [.special .threadFirst, .special .threadLast, .special .case, .special .doseq, .special .filter,
    .fn .implements, .fn .macroexpand, .special .map, .fn .range, .special .reduce,
    .special .assign, .fn .str, .fn .throw, .fn .toType, .fn .type].map Native.binding

def Ty.binding (t : Ty) : String × Value := (t.name, .type t)

/-- The type descriptors by their names, in the order of the names. -/
def typeBindings : List (String × Value) :=
  [.interface .any, .bigInt, .bool, .float, .fn, .int, .interface .invokable, .keyword, .list, .nil,
    .interface .number, .seq, .interface .seqable, .specialForm, .string, .symbol, .type,
    .vector].map Ty.binding

/-- Operations on integers and lists, and `quote`. -/
def helperBindings : List (String × Value) :=
  [.fn .add, .fn .mul, .fn .sub, .fn .inc, .fn .isEven, .fn .identity, .fn .alwaysTrue,
    .fn .alwaysFalse, .fn .list, .fn .countdown, .special .quote].map Native.binding

def Scope.ofTable (table : List (String × Value)) : Scope :=
  .root (.ofList (table.map fun (name, v) => (⟨name⟩, v)))

/-! ## Hosts -/

namespace Host

/-- A host without macros and without natives of its own. -/
def plain : Host := ⟨fun _ => none, fun _ => none⟩

/-- The expansion of `(inc! x)`, which is `(set! x (inc x))`. -/
def expandInc? : Value → Option Value
  | .list [head, target] =>
    if head == .symbol ⟨"inc!"⟩ then
      some (.list [.symbol ⟨"set!"⟩, target, .list [.symbol ⟨"inc"⟩, target]])
    else none
  | _ => none

theorem expandInc?_eq_some : expandInc? f = some g ↔ ∃ head target, f = .list [head, target] ∧
    head == .symbol ⟨"inc!"⟩ ∧
      g = .list [.symbol ⟨"set!"⟩, target, .list [.symbol ⟨"inc"⟩, target]] := by
  constructor
  · intro h
    unfold expandInc? at h
    split at h
    case h_1 head target =>
      split at h
      case isTrue hhead => exact ⟨head, target, rfl, hhead, (Option.some.inj h).symm⟩
      case isFalse => cases h
    case h_2 => cases h
  · rintro ⟨head, target, rfl, hhead, rfl⟩
    exact if_pos hhead

/-- The host that knows the macro `inc!` and no natives of its own. -/
def reference : Host := ⟨expandInc?, fun _ => none⟩

/-- `(eval form)`: evaluates a value as a form in the scope of the call. -/
def evalCode (eval : Evaluator) : List Value → Action Value
  | [form] => eval form
  | args => .raise (.arityExactly "eval" 1 args.length)

/-- `(lookup symbol)`: the value of a symbol that is given as a value. -/
def lookupCode : List Value → Action Value
  | [.symbol x] => .resolve x
  | [v] => .raise (.typeIn "lookup" "symbol" v.typeName)
  | args => .raise (.arityExactly "lookup" 1 args.length)

/-- The reference host with two natives that give programs access to evaluation and to scopes. -/
def reflective : Host where
  expand? := expandInc?
  code?
    | 0 => some evalCode
    | 1 => some fun _ => lookupCode
    | _ => none

def reflectiveBindings : List (String × Value) :=
  [.fn (.hosted "eval" 0), .fn (.hosted "lookup" 1)].map Native.binding

end Host

/-- The outermost scope of the reference host at its start. -/
def Scope.reference : Scope := .ofTable (builtinBindings ++ typeBindings ++ helperBindings)

/-- At its start natives and types are bound in it. -/
theorem Scope.native_or_type_of_reference (h : Scope.reference.resolve? x = some v) :
    (∃ n, v = .native n) ∨ ∃ t, v = .type t := by
  rw [Scope.reference, ofTable, resolve?_root] at h
  obtain ⟨e, he, rfl⟩ := Bindings.exists_of_get?_ofList h
  obtain ⟨⟨name, v⟩, hmem, rfl⟩ := List.mem_map.mp he
  rcases List.mem_append.mp hmem with hmem | hmem
  · rcases List.mem_append.mp hmem with hmem | hmem
    · obtain ⟨n, -, hn⟩ := List.mem_map.mp hmem
      exact .inl ⟨n, (Prod.mk.inj hn).2.symm⟩
    · obtain ⟨t, -, ht⟩ := List.mem_map.mp hmem
      exact .inr ⟨t, (Prod.mk.inj ht).2.symm⟩
  · obtain ⟨n, -, hn⟩ := List.mem_map.mp hmem
    exact .inl ⟨n, (Prod.mk.inj hn).2.symm⟩

/-- The outermost scope of the reflective host at its start. -/
def Scope.reflective : Scope :=
  .ofTable (builtinBindings ++ typeBindings ++ helperBindings ++ Host.reflectiveBindings)

/-- The state at the start: nothing has happened, and there are no host sequences. -/
def State.initial (scope : Scope) : State := ⟨scope, 0, []⟩

end Lisplet
