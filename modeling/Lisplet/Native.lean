import Lisplet.Symbol.Basic

/-!
Natives: the operations that are bound to names from the start. A function receives values, a
special form receives the forms as they were written.
-/

namespace Lisplet

inductive Function where
  | type | implements | toType | str | range | macroexpand | throw
  | add | mul | sub | inc | isEven | identity | alwaysTrue | alwaysFalse | list | countdown
  /-- Keeps the arguments of its calls for later inspection, and fails when the first one is
  `failOn`. Recorders are told apart by their index. -/
  | recorder (index : Nat) (failOn : Int64)
  /-- A function whose code the host keeps, under a number of its own. -/
  | hosted (name : String) (slot : Nat)
  /-- A function without code that could be called. -/
  | foreign (name : String)

inductive SpecialForm where
  | case | map | filter | reduce | doseq | assign | threadFirst | threadLast | quote
  /-- A special form without code that could be called. -/
  | foreign (name : String)

inductive Native where
  | fn (f : Function)
  | special (s : SpecialForm)

namespace Function

def name : Function → String
  | type => "type"
  | implements => "implements?"
  | toType => "to-type"
  | str => "str"
  | range => "range"
  | macroexpand => "macroexpand"
  | throw => "throw"
  | add => "+"
  | mul => "*"
  | sub => "-"
  | inc => "inc"
  | isEven => "even?"
  | identity => "identity"
  | alwaysTrue => "always-true"
  | alwaysFalse => "always-false"
  | list => "list"
  | countdown => "countdown"
  | recorder _ _ => "watcher"
  | hosted name _ => name
  | foreign name => name

end Function

namespace SpecialForm

def name : SpecialForm → String
  | case => "case"
  | map => "map"
  | filter => "filter"
  | reduce => "reduce"
  | doseq => "doseq"
  | assign => "set!"
  | threadFirst => "->"
  | threadLast => "->>"
  | quote => "quote"
  | foreign name => name

end SpecialForm

namespace Native

def name : Native → String
  | fn f => f.name
  | special s => s.name

def isSpecial : Native → Bool
  | fn _ => false
  | special _ => true

/-- Natives are equal when they are of one kind and have the same name. -/
instance : BEq Native := ⟨fun a b => a.name == b.name && a.isSpecial == b.isSpecial⟩

end Native

end Lisplet
