/-!
Symbols, the names of bindings and the payload of keywords. Any string is a name, the empty one too.
-/

namespace Lisplet

/-- Two symbols are the same exactly when they are spelled alike. -/
structure Symbol where
  name : String
  deriving DecidableEq

namespace Symbol

/-- The form in which a symbol is shown to someone inspecting it. -/
def inspect (s : Symbol) : String := "Symbol(" ++ s.name ++ ")"

end Symbol

end Lisplet
