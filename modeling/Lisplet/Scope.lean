import Lisplet.Bindings
import Lisplet.Value.Basic

/-!
Scopes: a chain of bindings of symbols to values. Writing goes to the innermost scope, reading
looks outward.
-/

namespace Lisplet

/-- A scope's own bindings and those of the scopes around it, the nearest first. -/
structure Scope where
  own : Bindings Symbol Value
  outer : List (Bindings Symbol Value)

namespace Scope

/-- A scope with nothing around it. -/
def root (b : Bindings Symbol Value) : Scope := ⟨b, []⟩

/-- The scope with `x` bound in it, whatever it was bound to before. -/
def bind (s : Scope) (x : Symbol) (v : Value) : Scope := { s with own := s.own.insert x v }

/-- The value of the nearest binding of `x`. -/
def resolve? (s : Scope) (x : Symbol) : Option Value := (s.own :: s.outer).findSome? (·.get? x)

/-- A new scope inside `s`. -/
def child (s : Scope) : Scope := ⟨.empty, s.own :: s.outer⟩

/-- The scope around `s`; the outermost one has none and stays. -/
def parent (s : Scope) : Scope :=
  match s.outer with
  | [] => s
  | b :: bs => ⟨b, bs⟩

/-- What each scope of the chain binds `x` to itself, the nearest first. -/
def layers (s : Scope) (x : Symbol) : List (Option Value) := (s.own :: s.outer).map (·.get? x)

def depth (s : Scope) : Nat := s.outer.length + 1

@[simp] theorem resolve?_root (b : Bindings Symbol Value) (x : Symbol) :
    (root b).resolve? x = b.get? x := by
  cases h : b.get? x <;> simp [resolve?, root, h]

@[simp] theorem resolve?_bind_self (s : Scope) (x : Symbol) (v : Value) :
    (s.bind x v).resolve? x = some v := by
  simp [resolve?, bind]

theorem resolve?_bind_of_ne (s : Scope) {x y : Symbol} (v : Value) (h : y ≠ x) :
    (s.bind x v).resolve? y = s.resolve? y := by
  simp [resolve?, bind, List.findSome?_cons, Bindings.get?_insert_of_ne _ _ h]

theorem resolve?_of_bind {s : Scope} (h : (s.bind x v).resolve? y = some w) :
    y = x ∧ w = v ∨ y ≠ x ∧ s.resolve? y = some w := by
  by_cases hy : y = x
  · rw [hy, resolve?_bind_self] at h
    exact .inl ⟨hy, (Option.some.inj h).symm⟩
  · rw [resolve?_bind_of_ne s v hy] at h
    exact .inr ⟨hy, h⟩

@[simp] theorem bind_bind (s : Scope) (x : Symbol) (v w : Value) :
    (s.bind x v).bind x w = s.bind x w := by
  simp [bind]

@[simp] theorem resolve?_child (s : Scope) (x : Symbol) : s.child.resolve? x = s.resolve? x := by
  simp [resolve?, child, List.findSome?_cons]

theorem resolve?_eq_layers (s : Scope) (x : Symbol) :
    s.resolve? x = (s.layers x).findSome? id := by
  rw [resolve?, layers, List.findSome?_map]
  rfl

@[simp] theorem layers_child (s : Scope) (x : Symbol) : s.child.layers x = none :: s.layers x := rfl

theorem layers_bind_of_ne (s : Scope) {x y : Symbol} (v : Value) (h : y ≠ x) :
    (s.bind x v).layers y = s.layers y := by
  simp [layers, bind, Bindings.get?_insert_of_ne _ _ h]

/-- The binding of a name takes the place of the nearest one. -/
@[simp] theorem layers_bind_self (s : Scope) (x : Symbol) (v : Value) :
    (s.bind x v).layers x = some v :: (s.layers x).tail := by
  simp [layers, bind]

@[simp] theorem parent_child (s : Scope) : s.child.parent = s := rfl

end Scope

end Lisplet
