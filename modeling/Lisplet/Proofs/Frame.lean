import Lisplet.Proofs.Record

/-!
The frame of an evaluation. It writes to the current scope alone and takes no binding away, so that
a scope is found as it was left when a child of it is discarded. Main statement:
`writes_stay_in_current_scope`.
-/

namespace Lisplet

theorem Bindings.contains_insert [DecidableEq κ] {b : Bindings κ α} {k l : κ} {a : α}
    (h : b.contains l) : (b.insert k a).contains l := by
  by_cases hk : l = k
  · rw [hk, contains, get?_insert_self]
    rfl
  · rw [contains, get?_insert_of_ne b a hk]
    exact h

namespace Scope

/-! ## What a record makes of a scope -/

/-- `t` is `s` with more or other bindings of its own. -/
structure Grows (s t : Scope) : Prop where
  outer : t.outer = s.outer
  own : ∀ x, s.own.contains x → t.own.contains x

namespace Grows

theorem refl (s : Scope) : s.Grows s := ⟨rfl, fun _ h => h⟩

theorem trans {s t u : Scope} (h : s.Grows t) (h' : t.Grows u) : s.Grows u :=
  ⟨h'.outer.trans h.outer, fun x hx => h'.own x (h.own x hx)⟩

theorem bind (s : Scope) (x : Symbol) (v : Value) : s.Grows (s.bind x v) :=
  ⟨rfl, fun _ => Bindings.contains_insert⟩

theorem replay (s : Scope) (log : List Event) : s.Grows (s.replay log) := by
  induction log with
  | nil => exact refl s
  | cons e log ih =>
    cases e with
    | bound x v => exact ih.trans (bind ..)
    | evaluated | called | raised => exact ih

/-- Whatever happens to a child, the scope around it is the same. -/
theorem parent_eq {s t : Scope} (h : s.child.Grows t) : t.parent = s := by
  obtain ⟨own, outer⟩ := t
  obtain rfl : outer = s.own :: s.outer := h.outer
  rfl

end Grows

end Scope

/-! ## Runs -/

theorem grows_evalWith (limit : Option Nat) (n : Nat) (form : Value) (s : State) :
    s.scope.Grows ((evalWith .reference limit n form).run s).2.scope := by
  have hT := RecordProperty.trivial limit
  obtain ⟨-, log, -, hscope, -⟩ := hT.recorded_evalWith (fun _ => trivial) n form s
  rw [hscope]
  exact .replay ..

/-- What can come of a visit to a scope, in which forms are evaluated, with success or not, and
children of the scope are visited and discarded. -/
inductive Visited (limit : Option Nat) : State → State → Prop
  | refl : Visited limit s s
  | eval : Visited limit s t → Visited limit s ((evalWith .reference limit n form).run t).2
  | child : Visited limit s t → Visited limit { t with scope := t.scope.child } u →
    Visited limit s { u with scope := u.scope.parent }

theorem Visited.grows (h : Visited limit s t) : s.scope.Grows t.scope := by
  induction h with
  | refl => exact .refl _
  | eval _ ih => exact ih.trans (grows_evalWith ..)
  | child _ _ ih ihchild =>
    dsimp only at ihchild ⊢
    rw [ihchild.parent_eq]
    exact ih

/-- Evaluation leaves the scopes around the current one as they are, and what is bound in the
current one stays bound in it. So a scope is the same after a visit to a child of it. -/
theorem writes_stay_in_current_scope (limit : Option Nat) (n : Nat) (form : Value) (s : State) :
    let r := (evalWith .reference limit n form).run s
    r.2.scope.outer = s.scope.outer ∧
      (∀ x, s.scope.own.contains x → r.2.scope.own.contains x) ∧
      ∀ t, Visited limit { s with scope := s.scope.child } t → t.scope.parent = s.scope := by
  intro r
  obtain ⟨houter, hown⟩ := grows_evalWith limit n form s
  exact ⟨houter, hown, fun t ht => ht.grows.parent_eq⟩

end Lisplet
