/-!
The sequence protocol: a cursor hands out the element in front of it and the cursor behind that one.
There are three ways to walk it. `realize?` collects everything, `Iter` pulls one element at a time,
and `advance` follows the cursors alone.
-/

namespace Lisplet

/-- Access to a sequence by its first element and the rest. A cursor without a first element is
empty, whatever stands behind it. -/
class Cursor (σ : Type u) (α : outParam (Type v)) where
  first? : σ → Option α
  next? : σ → Option σ

namespace Cursor

variable {σ : Type u} {α : Type v} [Cursor σ α]

/-- The cursor `n` steps further. -/
def advance : Nat → σ → Option σ
  | 0, c => some c
  | n + 1, c => (next? c).bind (advance n)

/-- All elements from `c` on, up to the first empty or missing cursor. There is no answer when more
than `budget` cursors have to be looked at. -/
def realize? : (budget : Nat) → σ → Option (List α)
  | 0, _ => none
  | n + 1, c =>
    match first? c with
    | none => some []
    | some a =>
      match next? c with
      | none => some [a]
      | some c => (realize? n c).map (a :: ·)

end Cursor

/-- An iterator: the cursor of the element that comes next, if there is one. -/
structure Iter (σ : Type u) where
  cursor? : Option σ

namespace Iter

variable {σ : Type u} {α : Type v} [Cursor σ α]

def ofCursor (c : σ) : Iter σ := ⟨some c⟩

/-- The next element and the iterator after it. -/
def step? (it : Iter σ) : Option (α × Iter σ) :=
  it.cursor?.bind fun c => (Cursor.first? c).map fun a => (a, ⟨Cursor.next? c⟩)

/-- At most `n` elements; no cursor behind the last of them is looked at. -/
def take : Nat → Iter σ → List α
  | 0, _ => []
  | n + 1, it =>
    match it.step? with
    | none => []
    | some (a, it) => a :: take n it

end Iter

end Lisplet
