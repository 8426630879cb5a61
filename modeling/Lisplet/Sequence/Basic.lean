import Lisplet.Sequence.Cursor

/-!
Sequences as a host supplies them: elements that are already there, or elements that are computed
when they are asked for. Main statement: elements that are all there are realized as they are
(`realize?_items`).
-/

namespace Lisplet

inductive Sequence (α : Type u) where
  /-- Elements that are all there; a sequence of this kind may be empty. -/
  | items (xs : List α)
  /-- The elements `item position`, `item (position + 1)`, ..., computed on demand. There is always
  a first one; `left` more follow it, or there is no end. -/
  | orbit (item : Nat → α) (position : Nat) (left : Option Nat)

namespace Sequence

def first? : Sequence α → Option α
  | items xs => xs.head?
  | orbit item position _ => some (item position)

def next? : Sequence α → Option (Sequence α)
  | items (_ :: x :: xs) => some (items (x :: xs))
  | items _ => none
  | orbit _ _ (some 0) => none
  | orbit item position (some (n + 1)) => some (orbit item (position + 1) (some n))
  | orbit item position none => some (orbit item (position + 1) none)

instance : Cursor (Sequence α) α := ⟨first?, next?⟩

/-- The number of cursors of a sequence, itself included; there is none when it has no end. -/
def span? : Sequence α → Option Nat
  | items xs => some (max 1 xs.length)
  | orbit _ _ left => left.map (· + 1)

/-- All elements of a sequence that ends. -/
def realize? (s : Sequence α) : Option (List α) := s.span?.bind (Cursor.realize? · s)

@[simp] theorem realize?_items (xs : List α) : (items xs).realize? = some xs := by
  simp only [realize?, span?, Option.bind_some]
  induction xs with
  | nil => rfl
  | cons x xs ih =>
    cases xs with
    | nil => rfl
    | cons y ys =>
      have h : max 1 (y :: ys).length = (y :: ys).length := by simp
      rw [h] at ih
      change (Cursor.realize? (y :: ys).length (items (y :: ys))).map (x :: ·) = _
      rw [ih]
      rfl

/-- Computed elements that have an end are all realized. -/
theorem realize?_orbit (item : Nat → α) (position left : Nat) :
    ∃ xs, (orbit item position (some left)).realize? = some xs ∧ ∀ x ∈ xs, ∃ i, item i = x := by
  induction left generalizing position with
  | zero => exact ⟨[item position], rfl, by simp⟩
  | succ n ih =>
    obtain ⟨xs, hxs, hitem⟩ := ih (position + 1)
    refine ⟨item position :: xs, ?_, ?_⟩
    · change (Cursor.realize? (n + 1) (orbit item (position + 1) (some n))).map _ = _
      change Cursor.realize? (n + 1) (orbit item (position + 1) (some n)) = some xs at hxs
      rw [hxs]
      rfl
    · simpa using hitem

/-- At most `n` elements. -/
def take (n : Nat) (s : Sequence α) : List α := (Iter.ofCursor s).take n

/-- The endless sequence `a`, `f a`, `f (f a)`, .... -/
def iterate (f : α → α) (a : α) : Sequence α := orbit (fun n => Nat.repeat f n a) 0 none

end Sequence

end Lisplet
